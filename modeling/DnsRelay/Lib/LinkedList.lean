import Mathlib.Data.List.Iterate
import Mathlib.Data.List.Induction
import Mathlib.Data.List.Nodup
import Mathlib.Logic.Function.Basic

/-!
# Doubly linked lists stored in two link arrays

`Linked next prev stop h l` says that the nodes of `l` hang from the header
`h`: the `next` links run through `l` in order and end at `stop`, and the
`prev` links run back to `h`. The two arrays are plain functions, so the rules
for linking and unlinking a node are stated with `Function.update`.
-/

namespace DnsRelay.Lib.LinkedList

open Function

variable {ι : Type*}

/-- The nodes `l` hang from `h` in both directions. -/
def Linked (next prev : ι → ι) (stop : ι) : ι → List ι → Prop
  | h, [] => next h = stop
  | h, s :: l => next h = s ∧ prev s = h ∧ Linked next prev stop s l

variable {next prev next' prev' : ι → ι} {stop h s t : ι} {l a b : List ι}

@[simp] theorem linked_nil : Linked next prev stop h [] ↔ next h = stop := Iff.rfl

@[simp] theorem linked_cons :
    Linked next prev stop h (s :: l) ↔
      next h = s ∧ prev s = h ∧ Linked next prev stop s l := Iff.rfl

/-- Only the links of the header and of the listed nodes matter. -/
theorem Linked.congr (hl : Linked next prev stop h l)
    (hn : ∀ x ∈ h :: l, next' x = next x) (hp : ∀ x ∈ l, prev' x = prev x) :
    Linked next' prev' stop h l := by
  induction l generalizing h with
  | nil => simpa [hn h (by simp)] using hl
  | cons s l ih =>
      obtain ⟨h₁, h₂, h₃⟩ := hl
      refine ⟨by rw [hn h (by simp), h₁], by rw [hp s (by simp), h₂], ih h₃ ?_ ?_⟩
      · intro x hx
        exact hn x (List.mem_cons_of_mem _ hx)
      · intro x hx
        exact hp x (List.mem_cons_of_mem _ hx)

/-- The `prev` link of a node is the node before it, or the header. -/
theorem Linked.prev_eq (hl : Linked next prev stop h (a ++ s :: b)) :
    prev s = (h :: a).getLast (by simp) := by
  induction a generalizing h with
  | nil => simpa using hl.2.1
  | cons x a ih =>
      have := ih hl.2.2
      simpa using this

theorem Linked.prev_mem (hl : Linked next prev stop h (a ++ s :: b)) :
    prev s ∈ h :: a := by
  rw [hl.prev_eq]
  exact List.getLast_mem _

/-- Only the first node of a list has the header in front of it. -/
theorem Linked.head_ne_prev {x : ι} (hl : Linked next prev stop h (x :: a ++ s :: b))
    (hd : (h :: (x :: a ++ s :: b)).Nodup) : h ≠ prev s := by
  have hmem : prev s ∈ x :: a := Linked.prev_mem hl.2.2
  rintro rfl
  exact (List.nodup_cons.mp hd).1 (List.mem_append_left _ hmem)

/-- The `next` link of a node is the node after it. -/
theorem Linked.next_eq (hl : Linked next prev stop h (a ++ s :: t :: b)) :
    next s = t := by
  induction a generalizing h with
  | nil => exact hl.2.2.1
  | cons x a ih => exact ih hl.2.2

/-- The last node, or the header of an empty list, ends at `stop`. -/
theorem Linked.next_last (hl : Linked next prev stop h l) :
    next ((h :: l).getLast (by simp)) = stop := by
  induction l generalizing h with
  | nil => simpa using hl
  | cons s l ih => simpa using ih hl.2.2

/-- Following `next` from the header visits exactly the listed nodes. -/
theorem Linked.iterate_next (hl : Linked next prev stop h l) :
    List.iterate next (next h) l.length = l := by
  induction l generalizing h with
  | nil => rfl
  | cons s l ih =>
      obtain ⟨h₁, -, h₃⟩ := hl
      simp only [List.length_cons, List.iterate, h₁]
      rw [ih h₃]

/-- Following `prev` from the last node of a front part retraces it back to the header. -/
theorem Linked.iterate_prev (hl : Linked next prev stop h (l ++ b)) :
    List.iterate prev ((h :: l).getLast (by simp)) (l.length + 1) = l.reverse ++ [h] := by
  induction l using List.reverseRecOn generalizing b with
  | nil => rfl
  | append_singleton l x ih =>
      have hl' : Linked next prev stop h (l ++ x :: b) := by simpa using hl
      have hx := hl'.prev_eq
      have hlast : (h :: (l ++ [x])).getLast (by simp) = x := by simp
      rw [hlast, List.length_append, List.length_singleton, List.iterate, hx, ih hl']
      simp

/-- The first node points back to the header. -/
theorem Linked.prev_head (hl : Linked next prev stop h (s :: l)) : prev s = h := hl.2.1

section Update

variable [DecidableEq ι]

/-- Overwriting `next` outside the list keeps it linked. -/
theorem Linked.update_next_of_notMem (hl : Linked next prev stop h l)
    (hs : s ∉ h :: l) (v : ι) : Linked (update next s v) prev stop h l := by
  refine hl.congr (fun x hx => ?_) (fun x _ => rfl)
  have hne : x ≠ s := by
    rintro rfl
    exact hs hx
  exact update_of_ne hne v next

theorem Linked.update_prev_of_notMem (hl : Linked next prev stop h l)
    (hs : s ∉ l) (v : ι) : Linked next (update prev s v) stop h l := by
  refine hl.congr (fun x _ => rfl) (fun x hx => ?_)
  have hne : x ≠ s := by
    rintro rfl
    exact hs hx
  exact update_of_ne hne v prev

/-- Cutting the last node off by ending its predecessor. -/
theorem Linked.unlink_last (hl : Linked next prev stop h (a ++ [s]))
    (hd : (h :: (a ++ [s])).Nodup) : Linked (update next (prev s) stop) prev stop h a := by
  induction a generalizing h with
  | nil =>
      obtain ⟨-, h₂, -⟩ := hl
      simp [h₂]
  | cons x a ih =>
      have hne : h ≠ prev s := hl.head_ne_prev hd
      refine ⟨?_, hl.2.1, ih hl.2.2 (List.nodup_cons.mp hd).2⟩
      rw [update_of_ne hne]
      exact hl.1

/-- Bridging a node that has a successor. -/
theorem Linked.unlink (hl : Linked next prev stop h (a ++ s :: t :: b))
    (hd : (h :: (a ++ s :: t :: b)).Nodup) :
    Linked (update next (prev s) t) (update prev t (prev s)) stop h (a ++ t :: b) := by
  induction a generalizing h with
  | nil =>
      obtain ⟨h₁, h₂, h₃, h₄, h₅⟩ := hl
      simp only [List.nil_append, List.nodup_cons, List.mem_cons, not_or] at hd
      obtain ⟨⟨hhs, hht, hhb⟩, ⟨hst, hsb⟩, htb, hb⟩ := hd
      refine ⟨by simp [h₂], by simp [h₂], ?_⟩
      rw [h₂]
      refine (h₅.update_next_of_notMem ?_ t).update_prev_of_notMem htb h
      simp [hht, hhb]
  | cons x a ih =>
      have hd' := (List.nodup_cons.mp hd).2
      have hne : h ≠ prev s := hl.head_ne_prev hd
      have hxt : x ≠ t := by
        rintro rfl
        simp at hd'
      refine ⟨?_, ?_, ih hl.2.2 hd'⟩
      · rw [update_of_ne hne]
        exact hl.1
      · rw [update_of_ne hxt]
        exact hl.2.1

/-- Hanging a new node between the header and the first node. -/
theorem Linked.push (hl : Linked next prev stop h (t :: l)) (hs : s ∉ h :: t :: l)
    (hd : (h :: t :: l).Nodup) :
    Linked (update (update next s t) h s) (update (update prev s h) t s) stop h
      (s :: t :: l) := by
  simp only [List.mem_cons, not_or] at hs
  simp only [List.nodup_cons, List.mem_cons, not_or] at hd
  obtain ⟨hsh, hst, hsl⟩ := hs
  obtain ⟨⟨hht, hhl⟩, htl, -⟩ := hd
  refine ⟨by simp, by simp [hst], by simp [hsh], by simp, ?_⟩
  refine hl.2.2.congr (fun x hx => ?_) (fun x hx => ?_)
  · have hxh : x ≠ h := by
      rintro rfl
      simp [hht, hhl] at hx
    have hxs : x ≠ s := by
      rintro rfl
      simp [hst, hsl] at hx
    rw [update_of_ne hxh, update_of_ne hxs]
  · have hxt : x ≠ t := by
      rintro rfl
      exact htl hx
    have hxs : x ≠ s := by
      rintro rfl
      exact hsl hx
    rw [update_of_ne hxt, update_of_ne hxs]

/-- Hanging the only node of a list. -/
theorem linked_singleton (hs : s ≠ h) :
    Linked (update (update next s stop) h s) (update prev s h) stop h [s] := by
  simp [hs]

end Update

end DnsRelay.Lib.LinkedList
