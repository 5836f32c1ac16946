import DnsRelay.Lru.Model
import DnsRelay.Lib.LinkedList
import Mathlib.Data.List.Perm.Basic

/-!
# Links and free slots of the cache

`Inv c l` says that `l` is the list of used slots read from the head node, that the
slots of `l` and of the free stack partition the array, and that every hash node
points into the array. It holds after `init_cache` and after every call that
returns, whatever data the records hold.
-/

namespace DnsRelay.Lru

open DnsRelay.Hash DnsRelay.Lib.LinkedList DnsRelay.Lib.Machine Function

/-- The entries of the free stack, bottom first. -/
def stackSlots (c : Cache) : List ℤ := (List.range (c.stackTop + 1)).map c.stack

/-- The slots `1..n`. -/
def slots (n : ℕ) : List ℤ := (List.range n).map fun (i : ℕ) => (i : ℤ) + 1

/-- The same cache with other links and other ends. -/
def relink (c : Cache) (next last : ℤ → ℤ) (first' last' : ℤ) : Cache :=
  { c with
    records.next := next
    records.last := last
    first := first'
    last := last' }

/-- The list part of the invariant. -/
structure Ends (c : Cache) (l : List ℤ) : Prop where
  linked : Linked c.records.next c.records.last (-1) 0 l
  first_eq : ∀ s ∈ l.head?, c.first = s
  last_eq : ∀ s ∈ l.getLast?, c.last = s

/-- The cache invariant for the list `l` of used slots. -/
structure Inv (c : Cache) (l : List ℤ) : Prop extends Ends c l where
  perm : (stackSlots c ++ l).Perm (slots c.maxLength)
  bottom : c.stack 0 = c.maxLength
  valid_iff : ∀ s : ℤ, 0 < s → s ≤ c.maxLength → (c.records.valid s = true ↔ s ∈ l)
  length_eq : c.length = l.length
  nodes : ∀ b, ∀ r ∈ c.labelHash.chain b, ∃ s, r = some s ∧ 0 < s ∧ s ≤ c.maxLength
  heads : ∀ b, (c.labelHash.nodes b).record = none
  isInit : c.isInit = true

variable {c c' : Cache} {l a b : List ℤ} {s t : ℤ}

theorem mem_slots {n : ℕ} : s ∈ slots n ↔ 0 < s ∧ s ≤ n := by
  simp only [slots, List.mem_map, List.mem_range]
  constructor
  · rintro ⟨i, hi, rfl⟩
    omega
  · rintro ⟨h₁, h₂⟩
    exact ⟨(s - 1).toNat, by omega, by omega⟩

theorem slots_nodup (n : ℕ) : (slots n).Nodup := by
  refine List.nodup_range.map fun i j h => ?_
  omega

theorem stack_mem_stackSlots {i : ℕ} (hi : i ≤ c.stackTop) : c.stack i ∈ stackSlots c :=
  List.mem_map.mpr ⟨i, List.mem_range.mpr (by omega), rfl⟩

theorem stackSlots_push (f : ℕ → ℤ) (top : ℕ) (x : ℤ) :
    (List.range (top + 1 + 1)).map (update f (top + 1) x) =
      (List.range (top + 1)).map f ++ [x] := by
  rw [List.range_succ, List.map_append]
  simp only [List.map_cons, List.map_nil, update_self, List.append_cancel_right_eq]
  refine List.map_congr_left fun i hi => update_of_ne ?_ _ _
  have := List.mem_range.mp hi
  omega

namespace Inv

theorem used_nodup (h : Inv c l) : l.Nodup :=
  (List.nodup_append.mp (h.perm.nodup_iff.mpr (slots_nodup _))).2.1

theorem tail_notMem (h : Inv c (l ++ [t])) : t ∉ l := fun ht =>
  (List.nodup_append.mp h.used_nodup).2.2 t ht t (by simp) rfl

theorem used_not_free (h : Inv c l) (hs : s ∈ l) : s ∉ stackSlots c := by
  intro hf
  have hd := List.nodup_append.mp (h.perm.nodup_iff.mpr (slots_nodup _))
  exact hd.2.2 s hf s hs rfl

theorem used_pos (h : Inv c l) (hs : s ∈ l) : 0 < s :=
  (mem_slots.mp (h.perm.mem_iff.mp (List.mem_append_right _ hs))).1

theorem used_le (h : Inv c l) (hs : s ∈ l) : s ≤ c.maxLength :=
  (mem_slots.mp (h.perm.mem_iff.mp (List.mem_append_right _ hs))).2

/-- The last slot stays at the bottom of the stack and is never used. -/
theorem used_lt (h : Inv c l) (hs : s ∈ l) : s < c.maxLength := by
  have hne : s ≠ c.maxLength := by
    rintro rfl
    exact h.used_not_free hs (h.bottom ▸ stack_mem_stackSlots (Nat.zero_le _))
  exact lt_of_le_of_ne (h.used_le hs) hne

theorem head_nodup (h : Inv c l) : (0 :: l).Nodup :=
  List.nodup_cons.mpr ⟨fun h0 => absurd (h.used_pos h0) (by simp), h.used_nodup⟩

theorem valid_of_mem (h : Inv c l) (hs : s ∈ l) : c.records.valid s = true :=
  (h.valid_iff s (h.used_pos hs) (h.used_le hs)).mpr hs

theorem addr_eq (h : Inv c l) (hs : s ∈ l) : getRecordAddr c s = s :=
  if_pos ⟨h.used_pos hs, h.used_le hs⟩

/-- The first slot is already at the front. -/
theorem cons_erase_first (h : Inv c l) (hf : s = c.first) (hs : s ∈ l) :
    s :: l.erase s = l := by
  cases l with
  | nil => simp at hs
  | cons x l =>
      have hx : s = x := hf.trans (h.first_eq x (by simp))
      simp [hx]

theorem stackTop_add (h : Inv c l) : c.stackTop + 1 + l.length = c.maxLength := by
  have := h.perm.length_eq
  simpa [stackSlots, slots] using this

/-- Relinking the same slots in another order. -/
theorem relink_of_perm {next last : ℤ → ℤ} {f e : ℤ} {m : List ℤ} (h : Inv c l)
    (he : Ends (relink c next last f e) m) (hm : l.Perm m) :
    Inv (relink c next last f e) m where
  toEnds := he
  perm := ((List.Perm.append_left _ hm.symm).trans h.perm :)
  bottom := h.bottom
  valid_iff := fun s h₁ h₂ => (h.valid_iff s h₁ h₂).trans hm.mem_iff
  length_eq := h.length_eq.trans hm.length_eq
  nodes := h.nodes
  heads := h.heads
  isInit := h.isInit

end Inv

/-- The last slot of the list, or the head node when the list is empty. -/
def endOf (l : List ℤ) : ℤ := (0 :: l).getLast (by simp)

theorem endOf_mem : endOf l ∈ 0 :: l := List.getLast_mem _

theorem endOf_eq_of_getLast? (h : s ∈ l.getLast?) : endOf l = s := by
  obtain ⟨a, rfl⟩ := List.getLast?_eq_some_iff.mp h
  simp [endOf]

@[simp] theorem endOf_append_cons : endOf (a ++ s :: b) = (s :: b).getLast (by simp) := by
  simp only [endOf, ← List.cons_append]
  rw [List.getLast_append_of_ne_nil _ (by simp)]

/-- Unlinking one slot; the end moves back when it was the last one. -/
theorem linklistRemoveNode_ends (he : Ends c (a ++ s :: b)) (hd : (0 :: (a ++ s :: b)).Nodup)
    (hpos : ∀ x ∈ b, 0 < x) :
    ∃ next last, linklistRemoveNode c s = relink c next last c.first (endOf (a ++ b)) ∧
      Linked next last (-1) 0 (a ++ b) := by
  cases b with
  | nil =>
      have hend : c.records.next s = -1 := by simpa using he.linked.next_last
      have hprev : c.records.last s = endOf a := he.linked.prev_eq
      refine ⟨update c.records.next (c.records.last s) (-1), c.records.last, ?_, ?_⟩
      · simp [linklistRemoveNode, hend, hprev, relink]
      · simpa using he.linked.unlink_last hd
  | cons u b =>
      have hnext : c.records.next s = u := he.linked.next_eq
      have hu : 0 < u := hpos u (by simp)
      have hlast : c.last = endOf (a ++ u :: b) := by
        have hmem : (u :: b).getLast (by simp) ∈ (a ++ s :: u :: b).getLast? := by
          simp [List.getLast?_eq_some_getLast]
        rw [he.last_eq _ hmem, endOf_append_cons]
      refine ⟨update c.records.next (c.records.last s) u,
        update c.records.last u (c.records.last s), ?_, he.linked.unlink hd⟩
      simp [linklistRemoveNode, hnext, hu, ← hlast, relink]

/-- Hanging a slot that is in no list behind the head node. -/
theorem linkFront_ends (he : Ends c l) (hs : s ∉ 0 :: l) (hd : (0 :: l).Nodup)
    (hlen : 1 < c.length ↔ l ≠ []) :
    ∃ next last e, linkFront c s = relink c next last s e ∧
      Ends (relink c next last s e) (s :: l) := by
  cases l with
  | nil =>
      have hlen' : ¬ 1 < c.length := by simp [hlen]
      have hs0 : s ≠ 0 := by simpa using hs
      refine ⟨update (update c.records.next s (-1)) 0 s, update c.records.last s 0, s, ?_, ?_⟩
      · simp [linkFront, hlen', relink]
      · exact ⟨linked_singleton hs0, by simp [relink], by simp [relink]⟩
  | cons f l =>
      have hlen' : 1 < c.length := by simp [hlen]
      have hf : c.first = f := he.first_eq f (by simp)
      refine ⟨update (update c.records.next s f) 0 s, update (update c.records.last s 0) f s,
        c.last, ?_, ?_⟩
      · simp [linkFront, hlen', hf, relink]
      · refine ⟨he.linked.push hs hd, by simp [relink], ?_⟩
        intro x hx
        exact he.last_eq x (by simpa [List.getLast?_cons_cons] using hx)

end DnsRelay.Lru
