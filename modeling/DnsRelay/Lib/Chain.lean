import Mathlib.Data.Fintype.Card
import Mathlib.Data.List.Nodup
import Mathlib.Logic.Function.Basic

/-!
# Singly linked chains in a heap of cells

`link p` is the pointer stored in the cell `p`; it has no value when `p` is not
allocated. `Hangs link h l` says that from the pointer `h` the cells of `l`
follow one another and that the last one stores the null pointer.
-/

namespace DnsRelay.Lib.Chain

open Function

variable {π : Type*} {link link' : π → Option (Option π)} {h : Option π} {p last : π}
  {l l' : List π}

/-- The cells `l` hang from the pointer `h`. -/
def Hangs (link : π → Option (Option π)) : Option π → List π → Prop
  | h, [] => h = none
  | h, p :: l => h = some p ∧ ∃ t, link p = some t ∧ Hangs link t l

@[simp] theorem hangs_nil : Hangs link h [] ↔ h = none := Iff.rfl

@[simp] theorem hangs_cons :
    Hangs link h (p :: l) ↔ h = some p ∧ ∃ t, link p = some t ∧ Hangs link t l := Iff.rfl

/-- A pointer determines the cells that hang from it. -/
theorem Hangs.unique (hl : Hangs link h l) (hl' : Hangs link h l') : l = l' := by
  induction l generalizing h l' with
  | nil =>
      cases l' with
      | nil => rfl
      | cons p' l' =>
          obtain ⟨hp, -⟩ := hl'
          rw [hangs_nil.mp hl] at hp
          cases hp
  | cons p l ih =>
      obtain ⟨rfl, t, ht, hl⟩ := hl
      cases l' with
      | nil => cases hl'
      | cons p' l' =>
          obtain ⟨hp, t', ht', hl'⟩ := hl'
          cases hp
          rw [ht] at ht'
          cases ht'
          rw [ih hl hl']

/-- Only the links of the listed cells matter. -/
theorem Hangs.congr (hl : Hangs link h l) (heq : ∀ p ∈ l, link' p = link p) :
    Hangs link' h l := by
  induction l generalizing h with
  | nil => exact hl
  | cons p l ih =>
      obtain ⟨hp, t, ht, hl⟩ := hl
      refine ⟨hp, t, by rw [heq p (by simp), ht], ih hl ?_⟩
      intro x hx
      exact heq x (List.mem_cons_of_mem _ hx)

/-- A cell that begins a chain is its first cell. -/
theorem Hangs.exists_cons (hl : Hangs link (some p) l) :
    ∃ t rest, l = p :: rest ∧ link p = some t ∧ Hangs link t rest := by
  cases l with
  | nil => cases hl
  | cons p' rest =>
      obtain ⟨hp, t, ht, hrest⟩ := hl
      cases hp
      exact ⟨t, rest, rfl, ht, hrest⟩

theorem Hangs.isSome_of_mem (hl : Hangs link h l) (hp : p ∈ l) : (link p).isSome := by
  induction l generalizing h with
  | nil => cases hp
  | cons x l ih =>
      obtain ⟨-, t, ht, hl⟩ := hl
      rcases List.mem_cons.mp hp with rfl | hp
      · simp [ht]
      · exact ih hl hp

section Update

variable [DecidableEq π]

/-- Storing a cell that ends with the null pointer in the last cell appends it. -/
theorem Hangs.append (hl : Hangs link h (l ++ [last])) (hd : (l ++ [last]).Nodup)
    (hp : p ∉ l ++ [last]) (hnull : link p = some none) :
    Hangs (update link last (some (some p))) h ((l ++ [last]) ++ [p]) := by
  induction l generalizing h with
  | nil =>
      obtain ⟨rfl, -⟩ := hl
      have hne : p ≠ last := by simpa using hp
      refine ⟨rfl, some p, update_self _ _ _, rfl, none, ?_, rfl⟩
      rw [update_of_ne hne, hnull]
  | cons x l ih =>
      obtain ⟨rfl, t, ht, hl⟩ := hl
      obtain ⟨hx, hd⟩ := List.nodup_cons.mp hd
      have hne : x ≠ last := by
        rintro rfl
        exact hx (by simp)
      refine ⟨rfl, t, by rw [update_of_ne hne, ht], ih hl hd ?_⟩
      intro hmem
      exact hp (List.mem_cons_of_mem _ hmem)

end Update

section Walk

variable {ε : Type*}

/-- A loop that goes from a cell to the last cell of its chain: `walk (n + 1) p` returns `p`
when its pointer is null, and goes on with `n` rounds otherwise. -/
structure Walks (link : π → Option (Option π)) (walk : ℕ → π → Except ε π) : Prop where
  stop : ∀ n p, link p = some none → walk (n + 1) p = .ok p
  step : ∀ n p t, link p = some (some t) → walk (n + 1) p = walk n t

/-- With as many rounds as the chain has cells the loop returns the last cell. -/
theorem Walks.eq_last {walk : ℕ → π → Except ε π} (hw : Walks link walk) {fuel : ℕ}
    (hl : Hangs link (some p) (l ++ [last])) (hf : l.length < fuel) :
    walk fuel p = .ok last := by
  obtain ⟨n, rfl⟩ : ∃ n, fuel = n + 1 := ⟨fuel - 1, by omega⟩
  induction l generalizing p n with
  | nil =>
      obtain ⟨hp, t, ht, hnull⟩ := hl
      cases hp
      rw [hangs_nil.mp hnull] at ht
      exact hw.stop n _ ht
  | cons x l ih =>
      obtain ⟨hp, t, ht, hl⟩ := hl
      cases hp
      rw [List.length_cons] at hf
      obtain ⟨y, rfl⟩ : ∃ y, t = some y := by
        cases l with
        | nil => exact ⟨_, hl.1⟩
        | cons z l => exact ⟨_, hl.1⟩
      obtain ⟨m, rfl⟩ : ∃ m, n = m + 1 := ⟨n - 1, by omega⟩
      rw [hw.step (m + 1) _ y ht]
      exact ih hl m (by omega)

/-- The chain is no longer than the heap has cells. -/
theorem Walks.eq_last_of_card [Fintype π] {walk : ℕ → π → Except ε π} (hw : Walks link walk)
    (hl : Hangs link (some p) (l ++ [last])) (hd : (l ++ [last]).Nodup) :
    walk (Fintype.card π) p = .ok last := by
  have hlen := hd.length_le_card
  rw [List.length_append, List.length_singleton] at hlen
  exact hw.eq_last hl (by omega)

end Walk

end DnsRelay.Lib.Chain
