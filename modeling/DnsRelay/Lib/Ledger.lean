import DnsRelay.Lib.Output
import Mathlib.Algebra.BigOperators.Fin
import Mathlib.Algebra.GroupWithZero.Nat
import Mathlib.Algebra.Order.BigOperators.Group.Finset
import Mathlib.Data.Fintype.BigOperators

/-!
# Accounts of a run

A table with a slot for every pending item, the multiset of its entries, and the
books of a run: if every step changes an account by what it puts on it and takes off
it, the account at the end of a run is what the whole run has put on it and not taken
off.
-/

namespace DnsRelay.Lib

section Entries

variable {κ α : Type*} [Fintype κ] {t t' u : κ → Option α} {k : κ} {a : α}

/-- The entries of a table, each as often as it occurs. -/
def entries (t : κ → Option α) : Multiset α := ∑ k, ((t k).toList : Multiset α)

theorem entries_of_none (h : ∀ k, t k = none) : entries t = 0 := by
  simp [entries, h]

/-- Taking out of every slot what is taken out of it. -/
theorem entries_split (h : ∀ k, (t k).toList = (u k).toList ++ (t' k).toList) :
    entries t = entries u + entries t' := by
  simp only [entries, h, ← Multiset.coe_add]
  exact Finset.sum_add_distrib

/-- Filling a free slot. -/
theorem entries_fill [DecidableEq κ] (h : t k = none) :
    entries (Function.update t k (some a)) = {a} + entries t := by
  have hsplit : entries (Function.update t k (some a)) =
      entries (fun j => if j = k then some a else none) + entries t := by
    apply entries_split
    intro j
    by_cases hj : j = k
    · subst hj
      simp [h]
    · simp [hj]
  rw [hsplit, entries, Finset.sum_eq_single k]
  · simp
  · intro j _ hj
    simp [hj]
  · simp

/-- Freeing a slot in use. -/
theorem entries_free [DecidableEq κ] (h : t k = some a) :
    entries t = {a} + entries (Function.update t k none) := by
  have hback : t = Function.update (Function.update t k none) k (some a) := by
    simp [← h]
  conv_lhs => rw [hback]
  exact entries_fill (by simp)

theorem card_entries_le (t : κ → Option α) : Multiset.card (entries t) ≤ Fintype.card κ := by
  rw [entries, Multiset.card_sum]
  calc ∑ k, Multiset.card ((t k).toList : Multiset α) ≤ ∑ _k : κ, 1 := by
        apply Finset.sum_le_sum
        intro k _
        cases t k with
        | none => simp
        | some a => simp
    _ = Fintype.card κ := by simp

/-- The entries of a numbered table, slot by slot. -/
theorem entries_eq_filterMap {n : ℕ} (t : Fin n → Option α) :
    entries t = ((List.finRange n).filterMap t : Multiset α) := by
  rw [entries, Fin.sum_univ_def]
  induction List.finRange n with
  | nil => rfl
  | cons k ks ih =>
      rw [List.map_cons, List.sum_cons, ih, Multiset.coe_add]
      cases hk : t k with
      | none => rw [List.filterMap_cons_none hk]; rfl
      | some a => rw [List.filterMap_cons_some hk]; rfl

end Entries

/-- The lists for the elements one after the other are the elements that are kept. -/
theorem forall₂_filterMap {α β γ : Type*} {R : β → γ → Prop} {f : α → Option β} {g : α → List γ}
    {l : List α} (h : ∀ x ∈ l, List.Forall₂ R (f x).toList (g x)) :
    List.Forall₂ R (l.filterMap f) (l.flatMap g) := by
  induction l with
  | nil => exact .nil
  | cons x l ih =>
      have hrest := ih fun y hy => h y (List.mem_cons_of_mem _ hy)
      have hfirst := h x List.mem_cons_self
      rw [List.flatMap_cons]
      cases hx : f x with
      | none =>
          rw [hx] at hfirst
          cases hg : g x with
          | nil =>
              rw [List.filterMap_cons_none hx, List.nil_append]
              exact hrest
          | cons z zs =>
              rw [hg] at hfirst
              cases hfirst
      | some y =>
          rw [hx] at hfirst
          rw [List.filterMap_cons_some hx]
          exact List.rel_append hfirst hrest

namespace Output

universe u

/-- A state, with what has been put on an account and what has been taken off it. -/
structure Books (σ M : Type u) where
  state : σ
  credit : M
  debit : M

variable {ω ε σ ι M : Type u} [AddCommMonoid M] {step : σ → ι → Output ω ε σ}
  {credit debit : σ → ι → List ω → M} {s : σ} {is : List ι}

/-- A step that books what it puts on the account and takes off it. -/
def bookStep (step : σ → ι → Output ω ε σ) (credit debit : σ → ι → List ω → M)
    (b : Books σ M) (i : ι) : Output ω ε (Books σ M) :=
  let o := step b.state i
  ⟨o.sent, o.result.map fun t =>
    ⟨t, b.credit + credit b.state i o.sent, b.debit + debit b.state i o.sent⟩⟩

/-- Bookkeeping does not change a run. -/
theorem run_bookStep (step : σ → ι → Output ω ε σ) (credit debit : σ → ι → List ω → M)
    (b : Books σ M) (is : List ι) :
    (run (bookStep step credit debit) b is).sent = (run step b.state is).sent ∧
      (run (bookStep step credit debit) b is).result.map Books.state =
        (run step b.state is).result := by
  have hresult : ∀ (b : Books σ M) (i : ι), (bookStep step credit debit b i).result.map
      Books.state = (step b.state (id i)).result := by
    intro b i
    cases h : (step b.state i).result <;> simp [bookStep, h, Except.map]
  have hproject := run_project Books.state id (fun _ _ => rfl) hresult b is
  rwa [List.map_id] at hproject

/-- If every step changes the account by what it books, the books balance at the end of a
run. -/
theorem run_balance {b : Books σ M}
    (h : (run (bookStep step credit debit) ⟨s, 0, 0⟩ is).result = .ok b) (account : σ → M)
    (P : σ → Prop)
    (hstep : ∀ s i t, P s → (step s i).result = .ok t →
      P t ∧ account s + credit s i (step s i).sent = debit s i (step s i).sent + account t)
    (hs : P s) : account s + b.credit = b.debit + account b.state := by
  have hrun : Ensures (fun _ => True) (run (bookStep step credit debit) ⟨s, 0, 0⟩ is)
      fun b => P b.state ∧ account s + b.credit = b.debit + account b.state := by
    apply run_ensures_of_mem
    · rintro i - b ⟨hP, hbalance⟩
      refine ⟨fun _ _ => trivial, fun b' hb' => ?_⟩
      obtain ⟨t, ht, rfl⟩ := Machine.map_eq_ok.mp hb'
      obtain ⟨hP', hchange⟩ := hstep b.state i t hP ht
      refine ⟨hP', ?_⟩
      rw [← add_assoc, hbalance, add_assoc, hchange, add_assoc]
    · exact ⟨hs, by rw [add_zero, zero_add]⟩
  exact (hrun.result b h).2

end Output

end DnsRelay.Lib
