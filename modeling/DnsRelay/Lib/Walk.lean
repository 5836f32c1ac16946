import Mathlib.Data.Finset.Card
import Mathlib.Data.Fintype.Card
import Mathlib.Data.Fintype.Pigeonhole
import Mathlib.Logic.Relation

/-!
# Deterministic walks

A walk moves from place to place until the partial function `next` has no
value. It passes no place twice, so a walk whose places all lie in a finite set
ends within as many steps as the set has elements, or never.
-/

namespace DnsRelay.Lib.Walk

variable {σ : Type*} {next : σ → Option σ} {s t : σ} {m n : ℕ} {S : Finset σ}

/-- The walk from a place ends after exactly `n` steps. -/
def HaltsIn (next : σ → Option σ) : ℕ → σ → Prop
  | 0, s => next s = none
  | n + 1, s => ∃ t, next s = some t ∧ HaltsIn next n t

theorem HaltsIn.of_next (h : HaltsIn next n s) (ht : next s = some t) :
    ∃ m, n = m + 1 ∧ HaltsIn next m t := by
  cases n with
  | zero =>
      rw [HaltsIn, ht] at h
      cases h
  | succ m =>
      obtain ⟨u, hu, hrest⟩ := h
      rw [ht] at hu
      cases hu
      exact ⟨m, rfl, hrest⟩

theorem HaltsIn.unique (hm : HaltsIn next m s) (hn : HaltsIn next n s) : m = n := by
  induction m generalizing n s with
  | zero =>
      cases n with
      | zero => rfl
      | succ n =>
          obtain ⟨t, ht, -⟩ := hn
          rw [HaltsIn, ht] at hm
          cases hm
  | succ m ih =>
      obtain ⟨t, ht, hm⟩ := hm
      obtain ⟨n, rfl, hrest⟩ := hn.of_next ht
      rw [ih hm hrest]

/-- For every shorter length the walk passes a place that is that far from its end. -/
theorem HaltsIn.exists_of_le (h : HaltsIn next n s) (hm : m ≤ n) :
    ∃ t, HaltsIn next m t := by
  induction n generalizing s with
  | zero =>
      obtain rfl : m = 0 := by omega
      exact ⟨s, h⟩
  | succ n ih =>
      by_cases heq : m = n + 1
      · exact ⟨s, heq ▸ h⟩
      · obtain ⟨t, -, ht⟩ := h
        exact ih ht (by omega)

/-- A walk through a finite set of places is no longer than the set. -/
theorem HaltsIn.le_card (hS : ∀ s t, next s = some t → s ∈ S) (h : HaltsIn next n s) :
    n ≤ S.card := by
  -- the place at distance `i + 1` from the end is not an end, so it lies in the set
  have hplace : ∀ i : Fin n, ∃ t ∈ S, HaltsIn next (i + 1) t := by
    intro i
    obtain ⟨t, ht⟩ := h.exists_of_le (m := i + 1) (by omega)
    obtain ⟨u, hu, hrest⟩ := ht
    exact ⟨t, hS t u hu, u, hu, hrest⟩
  choose f hf hd using hplace
  have hinj : Function.Injective f := by
    intro i j hij
    have hi := hd i
    rw [hij] at hi
    have := hi.unique (hd j)
    omega
  calc
    n = (Finset.univ.map ⟨f, hinj⟩).card := by simp
    _ ≤ S.card := by
      apply Finset.card_le_card
      intro t ht
      obtain ⟨i, -, rfl⟩ := Finset.mem_map.mp ht
      exact hf i

section Cycles

open Relation

/-- One move of the walk. -/
def Moves (next : σ → Option σ) (s t : σ) : Prop := next s = some t

/-- What the walk passes on its way to the end is not farther from it. -/
theorem HaltsIn.of_reaches (h : HaltsIn next n s) (hr : ReflTransGen (Moves next) s t) :
    ∃ m ≤ n, HaltsIn next m t := by
  induction hr using ReflTransGen.head_induction_on generalizing n with
  | refl => exact ⟨n, le_rfl, h⟩
  | @head a b hab hbt ih =>
      obtain ⟨n, rfl, hrest⟩ := h.of_next hab
      obtain ⟨m, hm, ht⟩ := ih hrest
      exact ⟨m, by omega, ht⟩

/-- What the walk passes leads to the end of the walk. -/
theorem reaches_end {e : σ} (hst : ReflTransGen (Moves next) s t)
    (hse : ReflTransGen (Moves next) s e) (he : next e = none) :
    ReflTransGen (Moves next) t e := by
  have hunique : Relator.RightUnique (Moves next) := fun a b c hab hac =>
    Option.some.inj (hab.symm.trans hac)
  rcases ReflTransGen.total_of_right_unique hunique hst hse with hte | het
  · exact hte
  · rcases het.cases_head with rfl | ⟨u, hu, -⟩
    · exact .refl
    · rw [Moves, he] at hu
      cases hu

/-- A walk that ends passes no cycle. -/
theorem HaltsIn.no_cycle (h : HaltsIn next n s) : ¬ TransGen (Moves next) s s := by
  intro hcycle
  obtain ⟨t, hst, hts⟩ := TransGen.head'_iff.mp hcycle
  obtain ⟨n, rfl, hrest⟩ := h.of_next hst
  obtain ⟨m, hm, hs⟩ := hrest.of_reaches hts
  have := hs.unique h
  omega

/-- The place after `k` moves. -/
def place (next : σ → Option σ) (s : σ) : ℕ → σ
  | 0 => s
  | k + 1 => (next (place next s k)).getD (place next s k)

theorem moves_of_endless (h : ∀ n, ¬ HaltsIn next n s) : Moves next s ((next s).getD s) := by
  cases hn : next s with
  | none => exact absurd hn (h 0)
  | some t => exact hn

theorem place_endless (h : ∀ n, ¬ HaltsIn next n s) (k : ℕ) :
    ∀ n, ¬ HaltsIn next n (place next s k) := by
  induction k with
  | zero => exact h
  | succ k ih =>
      intro n hn
      exact ih (n + 1) ⟨_, moves_of_endless ih, hn⟩

theorem place_reaches (h : ∀ n, ¬ HaltsIn next n s) (i k : ℕ) :
    ReflTransGen (Moves next) (place next s i) (place next s (i + k)) := by
  induction k with
  | zero => exact .refl
  | succ k ih => exact ih.tail (moves_of_endless (place_endless h (i + k)))

/-- An endless walk that comes to the same place again is on a cycle there. -/
theorem cycle_of_place_eq (h : ∀ n, ¬ HaltsIn next n s) {i j : ℕ} (hlt : i < j)
    (heq : place next s i = place next s j) :
    TransGen (Moves next) (place next s i) (place next s i) := by
  have hback := place_reaches h (i + 1) (j - (i + 1))
  rw [show i + 1 + (j - (i + 1)) = j by omega, ← heq] at hback
  exact TransGen.head' (moves_of_endless (place_endless h i)) hback

/-- A walk through a finite set of places that does not end comes to a cycle. -/
theorem exists_cycle (hS : ∀ s t, next s = some t → s ∈ S) (h : ∀ n, ¬ HaltsIn next n s) :
    ∃ t, ReflTransGen (Moves next) s t ∧ TransGen (Moves next) t t := by
  have hmem : ∀ k, place next s k ∈ S := fun k =>
    hS _ _ (moves_of_endless (place_endless h k))
  obtain ⟨i, j, hne, heq⟩ :=
    Finite.exists_ne_map_eq_of_infinite fun k => (⟨place next s k, hmem k⟩ : S)
  have heq' : place next s i = place next s j := congrArg Subtype.val heq
  have hreach : ∀ k, ReflTransGen (Moves next) s (place next s k) := by
    intro k
    have hk := place_reaches h 0 k
    rwa [Nat.zero_add] at hk
  rcases Nat.lt_or_gt_of_ne hne with hlt | hlt
  · exact ⟨_, hreach i, cycle_of_place_eq h hlt heq'⟩
  · exact ⟨_, hreach j, cycle_of_place_eq h hlt heq'.symm⟩

/-- A walk through a finite set of places ends exactly when it comes to no cycle. -/
theorem halts_iff_no_cycle (hS : ∀ s t, next s = some t → s ∈ S) :
    (∃ n, HaltsIn next n s) ↔
      ¬ ∃ t, ReflTransGen (Moves next) s t ∧ TransGen (Moves next) t t := by
  constructor
  · rintro ⟨n, hn⟩ ⟨t, hst, hcycle⟩
    obtain ⟨m, -, ht⟩ := hn.of_reaches hst
    exact ht.no_cycle hcycle
  · intro hno
    by_contra hnever
    exact hno (exists_cycle hS (not_exists.mp hnever))

end Cycles

section Fuel

variable {α ρ : Type*} {loop : ℕ → σ → α → ρ} {hang : ρ} {a : α} {bound fuel : ℕ}

/-- A loop with a bound on its rounds and an accumulator that follows the walk: without
rounds left it gives `hang`, and a round that continues passes `hang` on. -/
structure Unrolls (next : σ → Option σ) (loop : ℕ → σ → α → ρ) (hang : ρ) : Prop where
  zero : ∀ s a, loop 0 s a = hang
  stop : ∀ s a, next s = none → ∀ m n, loop (m + 1) s a = loop (n + 1) s a
  step : ∀ s t a, next s = some t →
    ∃ (a' : α) (g : ρ → ρ), g hang = hang ∧ ∀ n, loop (n + 1) s a = g (loop n t a')

/-- The rounds after the end of the walk change nothing. -/
theorem Unrolls.eq_of_haltsIn (hu : Unrolls next loop hang) (h : HaltsIn next n s)
    (hf : n < fuel) : loop fuel s a = loop (n + 1) s a := by
  induction n generalizing fuel s a with
  | zero =>
      obtain ⟨k, rfl⟩ := Nat.exists_eq_add_of_lt hf
      exact hu.stop s a h _ _
  | succ n ih =>
      obtain ⟨k, rfl⟩ : ∃ k, fuel = k + 1 := ⟨fuel - 1, by omega⟩
      obtain ⟨t, ht, hrest⟩ := h
      obtain ⟨a', g, -, hg⟩ := hu.step s t a ht
      rw [hg, hg, ih hrest (by omega)]

/-- A loop that does not hang has come to the end of the walk. -/
theorem Unrolls.haltsIn_of_ne (hu : Unrolls next loop hang) (h : loop fuel s a ≠ hang) :
    ∃ n < fuel, HaltsIn next n s := by
  induction fuel generalizing s a with
  | zero => exact absurd (hu.zero s a) h
  | succ fuel ih =>
      cases ht : next s with
      | none => exact ⟨0, by omega, ht⟩
      | some t =>
          obtain ⟨a', g, hhang, hg⟩ := hu.step s t a ht
          have hne : loop fuel t a' ≠ hang := by
            intro heq
            rw [hg, heq] at h
            exact h hhang
          obtain ⟨n, hn, hrest⟩ := ih hne
          exact ⟨n + 1, by omega, t, ht, hrest⟩

/-- One round more than there are places gives what any number of rounds gives. -/
theorem Unrolls.eq_of_card_lt (hu : Unrolls next loop hang)
    (hS : ∀ s t, next s = some t → s ∈ S) (hb : S.card < bound) (h : loop fuel s a ≠ hang) :
    loop bound s a = loop fuel s a := by
  obtain ⟨n, hn, hhalt⟩ := hu.haltsIn_of_ne h
  have hle := hhalt.le_card hS
  rw [hu.eq_of_haltsIn hhalt (by omega), hu.eq_of_haltsIn hhalt hn]

end Fuel

end DnsRelay.Lib.Walk
