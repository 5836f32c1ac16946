import DnsRelay.Lib.Machine
import Mathlib.Algebra.BigOperators.Group.Finset.Piecewise
import Mathlib.Algebra.GroupWithZero.Nat
import Mathlib.Data.Fintype.Basic

/-!
# Runs that come to rest

If every step lowers the rank of the state, a run has at most as many steps as the rank
of the state it starts from. The rank of a state with parts is the sum of the ranks of
its parts, and a step that moves one part changes the sum by that part.
-/

namespace DnsRelay.Lib

/-- Changing one summand. -/
theorem sum_update_add {κ β : Type*} [Fintype κ] [DecidableEq κ] (rank : β → ℕ) (f : κ → β)
    (k : κ) (b : β) :
    ∑ j, rank (Function.update f k b j) + rank (f k) = ∑ j, rank (f j) + rank b := by
  have hupdate : (fun j => rank (Function.update f k b j)) =
      Function.update (fun j => rank (f j)) k (rank b) := by
    funext j
    by_cases hj : j = k
    · subst hj
      simp
    · simp [hj]
  rw [hupdate, Finset.sum_update_of_mem (Finset.mem_univ k), Finset.sdiff_singleton_eq_erase,
    ← Finset.add_sum_erase _ (fun j => rank (f j)) (Finset.mem_univ k)]
  omega

namespace Machine

universe u v

variable {ε : Type u} {σ ι ο : Type v}

/-- `R s os m` says that a state `s` reached with the outputs `os` has the rank `m`. -/
theorem run_rank {step : σ → ι → Except ε (σ × ο)} (R : σ → List ο → ℕ → Prop) {s t : σ} {m : ℕ}
    {is : List ι} (before : List ο) {os : List ο}
    (hstep : ∀ i ∈ is, ∀ s os m s' o, R s os m → step s i = .ok (s', o) →
      ∃ m' < m, R s' (os ++ [o]) m')
    (hs : R s before m) (h : run step s is = .ok (t, os)) :
    ∃ m', R t (before ++ os) m' ∧ is.length + m' ≤ m := by
  induction is generalizing s m before os with
  | nil =>
      cases h
      exact ⟨m, by simpa using hs, by simp⟩
  | cons i rest ih =>
      obtain ⟨s₁, o, os', hi, hrest, rfl⟩ := run_cons_eq_ok.mp h
      obtain ⟨m₁, hlt, hs₁⟩ := hstep i (by simp) s before m s₁ o hs hi
      obtain ⟨m', ht, hle⟩ := ih _ (fun j hj => hstep j (List.mem_cons_of_mem _ hj)) hs₁ hrest
      refine ⟨m', by simpa using ht, ?_⟩
      rw [List.length_cons]
      omega

end Machine

end DnsRelay.Lib
