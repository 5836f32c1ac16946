import DnsRelay.Hash
import Mathlib.Algebra.Order.Floor.Semiring
import Mathlib.Analysis.Real.Sqrt
import Mathlib.Data.Nat.Prime.Basic

/-!
# The size of the chained hash table

`find_smallest_prime` round by round, on the `int` values of the source and with
both of its loops. The trial division leaves its loop after the first divisor, so
the search ends at the first odd number from three on, prime or not.
-/

namespace DnsRelay.Hash

open DnsRelay.Lib.Machine

section SquareRoot

variable {n k : ℕ}

theorem ceilSqrt_le_iff : ceilSqrt n ≤ k ↔ n ≤ k * k := by
  cases hfound : (List.range n).find? fun j => n ≤ j * j with
  | none =>
      -- no square below `n` reaches it, so `n` is its own ceiling
      have hsmall : ∀ j < n, j * j < n := by
        simpa using hfound
      have hvalue : ceilSqrt n = n := by
        rw [ceilSqrt, hfound, Option.getD_none]
      rw [hvalue]
      constructor
      · intro hk
        exact hk.trans (Nat.le_mul_self k)
      · intro hk
        by_contra hlt
        have := hsmall k (by omega)
        omega
  | some j =>
      have hvalue : ceilSqrt n = j := by
        rw [ceilSqrt, hfound, Option.getD_some]
      obtain ⟨hj, -, hfirst⟩ := List.find?_range_eq_some.mp hfound
      rw [hvalue]
      constructor
      · intro hk
        exact (of_decide_eq_true hj).trans (Nat.mul_le_mul hk hk)
      · intro hk
        by_contra hlt
        have := hfirst k (by omega)
        simp at this
        omega

/-- The number that `ceil(sqrt(n))` stands for. -/
theorem ceilSqrt_eq_ceil (n : ℕ) : ceilSqrt n = ⌈√(n : ℝ)⌉₊ := by
  apply eq_of_forall_ge_iff
  intro k
  rw [ceilSqrt_le_iff, Nat.ceil_le, Real.sqrt_le_left (Nat.cast_nonneg k), ← pow_two]
  exact_mod_cast Iff.rfl

end SquareRoot

/-- `INT_MAX` for an `int` of 32 bits. -/
def intMax : ℤ := 2147483647

/-- `n++`: overflow of `int` is undefined. -/
def incr (n : ℤ) : Exec ℤ :=
  if n < intMax then .ok (n + 1) else .error .fault

/-- `int sqrt_n = ceil(sqrt(n))`. The root of a negative number does not convert to `int`. -/
def ceilSqrtInt (n : ℤ) : Exec ℤ :=
  if 0 ≤ n then .ok (ceilSqrt n.toNat) else .error .fault

/-- The trial division loop, with the `break` where the missing braces put it. -/
def trialDivision (n sqrtN : ℤ) : Bool := Id.run do
  let mut flag := false
  for i in [2:sqrtN.toNat + 1] do
    if n.tmod i = 0 then
      flag := true
    break
  return flag

/-- How a round of `while (true)` ends: by `continue` or at the end of the body, or by `break`. -/
inductive Round
  | again (n : ℤ)
  | leave (n : ℤ)
  deriving DecidableEq, Repr

/-- The body of `while (true)`. -/
def searchRound (n : ℤ) : Exec Round := do
  let sqrtN ← ceilSqrtInt n
  if 1 = n then
    return .again (← incr n)
  else if !trialDivision n sqrtN then
    return .leave n
  else
    return .again (← incr n)

/-- The first rounds of `find_smallest_prime`: `none` while the search goes on. -/
def search : ℕ → ℤ → Exec (Option ℤ)
  | 0, _ => .ok none
  | fuel + 1, n => do
      match ← searchRound n with
      | .again n => search fuel n
      | .leave n => return some n

/-- Two is the only divisor that is tried. -/
theorem trialDivision_eq (n sqrtN : ℤ) :
    trialDivision n sqrtN = (decide (2 ≤ sqrtN) && decide (n.tmod 2 = 0)) := by
  simp only [trialDivision, Std.Legacy.Range.forIn_eq_forIn_range', Std.Legacy.Range.size,
    Nat.add_sub_cancel, Nat.div_one]
  by_cases h : 2 ≤ sqrtN
  · obtain ⟨rounds, hrounds⟩ : ∃ rounds, sqrtN.toNat + 1 - 2 = rounds + 1 :=
      ⟨sqrtN.toNat - 2, by omega⟩
    by_cases hn : n.tmod 2 = 0
    · simp [hrounds, List.range'_succ, h, hn]
    · simp [hrounds, List.range'_succ, h, hn]
  · have hrounds : sqrtN.toNat + 1 - 2 = 0 := by omega
    simp [hrounds, h]

section Rounds

variable {n : ℕ}

theorem two_le_ceilSqrt : 2 ≤ ceilSqrt n ↔ 2 ≤ n := by
  have h : ceilSqrt n ≤ 1 ↔ n ≤ 1 := ceilSqrt_le_iff
  omega

theorem trialFlag_iff : trialFlag n = true ↔ 2 ≤ n ∧ n % 2 = 0 := by
  simp [trialFlag, two_le_ceilSqrt]

/-- The loop of the source and the flag of `findSmallestPrimeFrom`. -/
theorem trialDivision_ceilSqrt (n : ℕ) : trialDivision n (ceilSqrt n) = trialFlag n := by
  have hroot : (2 : ℤ) ≤ ceilSqrt n ↔ 2 ≤ ceilSqrt n := Nat.ofNat_le_cast
  have hrem : (n : ℤ).tmod 2 = 0 ↔ n % 2 = 0 := by
    rw [Int.tmod_eq_emod_of_nonneg (Int.natCast_nonneg n)]
    omega
  simp only [trialDivision_eq, trialFlag, hroot, hrem]

/-- The numbers from which the search goes on to the next one. -/
def Passed (n : ℕ) : Prop := n = 1 ∨ trialFlag n = true

theorem findSmallestPrimeFrom_of_passed (hn : Passed n) (fuel : ℕ) :
    findSmallestPrimeFrom (fuel + 1) n = findSmallestPrimeFrom fuel (n + 1) := by
  rcases hn with hone | hflag
  · simp [findSmallestPrimeFrom, hone]
  · simp [findSmallestPrimeFrom, hflag]

theorem findSmallestPrimeFrom_of_not_passed (hn : ¬ Passed n) (fuel : ℕ) :
    findSmallestPrimeFrom (fuel + 1) n = some n := by
  obtain ⟨hone, hflag⟩ := not_or.mp hn
  simp [findSmallestPrimeFrom, hone, hflag]

/-- The largest `int` is odd, so the search does not go on from it. -/
theorem Passed.lt_intMax (hn : Passed n) (h : (n : ℤ) ≤ intMax) : (n : ℤ) < intMax := by
  simp only [Passed, trialFlag_iff] at hn
  simp only [intMax] at h ⊢
  omega

theorem Passed.incr_eq (hn : Passed n) (h : (n : ℤ) ≤ intMax) :
    incr n = .ok ((n + 1 : ℕ) : ℤ) := by
  rw [incr, if_pos (hn.lt_intMax h), Nat.cast_succ]

theorem ceilSqrtInt_natCast (n : ℕ) : ceilSqrtInt n = .ok (ceilSqrt n : ℤ) := by
  simp [ceilSqrtInt]

theorem searchRound_of_passed (hn : Passed n) (h : (n : ℤ) ≤ intMax) :
    searchRound n = .ok (.again (n + 1 : ℕ)) := by
  refine bind_eq_ok.mpr ⟨ceilSqrt n, ceilSqrtInt_natCast n, ?_⟩
  by_cases hone : (1 : ℤ) = n
  · rw [if_pos hone]
    exact bind_eq_ok.mpr ⟨_, hn.incr_eq h, rfl⟩
  · have hflag : trialFlag n = true := hn.resolve_left (by omega)
    rw [if_neg hone, trialDivision_ceilSqrt, hflag]
    exact bind_eq_ok.mpr ⟨_, hn.incr_eq h, rfl⟩

theorem searchRound_of_not_passed (hn : ¬ Passed n) :
    searchRound n = .ok (.leave n) := by
  obtain ⟨hone, hflag⟩ := not_or.mp hn
  refine bind_eq_ok.mpr ⟨ceilSqrt n, ceilSqrtInt_natCast n, ?_⟩
  rw [if_neg (by omega), trialDivision_ceilSqrt, Bool.eq_false_iff.mpr hflag]
  rfl

/-- On `int` values the search goes through the rounds of `findSmallestPrimeFrom`, and no
increment overflows. -/
theorem search_natCast (fuel : ℕ) (h : (n : ℤ) ≤ intMax) :
    search fuel n = .ok ((findSmallestPrimeFrom fuel n).map Nat.cast) := by
  induction fuel generalizing n with
  | zero => rfl
  | succ fuel ih =>
      by_cases hn : Passed n
      · have hle : ((n + 1 : ℕ) : ℤ) ≤ intMax := by
          have := hn.lt_intMax h
          omega
        rw [search, searchRound_of_passed hn h, findSmallestPrimeFrom_of_passed hn]
        exact ih hle
      · rw [search, searchRound_of_not_passed hn, findSmallestPrimeFrom_of_not_passed hn]
        rfl

end Rounds

section Stops

variable {n p : ℕ}

/-- The odd numbers from three on that are at least `n`. -/
def oddsFrom (n : ℕ) : Set ℕ := {m | 3 ≤ m ∧ Odd m ∧ n ≤ m}

/-- The primes that are at least `n`. -/
def primesFrom (n : ℕ) : Set ℕ := {q | q.Prime ∧ n ≤ q}

theorem mem_oddsFrom {m : ℕ} : m ∈ oddsFrom n ↔ 3 ≤ m ∧ m % 2 = 1 ∧ n ≤ m := by
  rw [← Nat.odd_iff]
  rfl

theorem passed_iff (hn : 1 ≤ n) : Passed n ↔ n ∉ oddsFrom n := by
  simp only [Passed, trialFlag_iff, mem_oddsFrom]
  omega

theorem oddsFrom_succ (h : n ∉ oddsFrom n) : oddsFrom (n + 1) = oddsFrom n := by
  ext m
  constructor
  · rintro ⟨h3, hodd, hle⟩
    exact ⟨h3, hodd, by omega⟩
  · rintro ⟨h3, hodd, hle⟩
    have hne : n ≠ m := by
      rintro rfl
      exact h ⟨h3, hodd, le_rfl⟩
    exact ⟨h3, hodd, by omega⟩

/-- Wherever the search stops, that is the least odd number from three on. -/
theorem isLeast_of_findSmallestPrimeFrom {fuel : ℕ} (hn : 1 ≤ n)
    (h : findSmallestPrimeFrom fuel n = some p) : IsLeast (oddsFrom n) p := by
  induction fuel generalizing n with
  | zero => simp [findSmallestPrimeFrom] at h
  | succ fuel ih =>
      by_cases hpass : Passed n
      · rw [findSmallestPrimeFrom_of_passed hpass] at h
        rw [← oddsFrom_succ ((passed_iff hn).mp hpass)]
        exact ih (by omega) h
      · rw [findSmallestPrimeFrom_of_not_passed hpass] at h
        obtain rfl : n = p := Option.some.inj h
        have hmem : n ∈ oddsFrom n := by
          by_contra hmem
          exact hpass ((passed_iff hn).mpr hmem)
        exact ⟨hmem, fun m hm => hm.2.2⟩

/-- The search goes on twice at most: from one to two and from two to three. -/
theorem findSmallestPrimeFrom_three (n : ℕ) :
    findSmallestPrimeFrom 3 n = some (findSmallestPrime n) := by
  suffices h : ∃ p, findSmallestPrimeFrom 3 n = some p by
    obtain ⟨p, hp⟩ := h
    rw [findSmallestPrime, hp, Option.getD_some]
  by_cases h0 : Passed n
  · rw [findSmallestPrimeFrom_of_passed h0]
    by_cases h1 : Passed (n + 1)
    · have h2 : ¬ Passed (n + 1 + 1) := by
        simp only [Passed, trialFlag_iff] at h0 h1 ⊢
        omega
      rw [findSmallestPrimeFrom_of_passed h1]
      exact ⟨n + 1 + 1, findSmallestPrimeFrom_of_not_passed h2 0⟩
    · exact ⟨n + 1, findSmallestPrimeFrom_of_not_passed h1 1⟩
  · exact ⟨n, findSmallestPrimeFrom_of_not_passed h0 2⟩

theorem findSmallestPrime_isLeast (hn : 1 ≤ n) : IsLeast (oddsFrom n) (findSmallestPrime n) :=
  isLeast_of_findSmallestPrimeFrom hn (findSmallestPrimeFrom_three n)

theorem eq_of_isLeast_oddsFrom (h : IsLeast (oddsFrom n) p) :
    (n ≤ 2 ∧ p = 3) ∨ (3 ≤ n ∧ n % 2 = 1 ∧ p = n) ∨ (3 ≤ n ∧ n % 2 = 0 ∧ p = n + 1) := by
  obtain ⟨h3, hodd, hle⟩ := mem_oddsFrom.mp h.1
  have hleast : ∀ m, 3 ≤ m → m % 2 = 1 → n ≤ m → p ≤ m := fun m h3 hodd hle =>
    h.2 (mem_oddsFrom.mpr ⟨h3, hodd, hle⟩)
  have hthree := hleast 3 le_rfl rfl
  have hself := hleast n
  have hnext := hleast (n + 1)
  omega

/-- An even number above two is not prime, so of `n` and `n + 1` only the odd one counts. -/
theorem prime_iff_of_isLeast_oddsFrom (hn : 1 ≤ n) (h : IsLeast (oddsFrom n) p) :
    p.Prime ↔ n.Prime ∨ (n + 1).Prime := by
  have heven : ∀ m, 3 ≤ m → m % 2 = 0 → ¬ m.Prime := by
    intro m h3 hm hprime
    have := hprime.odd_of_ne_two (by omega)
    rw [Nat.odd_iff] at this
    omega
  rcases eq_of_isLeast_oddsFrom h with ⟨h2, rfl⟩ | ⟨h3, hodd, rfl⟩ | ⟨h3, hzero, rfl⟩
  · have hsmall : n.Prime ∨ (n + 1).Prime := by
      obtain rfl | rfl : n = 1 ∨ n = 2 := by omega
      · exact .inr Nat.prime_two
      · exact .inl Nat.prime_two
    simp [hsmall, Nat.prime_three]
  · have := heven (p + 1) (by omega) (by omega)
    simp [this]
  · have := heven n h3 hzero
    simp [this]

/-- From three on all primes are odd, and below it two comes first. -/
theorem isLeast_primesFrom_iff (h : IsLeast (oddsFrom n) p) :
    IsLeast (primesFrom n) p ↔ 3 ≤ n ∧ p.Prime := by
  obtain ⟨⟨h3, -, hle⟩, hleast⟩ := h
  constructor
  · rintro ⟨⟨hp, -⟩, hmin⟩
    refine ⟨?_, hp⟩
    by_contra hn
    have : p ≤ 2 := hmin ⟨Nat.prime_two, by omega⟩
    omega
  · rintro ⟨hn, hp⟩
    refine ⟨⟨hp, hle⟩, ?_⟩
    rintro q ⟨hq, hnq⟩
    exact hleast ⟨by omega, hq.odd_of_ne_two (by omega), hnq⟩

end Stops

section Result

variable {n : ℕ}

/-- `find_smallest_prime(n)` returns, and what it returns is the smallest prime that is at
least `n`. -/
def FindsSmallestPrime (n : ℤ) : Prop :=
  ∃ (fuel p : ℕ), search fuel n = .ok (some (p : ℤ)) ∧
    IsLeast {q : ℕ | q.Prime ∧ n ≤ (q : ℤ)} p

/-- The search returns after three rounds at most. -/
theorem search_three (h : (n : ℤ) ≤ intMax) :
    search 3 n = .ok (some (findSmallestPrime n : ℤ)) := by
  rw [search_natCast 3 h, findSmallestPrimeFrom_three]
  rfl

/-- However many rounds it is given, the search returns nothing else. -/
theorem search_isLeast {fuel p : ℕ} (hn : 1 ≤ n) (hmax : (n : ℤ) ≤ intMax)
    (h : search fuel n = .ok (some (p : ℤ))) : IsLeast (oddsFrom n) p := by
  rw [search_natCast fuel hmax, Except.ok.injEq, Option.map_eq_some_iff] at h
  obtain ⟨m, hm, hcast⟩ := h
  obtain rfl : m = p := Nat.cast_injective hcast
  exact isLeast_of_findSmallestPrimeFrom hn hm

theorem findsSmallestPrime_natCast (hn : 1 ≤ n) (hmax : (n : ℤ) ≤ intMax) :
    FindsSmallestPrime n ↔ IsLeast (primesFrom n) (findSmallestPrime n) := by
  have hset : {q : ℕ | q.Prime ∧ (n : ℤ) ≤ (q : ℤ)} = primesFrom n := by
    simp only [Nat.cast_le]
    rfl
  rw [FindsSmallestPrime, hset]
  constructor
  · rintro ⟨fuel, p, hsearch, hleast⟩
    rwa [(search_isLeast hn hmax hsearch).unique (findSmallestPrime_isLeast hn)] at hleast
  · intro hleast
    exact ⟨3, _, search_three hmax, hleast⟩

/-- The trial division tries two only, so the smallest prime is found exactly when it is the
first odd number; for one and two the search runs past the prime two. -/
theorem findsSmallestPrime_iff (n : ℤ) (hn : 1 ≤ n)
    (hfits : ∃ q : ℕ, q.Prime ∧ n ≤ q ∧ (q : ℤ) ≤ intMax) :
    FindsSmallestPrime n ↔ 3 ≤ n ∧ (n.toNat.Prime ∨ (n.toNat + 1).Prime) := by
  obtain ⟨q, -, hnq, hq⟩ := hfits
  obtain ⟨k, rfl⟩ := Int.eq_ofNat_of_zero_le (by omega : 0 ≤ n)
  have hk : 1 ≤ k := by omega
  have hodd := findSmallestPrime_isLeast hk
  rw [findsSmallestPrime_natCast hk (hnq.trans hq), isLeast_primesFrom_iff hodd,
    prime_iff_of_isLeast_oddsFrom hk hodd, Int.toNat_natCast, Nat.ofNat_le_cast]

/-- Four is passed and five is prime. -/
theorem findsSmallestPrime_sample : FindsSmallestPrime 4 :=
  (findsSmallestPrime_iff 4 (by decide) ⟨5, Nat.prime_five, by decide, by decide⟩).mpr
    ⟨by decide, .inr Nat.prime_five⟩

/-- The search stops at nine, the start of the search for a store of seven entries. -/
theorem nine_not_findsSmallestPrime :
    (1 : ℤ) ≤ 9 ∧ (∃ q : ℕ, q.Prime ∧ (9 : ℤ) ≤ q ∧ (q : ℤ) ≤ intMax) ∧
      search 3 9 = .ok (some 9) ∧ ¬ FindsSmallestPrime 9 := by
  have hnine : findSmallestPrime 9 = 9 := by decide
  have hmax : ((9 : ℕ) : ℤ) ≤ intMax := by decide
  have hsearch := search_three hmax
  rw [hnine] at hsearch
  refine ⟨by decide, ⟨11, by decide, by decide, by decide⟩, hsearch, ?_⟩
  intro h
  have hleast := (findsSmallestPrime_natCast (by decide) hmax).mp h
  rw [hnine] at hleast
  exact absurd hleast.1.1 (by decide)

end Result

section Table

variable {κ ρ : Type} (hash : κ → ℕ) {scaled : ℕ}

/-- The size of a table is prime exactly when the scaled length or its successor is. -/
theorem initHashtable_size_prime_iff (h : 1 ≤ scaled) :
    (initHashtable hash scaled : Hashtable κ ρ).size.Prime ↔
      scaled.Prime ∨ (scaled + 1).Prime :=
  prime_iff_of_isLeast_oddsFrom h (findSmallestPrime_isLeast h)

end Table

end DnsRelay.Hash
