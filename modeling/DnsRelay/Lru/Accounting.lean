import DnsRelay.Lru.Labels
import Mathlib.Algebra.GroupWithZero.Nat

/-!
# The accounting of sizes

`pop_back` and `remove_record` subtract the size of the record they release from `used_size`,
and nothing adds to it. So the counter agrees with the sizes of the records as long as no
record has a size, and the first set call that stores something breaks the agreement.
-/

namespace DnsRelay.Lru

open DnsRelay.Lib.Machine Function

variable {c c' : Cache} {l : List ℤ} {s : ℤ} {op : CacheOp}

/-- `used_size` is the sum of the sizes of the records in the list, and covers whatever the
next subtraction can take from it. -/
def Accounted (c : Cache) : Prop :=
  c.usedSize = ((visited c).map c.records.size).sum % 2 ^ 64 ∧
    ∀ s ∈ 0 :: visited c, c.records.size s ≤ c.usedSize

/-- No record has a size. -/
def Weightless (c : Cache) : Prop := c.usedSize = 0 ∧ ∀ s, c.records.size s = 0

theorem Weightless.accounted (h : Weightless c) : Accounted c := by
  refine ⟨?_, fun s _ => by simp [h.2 s]⟩
  have hsum : ((visited c).map c.records.size).sum = 0 := by
    refine List.sum_eq_zero fun x hx => ?_
    obtain ⟨s, -, rfl⟩ := List.mem_map.mp hx
    exact h.2 s
  rw [h.1, hsum]
  rfl

/-- A record with a size is more than an empty counter covers. -/
theorem not_accounted (h : Inv c l) (hused : c.usedSize = 0) (hs : s ∈ l)
    (hsize : 0 < c.records.size s) : ¬ Accounted c := by
  rintro ⟨-, hcover⟩
  have hle := hcover s (by simp [h.visited_eq, hs])
  omega

theorem initCache_weightless {recordLength maxSize : ℤ} {scaled : ℕ} :
    Weightless (initCache recordLength maxSize scaled) :=
  ⟨rfl, fun _ => rfl⟩

/-- Releasing a record without a size subtracts nothing. -/
theorem Weightless.release (h : Weightless c)
    (hsize : c'.records.size = update c.records.size s 0)
    (hused : c'.usedSize = subSize c.usedSize (c.records.size s)) : Weightless c' := by
  refine ⟨?_, fun x => ?_⟩
  · rw [hused, h.1, h.2 s]
    rfl
  · rw [hsize]
    by_cases hx : x = s
    · simp [hx]
    · simp [hx, h.2 x]

theorem Weightless.makeRoom (hinv : Inv c l) (h : Weightless c) (hrun : makeRoom c = .ok c') :
    ∃ l', Inv c' l' ∧ Weightless c' := by
  obtain ⟨k, h', hw⟩ := makeRoom_rule (P := fun c _ => Weightless c)
    (fun _ _ _ _ _ hw hpop _ => hw.release hpop.size hpop.used) hinv h hrun
  exact ⟨_, h', hw⟩

/-- A set call gives its own record the size of what it stores, and adds it nowhere. -/
theorem Weightless.set {r : CacheResult} (hinv : Inv c l) (h : Weightless c)
    (hop : op.isSet = true) (hexec : op.exec c = .ok (c', r)) :
    ∃ s l', Inv c' (s :: l') ∧ c'.usedSize = 0 ∧ c'.records.size s = op.storedSize ∧
      ∀ x, x ≠ s → c'.records.size x = 0 := by
  obtain ⟨c₀, c₁, s, hroom, hplace, -, rfl⟩ := exec_set_sized hop hinv.isInit hexec
  obtain ⟨l₀, h₀, hw₀⟩ := h.makeRoom hinv hroom
  have hplaced : (∃ l', Inv c₁ (s :: l')) ∧ Weightless c₁ := by
    rcases placeFront_cases h₀ hplace with ⟨-, n, p, e, rfl, h₁⟩ | ⟨-, -, hins, h₁⟩
    · exact ⟨⟨_, h₁⟩, hw₀⟩
    · refine ⟨⟨_, h₁⟩, hins.limits.2.2.trans hw₀.1, fun x => ?_⟩
      rw [hins.size]
      by_cases hx : x = s
      · simp [hx]
      · simp [hx, hw₀.2 x]
  obtain ⟨⟨l', h₁⟩, hw₁⟩ := hplaced
  refine ⟨s, l', h₁.withRecord _ _, hw₁.1, ?_, fun x hx => ?_⟩
  · simp [withRecord]
  · simp [withRecord, hx, hw₁.2 x]

/-- A call that stores nothing leaves the records without sizes. -/
theorem Weightless.exec {r : CacheResult} (hinv : Inv c l) (h : Weightless c)
    (hst : op.stored = []) (hexec : op.exec c = .ok (c', r)) : Weightless c' := by
  cases exec_outcome hinv hexec with
  | stored c₀ c₁ s hset hroom hplace heq =>
      obtain ⟨s, l', -, hused, hsize, hother⟩ := h.set hinv hset hexec
      refine ⟨hused, fun x => ?_⟩
      by_cases hx : x = s
      · have hzero : ¬ 0 < op.storedSize := fun hpos => CacheOp.storedSize_pos.mp hpos hst
        rw [hx, hsize]
        omega
      · exact hother x hx
  | missed heq =>
      subst heq
      exact h
  | removed hget hs hrem h₁ => exact h.release hrem.size hrem.used
  | moved hget hs hd heq h₁ =>
      subst heq
      exact h

theorem Weightless.exec_inv {r : CacheResult} (h : (∃ l, Inv c l) ∧ Weightless c)
    (hst : op.stored = []) (hexec : op.exec c = .ok (c', r)) :
    (∃ l, Inv c' l) ∧ Weightless c' := by
  obtain ⟨⟨l, hinv⟩, hw⟩ := h
  exact ⟨(Lru.exec_inv hinv hexec).2, hw.exec hinv hst hexec⟩

/-- The first call that stores something leaves its size uncounted. -/
theorem Weightless.stored_nil {ops : List CacheOp} {results : List CacheResult}
    (h : (∃ l, Inv c l) ∧ Weightless c) (hrun : runOps c ops = .ok (c', results))
    (hacc : ∀ k c₁ rs, runOps c (ops.take k) = .ok (c₁, rs) → Accounted c₁) :
    ∀ op ∈ ops, op.stored = [] := by
  induction ops generalizing c results with
  | nil => simp
  | cons op ops ih =>
      obtain ⟨c₁, r, results', hexec, hrest, -⟩ := run_cons_eq_ok.mp hrun
      have hop : op.stored = [] := by
        by_contra hst
        obtain ⟨⟨l, hinv⟩, hw⟩ := h
        have hset : op.isSet = true := by
          cases op with
          | get label now => exact absurd rfl hst
          | set label data now => rfl
          | setMulti label data now => rfl
        obtain ⟨s, l', h₁, hused, hsize, -⟩ := hw.set hinv hset hexec
        refine not_accounted h₁ hused (s := s) (by simp) ?_ (hacc 1 c₁ [r] ?_)
        · rw [hsize]
          exact CacheOp.storedSize_pos.mpr hst
        · exact run_cons_eq_ok.mpr ⟨c₁, r, [], hexec, rfl, rfl⟩
      have hrec := ih (Weightless.exec_inv h hop hexec) hrest fun k c₂ rs hk =>
        hacc (k + 1) c₂ (r :: rs) (run_cons_eq_ok.mpr ⟨c₁, r, rs, hexec, hk, rfl⟩)
      intro op' hmem
      rcases List.mem_cons.mp hmem with rfl | hmem
      · exact hop
      · exact hrec op' hmem

/-- The counter is right in every state of a run exactly when no call of the run stores
anything. -/
theorem accounted_iff (recordLength maxSize : ℤ) (scaled : ℕ) (ops : List CacheOp)
    (results : List CacheResult) (c : Cache)
    (hrun : runOps (initCache recordLength maxSize scaled) ops = .ok (c, results)) :
    (∀ k c₁ rs, runOps (initCache recordLength maxSize scaled) (ops.take k) = .ok (c₁, rs) →
      Accounted c₁) ↔ ∀ op ∈ ops, op.stored = [] := by
  have hinit : (∃ l, Inv (initCache recordLength maxSize scaled) l) ∧
      Weightless (initCache recordLength maxSize scaled) :=
    ⟨⟨[], initCache_inv_any⟩, initCache_weightless⟩
  constructor
  · exact Weightless.stored_nil hinit hrun
  · intro hst k c₁ rs hk
    refine (run_invariant (fun c => (∃ l, Inv c l) ∧ Weightless c) ?_ hinit hk).2.accounted
    intro op hmem c c' r h hexec
    exact Weightless.exec_inv h (hst op (List.mem_of_mem_take hmem)) hexec

/-- Two records are stored without being counted, and removing the first one wraps the
counter around. -/
theorem not_accounted_sample :
    (∃ c results, runOps (initCache 4 2000 5) [.set [97] ⟨[97], blankIP, 5⟩ 1] =
        .ok (c, results) ∧ ¬ Accounted c) ∧
    ∃ c results, runOps (initCache 4 2000 5)
        [.set [97] ⟨[97], blankIP, 5⟩ 1, .set [98] ⟨[98], blankIP, 9⟩ 1,
          .get [97] 7] = .ok (c, results) ∧ c.usedSize = 2 ^ 64 - 66 := by
  refine ⟨⟨_, _, rfl, ?_⟩, _, _, rfl, by decide⟩
  rintro ⟨hsum, -⟩
  revert hsum
  decide

/-- A set call that is rejected keeps the counter right. -/
theorem accounted_sample :
    ∃ c results, runOps (initCache 4 2000 5) [.set [97] ⟨[97], blankIP, 1⟩ 8] =
        .ok (c, results) ∧ Accounted c := by
  refine ⟨_, _, rfl, (accounted_iff 4 2000 5 [.set [97] ⟨[97], blankIP, 1⟩ 8] _ _ rfl).mpr
    ?_ 1 _ _ rfl⟩
  simp [CacheOp.stored]

end DnsRelay.Lru
