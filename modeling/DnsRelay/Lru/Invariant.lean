import DnsRelay.Lru.Steps

/-!
# The list and slot invariant over whole runs

Making room is a sequence of evictions, so what every eviction preserves is carried
through `pop_back` and the size loop by one rule. The two set operations differ only in
the chain of answers they store, which is all that the rest of the development needs to
know about them.
-/

namespace DnsRelay.Lru

open DnsRelay.Hash DnsRelay.Lib.LinkedList DnsRelay.Lib.Machine Function

variable {c c' : Cache} {l : List ℤ} {s t : ℤ} {label : Label} {now : ℤ}

section MakeRoom

variable {P : Cache → List ℤ → Prop}

/-- What every eviction preserves, `pop_back` preserves; it removes the last slots. -/
theorem popBackLoop_rule
    (hstep : ∀ c c' l t, Inv c (l ++ [t]) → P c (l ++ [t]) → Popped c c' t → Inv c' l → P c' l)
    {n : ℕ} (h : Inv c l) (hp : P c l) (hrun : popBackLoop n c = .ok c') :
    Inv c' (l.take (l.length - n)) ∧ P c' (l.take (l.length - n)) := by
  induction n generalizing c l with
  | zero =>
      cases hrun
      simpa using ⟨h, hp⟩
  | succ n ih =>
      obtain ⟨c₁, hs, hrun⟩ := bind_eq_ok.mp hrun
      rcases l.eq_nil_or_concat' with rfl | ⟨l, t, rfl⟩
      · cases (popBackStep_nil h).symm.trans hs
        simpa using ih h hp hrun
      · obtain ⟨he, h₁⟩ := popBackStep_ok h hs
        have hlen : (l ++ [t]).length - (n + 1) = l.length - n := by simp
        rw [hlen, List.take_append_of_le_length (Nat.sub_le _ _)]
        exact ih h₁ (hstep c c₁ l t h hp he h₁) hrun

theorem popBack_rule
    (hstep : ∀ c c' l t, Inv c (l ++ [t]) → P c (l ++ [t]) → Popped c c' t → Inv c' l → P c' l)
    (h : Inv c l) (hp : P c l) (hrun : popBack c = .ok c') :
    Inv c' (l.take (l.length - lruPopItem)) ∧ P c' (l.take (l.length - lruPopItem)) :=
  popBackLoop_rule hstep h hp hrun

theorem sizeLoop_rule
    (hstep : ∀ c c' l t, Inv c (l ++ [t]) → P c (l ++ [t]) → Popped c c' t → Inv c' l → P c' l)
    {n : ℕ} (h : Inv c l) (hp : P c l) (hrun : sizeLoop n c = .ok c') :
    ∃ k, Inv c' (l.take k) ∧ P c' (l.take k) := by
  induction n generalizing c l with
  | zero => cases hrun
  | succ n ih =>
      simp only [sizeLoop] at hrun
      split at hrun
      · obtain ⟨c₁, hs, hrun⟩ := bind_eq_ok.mp hrun
        obtain ⟨h₁, hp₁⟩ := popBack_rule hstep h hp hs
        obtain ⟨k, h₂, hp₂⟩ := ih h₁ hp₁ hrun
        rw [List.take_take] at h₂ hp₂
        exact ⟨_, h₂, hp₂⟩
      · cases hrun
        exact ⟨l.length, by simpa using ⟨h, hp⟩⟩

/-- Making room keeps a front part of the list and what every eviction preserves. -/
theorem makeRoom_rule
    (hstep : ∀ c c' l t, Inv c (l ++ [t]) → P c (l ++ [t]) → Popped c c' t → Inv c' l → P c' l)
    (h : Inv c l) (hp : P c l) (hrun : makeRoom c = .ok c') :
    ∃ k, Inv c' (l.take k) ∧ P c' (l.take k) := by
  unfold makeRoom at hrun
  obtain ⟨c₁, hs, hrun⟩ := bind_eq_ok.mp hrun
  split at hs
  · obtain ⟨h₁, hp₁⟩ := popBack_rule hstep h hp hs
    obtain ⟨k, h₂, hp₂⟩ := sizeLoop_rule hstep h₁ hp₁ hrun
    rw [List.take_take] at h₂ hp₂
    exact ⟨_, h₂, hp₂⟩
  · cases hs
    exact sizeLoop_rule hstep h hp hrun

end MakeRoom

section Store

/-- The cache with other data and another size in one record. -/
def withRecord (c : Cache) (s : ℤ) (x : DataPtr) (z : ℕ) : Cache :=
  { c with
    records.data := update c.records.data s x
    records.size := update c.records.size s z }

theorem Inv.withRecord (h : Inv c l) (x : DataPtr) (z : ℕ) : Inv (withRecord c s x z) l :=
  ⟨⟨h.linked, h.first_eq, h.last_eq⟩, h.perm, h.bottom, h.valid_iff, h.length_eq, h.nodes,
    h.heads, h.isInit⟩

theorem withRecord_self : withRecord c s (c.records.data s) (c.records.size s) = c := by
  simp [withRecord]

/-- What a reserved record holds when nothing is stored into it: it has been released if
it had data of some size. -/
def released (c : Cache) (s : ℤ) : DataPtr :=
  if 0 < c.records.size s ∧ (c.records.data s).isLive then .freed else c.records.data s

/-- What a record holds after a chain has been stored into it. -/
def storedPtr (c : Cache) (s : ℤ) : List RecordData → DataPtr
  | [] => released c s
  | first :: next => .live first next

theorem reserve_ok (h : reserve c label = .ok (c', s)) :
    ∃ c₀ c₁ z, makeRoom c = .ok c₀ ∧ placeFront c₀ label = .ok (c₁, s) ∧
      (0 < c₁.records.size s → c₁.records.data s ≠ .freed) ∧
      c' = withRecord c₁ s (released c₁ s) z ∧ z = 0 := by
  obtain ⟨⟨c₁, s'⟩, hpush, h⟩ := bind_eq_ok.mp h
  obtain ⟨c₀, hroom, hplace⟩ := bind_eq_ok.mp hpush
  by_cases hz : 0 < c₁.records.size s'
  · simp only [hz, if_true] at h
    obtain ⟨rs, hrel, h⟩ := bind_eq_ok.mp h
    obtain ⟨hnf, rfl⟩ := release_ok hrel
    cases h
    refine ⟨c₀, c₁, 0, hroom, hplace, fun _ => hnf, ?_, rfl⟩
    simp [withRecord, released, hz]
  · simp only [hz, if_false] at h
    have hz0 : c₁.records.size s' = 0 := by omega
    cases h
    refine ⟨c₀, c', 0, hroom, hplace, fun hc => absurd hc hz, ?_, rfl⟩
    simp only [released, hz, false_and, if_false]
    rw [← hz0, withRecord_self]

/-- The size that a set call leaves in the record. -/
def CacheOp.storedSize : CacheOp → ℕ
  | set _ data now => if data.ttl < now then 0 else sizeofRecordData + (data.label.length + 1)
  | setMulti _ data now => (data.foldl (addMultiStep now) []).length * sizeofRecordData
  | get _ _ => 0

theorem CacheOp.storedSize_pos {op : CacheOp} : 0 < op.storedSize ↔ op.stored ≠ [] := by
  cases op with
  | get label now => simp [CacheOp.storedSize, CacheOp.stored]
  | set label data now =>
      by_cases hx : data.ttl < now
      · simp [CacheOp.storedSize, CacheOp.stored, hx]
      · simp [CacheOp.storedSize, CacheOp.stored, hx]
  | setMulti label data now =>
      simp [CacheOp.storedSize, CacheOp.stored, sizeofRecordData, List.length_pos_iff]

/-- Both set operations: make room, place the record, and store the kept elements. -/
theorem exec_set_sized {op : CacheOp} {r : CacheResult} (hop : op.isSet = true)
    (hi : c.isInit = true) (h : op.exec c = .ok (c', r)) :
    ∃ c₀ c₁ s, makeRoom c = .ok c₀ ∧ placeFront c₀ op.label = .ok (c₁, s) ∧
      (0 < c₁.records.size s → c₁.records.data s ≠ .freed) ∧
      c' = withRecord c₁ s (storedPtr c₁ s op.stored) op.storedSize := by
  cases op with
  | get label now => simp [CacheOp.isSet] at hop
  | set label data now =>
      obtain ⟨⟨c₂, ret⟩, hset, h⟩ := bind_eq_ok.mp h
      cases h
      simp only [setCacheARecord, hi, Bool.true_eq_false, if_false] at hset
      obtain ⟨⟨c₂, s⟩, hres, hset⟩ := bind_eq_ok.mp hset
      obtain ⟨c₀, c₁, z, h₀, h₁, hnf, rfl, rfl⟩ := reserve_ok hres
      obtain ⟨⟨rs, n⟩, hadd, hset⟩ := bind_eq_ok.mp hset
      cases hset
      simp only [addARecord] at hadd
      by_cases hx : data.ttl < now
      · rw [if_pos hx] at hadd
        cases hadd
        exact ⟨c₀, c₁, s, h₀, h₁, hnf, by
          simp [CacheOp.stored, CacheOp.storedSize, hx, storedPtr, withRecord]⟩
      · have hsz : ¬ 0 < (withRecord c₁ s (released c₁ s) 0).records.size s := by
          simp [withRecord]
        rw [if_neg hx, if_neg hsz] at hadd
        cases hadd
        exact ⟨c₀, c₁, s, h₀, h₁, hnf, by
          simp [CacheOp.stored, CacheOp.storedSize, hx, storedPtr, withRecord]⟩
  | setMulti label data now =>
      obtain ⟨⟨c₂, ret⟩, hset, h⟩ := bind_eq_ok.mp h
      cases h
      simp only [setCacheAMultiRecord, hi, Bool.true_eq_false, if_false] at hset
      obtain ⟨⟨c₂, s⟩, hres, hset⟩ := bind_eq_ok.mp hset
      obtain ⟨c₀, c₁, z, h₀, h₁, hnf, rfl, rfl⟩ := reserve_ok hres
      cases hset
      cases hk : data.foldl (addMultiStep now) [] with
      | nil =>
          exact ⟨c₀, c₁, s, h₀, h₁, hnf, by
            simp [CacheOp.stored, CacheOp.storedSize, hk, storedPtr, addAMultiRecord, withRecord]⟩
      | cons first next =>
          exact ⟨c₀, c₁, s, h₀, h₁, hnf, by
            simp [CacheOp.stored, CacheOp.storedSize, hk, storedPtr, addAMultiRecord, withRecord]⟩

theorem exec_set_ok {op : CacheOp} {r : CacheResult} (hop : op.isSet = true)
    (hi : c.isInit = true) (h : op.exec c = .ok (c', r)) :
    ∃ c₀ c₁ s z, makeRoom c = .ok c₀ ∧ placeFront c₀ op.label = .ok (c₁, s) ∧
      (0 < c₁.records.size s → c₁.records.data s ≠ .freed) ∧
      c' = withRecord c₁ s (storedPtr c₁ s op.stored) z := by
  obtain ⟨c₀, c₁, s, h₀, h₁, hnf, hc'⟩ := exec_set_sized hop hi h
  exact ⟨c₀, c₁, s, op.storedSize, h₀, h₁, hnf, hc'⟩

end Store

section Lookup

/-- A lookup either misses, or removes an expired record, or moves a record to the front
and returns its data. -/
theorem getCacheARecord_cases (h : Inv c l) {r : Option (List RecordData)}
    (hg : getCacheARecord c label now = .ok (c', r)) :
    (get c label = .ok none ∧ c' = c ∧ r = none) ∨
    (∃ s d ds, get c label = .ok (some s) ∧ s ∈ l ∧ c.records.data s = .live d ds ∧
      expired d now = true ∧ removeRecord c s = .ok c' ∧ r = none) ∨
    (∃ s d ds next last e, get c label = .ok (some s) ∧ s ∈ l ∧
      c.records.data s = .live d ds ∧ expired d now = false ∧
      c' = relink c next last s e ∧ Inv c' (s :: l.erase s) ∧ r = some (d :: ds)) := by
  simp only [getCacheARecord, h.isInit, Bool.true_eq_false, if_false] at hg
  obtain ⟨found, hget, hg⟩ := bind_eq_ok.mp hg
  cases found with
  | none =>
      cases hg
      exact .inl ⟨hget, rfl, rfl⟩
  | some s =>
      obtain ⟨hs, d, ds, -, -, hd, -⟩ := get_some h hget
      have hcheck : checkARecord c.records s now = .ok (expired d now) := by
        simp [checkARecord, hd]
      simp only [hcheck, bind, Except.bind, pure, Except.pure, h.addr_eq hs] at hg
      cases he : expired d now with
      | true =>
          rw [he, if_pos rfl] at hg
          obtain ⟨c₁, hrm, hg⟩ := bind_eq_ok.mp hg
          cases hg
          exact .inr (.inl ⟨s, d, ds, hget, hs, hd, he, hrm, rfl⟩)
      | false =>
          rw [he, if_neg Bool.false_ne_true] at hg
          refine .inr (.inr ?_)
          by_cases hf : s = c.first
          · rw [if_neg (not_not.mpr hf)] at hg
            cases hg
            refine ⟨s, d, ds, c.records.next, c.records.last, c.last, hget, hs, hd, he, ?_, ?_, ?_⟩
            · rw [hf]
              rfl
            · rw [h.cons_erase_first hf hs]
              exact h
            · rw [hd]
              rfl
          · rw [if_pos hf] at hg
            obtain ⟨n, p, e, hmv, hinv⟩ := moveToFront_inv h hs hf
            rw [hmv] at hg
            cases hg
            refine ⟨s, d, ds, n, p, e, hget, hs, hd, he, rfl, hinv, ?_⟩
            change some (c.records.data s).toList = _
            rw [hd]
            rfl

end Lookup

section Outcome

/-- What a call that returns can have done to a cache with the used slots `l`: a set call has
stored its elements in the record it placed, and a lookup has missed, removed an expired
record, or moved a record to the front. -/
inductive Outcome (c c' : Cache) (l : List ℤ) (op : CacheOp) : Prop
  | stored (c₀ c₁ : Cache) (s : ℤ) (hset : op.isSet = true) (hroom : makeRoom c = .ok c₀)
      (hplace : placeFront c₀ op.label = .ok (c₁, s))
      (heq : c' = withRecord c₁ s (storedPtr c₁ s op.stored) op.storedSize)
  | missed (heq : c' = c)
  | removed {s : ℤ} (hget : get c op.label = .ok (some s)) (hs : s ∈ l)
      (hrem : Removed c c' l s) (hinv : Inv c' (l.erase s))
  | moved {s e : ℤ} {d : RecordData} {ds : List RecordData} {next last : ℤ → ℤ}
      (hget : get c op.label = .ok (some s)) (hs : s ∈ l)
      (hd : c.records.data s = .live d ds) (heq : c' = relink c next last s e)
      (hinv : Inv c' (s :: l.erase s))

theorem exec_outcome {op : CacheOp} {r : CacheResult} (h : Inv c l)
    (hexec : op.exec c = .ok (c', r)) : Outcome c c' l op := by
  cases hset : op.isSet with
  | true =>
      obtain ⟨c₀, c₁, s, hroom, hplace, -, heq⟩ := exec_set_sized hset h.isInit hexec
      exact .stored c₀ c₁ s hset hroom hplace heq
  | false =>
      cases op with
      | set label data now => cases hset
      | setMulti label data now => cases hset
      | get label now =>
          obtain ⟨⟨c₁, found⟩, hg, hexec⟩ := bind_eq_ok.mp hexec
          cases hexec
          rcases getCacheARecord_cases h hg with ⟨-, heq, -⟩ |
            ⟨s, d, ds, hget, hs, -, -, hrm, -⟩ | ⟨s, d, ds, n, p, e, hget, hs, hd, -, heq, h₁, -⟩
          · exact .missed heq
          · obtain ⟨hrem, h₁⟩ := removeRecord_ok h hs hrm
            exact .removed hget hs hrem h₁
          · exact .moved hget hs hd heq h₁

end Outcome

section Runs

/-- The limits set by `init_cache`. -/
def SameLimits (c c' : Cache) : Prop := c'.maxLength = c.maxLength ∧ c'.maxSize = c.maxSize

theorem SameLimits.trans {c₁ : Cache} (h : SameLimits c c₁) (h' : SameLimits c₁ c') :
    SameLimits c c' :=
  ⟨h'.1.trans h.1, h'.2.trans h.2⟩

/-- Every call that returns keeps the limits, and the invariant for some list of slots. -/
theorem exec_inv {op : CacheOp} {r : CacheResult} (h : Inv c l) (hop : op.exec c = .ok (c', r)) :
    SameLimits c c' ∧ ∃ l', Inv c' l' := by
  cases exec_outcome h hop with
  | stored c₀ c₁ s hset hroom hplace heq =>
      subst heq
      obtain ⟨k, h₀, hlim⟩ := makeRoom_rule (P := fun c₀ _ => SameLimits c c₀)
        (fun _ _ _ _ _ hp he _ => hp.trans he.limits) h ⟨rfl, rfl⟩ hroom
      rcases placeFront_cases h₀ hplace with ⟨-, n, p, e, rfl, h₁⟩ | ⟨-, -, hins, h₁⟩
      · exact ⟨hlim, _, h₁.withRecord _ _⟩
      · exact ⟨hlim.trans ⟨hins.limits.1, hins.limits.2.1⟩, _, h₁.withRecord _ _⟩
  | missed heq =>
      subst heq
      exact ⟨⟨rfl, rfl⟩, l, h⟩
  | removed hget hs hrem h₁ => exact ⟨hrem.limits, _, h₁⟩
  | moved hget hs hd heq h₁ =>
      subst heq
      exact ⟨⟨rfl, rfl⟩, _, h₁⟩

/-- A record length that is not positive stands for the default. -/
theorem initCache_default {recordLength maxSize : ℤ} {scaled : ℕ} (h : recordLength ≤ 0) :
    initCache recordLength maxSize scaled = initCache lruBufferLength maxSize scaled := by
  simp [initCache, h, lruBufferLength]

theorem initCache_maxLength {recordLength maxSize : ℤ} {scaled : ℕ} (hn : 1 ≤ recordLength) :
    (initCache recordLength maxSize scaled).maxLength = recordLength.toNat := by
  simp [initCache, not_le.mpr (show 0 < recordLength by omega)]

theorem initCache_inv {recordLength maxSize : ℤ} {scaled : ℕ} (hn : 1 ≤ recordLength) :
    Inv (initCache recordLength maxSize scaled) [] := by
  have hpos : ¬ recordLength ≤ 0 := by omega
  have hmax : (initCache recordLength maxSize scaled).maxLength = recordLength.toNat :=
    initCache_maxLength hn
  have htop : recordLength.toNat - 1 + 1 = recordLength.toNat := by omega
  have hstack : stackSlots (initCache recordLength maxSize scaled) =
      (List.range recordLength.toNat).map fun (i : ℕ) => recordLength - (i : ℤ) := by
    simp only [stackSlots, initCache, hpos, if_false, htop]
    refine List.map_congr_left fun i hi => if_pos (List.mem_range.mp hi)
  refine ⟨⟨?_, by simp, by simp⟩, ?_, ?_, ?_, rfl, ?_, fun b => rfl, rfl⟩
  · simp [initCache]
  · rw [hmax, hstack, List.append_nil, List.perm_ext_iff_of_nodup _ (slots_nodup _)]
    · intro x
      simp only [mem_slots, List.mem_map, List.mem_range]
      constructor
      · rintro ⟨i, hi, rfl⟩
        omega
      · rintro ⟨h₁, h₂⟩
        exact ⟨(recordLength - x).toNat, by omega, by omega⟩
    · refine List.nodup_range.map fun i j h => ?_
      omega
  · rw [hmax]
    simp [initCache, hpos]
    omega
  · intro x h₁ h₂
    simp [initCache, h₁.ne']
  · intro b r hr
    simp [initCache, initHashtable, Hashtable.chain] at hr

theorem initCache_inv_any {recordLength maxSize : ℤ} {scaled : ℕ} :
    Inv (initCache recordLength maxSize scaled) [] := by
  by_cases hpos : recordLength ≤ 0
  · rw [initCache_default hpos]
    exact initCache_inv (by decide)
  · exact initCache_inv (by omega)

/-- Every state that a sequence of returning calls leads to from `init_cache`. -/
theorem runOps_inv {recordLength maxSize : ℤ} {scaled : ℕ} {ops : List CacheOp}
    {results : List CacheResult} (hn : 1 ≤ recordLength)
    (h : runOps (initCache recordLength maxSize scaled) ops = .ok (c, results)) :
    SameLimits (initCache recordLength maxSize scaled) c ∧ ∃ l, Inv c l := by
  refine run_invariant
    (fun c => SameLimits (initCache recordLength maxSize scaled) c ∧ ∃ l, Inv c l) ?_
    ⟨⟨rfl, rfl⟩, [], initCache_inv hn⟩ h
  rintro op - c₁ c₂ r ⟨hlim, l, hl⟩ hop
  obtain ⟨hlim', hl'⟩ := exec_inv hl hop
  exact ⟨hlim.trans hlim', hl'⟩

/-- The slots visited by following `next` from the head node. -/
def visited (c : Cache) : List ℤ := List.iterate c.records.next (c.records.next 0) c.length

theorem Inv.visited_eq (h : Inv c l) : visited c = l := by
  rw [visited, h.length_eq]
  exact h.linked.iterate_next

/-- The list read through the links and the free stack share out the slots. -/
structure ListInvariant (c : Cache) : Prop where
  visited_length : (visited c).length = c.length
  visited_nodup : (visited c).Nodup
  visited_valid : ∀ s ∈ visited c, c.records.valid s = true
  next_end : c.records.next (endOf (visited c)) = -1
  prev_walk : List.iterate c.records.last (endOf (visited c)) (c.length + 1) =
    (visited c).reverse ++ [0]
  ends : 1 ≤ c.length →
    (visited c).head? = some c.first ∧ (visited c).getLast? = some c.last
  partition : (stackSlots c ++ visited c).Perm (slots c.maxLength)
  stackTop_add : (c.stackTop : ℤ) + c.length = c.maxLength - 1
  bottom : c.stack 0 = c.maxLength

theorem Inv.listInvariant (h : Inv c l) : ListInvariant c := by
  have hv := h.visited_eq
  have htop := h.stackTop_add
  have hlen := h.length_eq
  refine ⟨?_, ?_, ?_, ?_, ?_, ?_, ?_, ?_, h.bottom⟩
  · rw [hv, hlen]
  · rw [hv]
    exact h.used_nodup
  · rw [hv]
    exact fun s hs => h.valid_of_mem hs
  · rw [hv]
    exact h.linked.next_last
  · rw [hv, hlen]
    exact Linked.iterate_prev (b := []) (by simpa using h.linked)
  · intro hpos
    rw [hv]
    rcases l.eq_nil_or_concat' with rfl | ⟨a, t, rfl⟩
    · rw [hlen] at hpos
      simp at hpos
    · have hlast : c.last = t := h.last_eq t (by simp)
      refine ⟨?_, by simp [hlast]⟩
      obtain ⟨f, hf⟩ : ∃ f, (a ++ [t]).head? = some f := by
        cases a <;> simp
      rw [hf, h.first_eq f hf]
  · rw [hv]
    exact h.perm
  · omega

/-- However the calls went, as long as they returned. -/
theorem runOps_listInvariant (recordLength maxSize : ℤ) (scaled : ℕ) (hn : 1 ≤ recordLength)
    (ops : List CacheOp) (results : List CacheResult) (c : Cache)
    (h : runOps (initCache recordLength maxSize scaled) ops = .ok (c, results)) :
    ListInvariant c ∧ (c.maxLength : ℤ) = recordLength := by
  obtain ⟨hlim, l, hl⟩ := runOps_inv hn h
  have hmax : c.maxLength = recordLength.toNat := hlim.1.trans (initCache_maxLength hn)
  exact ⟨hl.listInvariant, by omega⟩

private def sampleIP : IP := ⟨Vector.replicate 16 0, 1⟩

/-- Two inserts, a hit that moves the older label to the front, and an expired hit. -/
theorem runOps_listInvariant_sample :
    ∃ c results, runOps (initCache 4 2000 5)
        [.set [97] ⟨[97], sampleIP, 9⟩ 1, .set [98] ⟨[98], sampleIP, 5⟩ 1, .get [97] 2,
          .get [98] 7] = .ok (c, results) ∧
      ListInvariant c ∧ (c.maxLength : ℤ) = 4 := by
  obtain ⟨⟨c, results⟩, h⟩ := exists_ok_of_stopOf (x := runOps (initCache 4 2000 5)
    [.set [97] ⟨[97], sampleIP, 9⟩ 1, .set [98] ⟨[98], sampleIP, 5⟩ 1, .get [97] 2,
      .get [98] 7]) (by decide)
  exact ⟨c, results, h, runOps_listInvariant 4 2000 5 (by decide) _ _ c h⟩

end Runs

end DnsRelay.Lru
