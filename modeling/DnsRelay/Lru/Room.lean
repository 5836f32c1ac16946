import DnsRelay.Lru.Eviction

/-!
# Room for one more record

`push_front` takes a slot from the free stack after it has evicted records by number and by
size. The three off-by-one choices of the stack cancel from a capacity of two on. The size
loop ends when `used_size` is zero or the tail cannot be evicted, and these are the only two
cases, since every eviction that returns is of a record without a size.
-/

namespace DnsRelay.Lru

open DnsRelay.Hash DnsRelay.Lib.LinkedList DnsRelay.Lib.Machine Function

variable {c c' : Cache} {l : List ℤ} {s t x : ℤ} {label : Label} {now : ℤ} {op : CacheOp}

section Stops

variable {e : Stop} {rs : Records} {n : ℕ}

/-- The stops that `push_front` brings in itself. -/
def outOfRoom : Stop → Bool
  | .hang | .noRemainSpace => true
  | _ => false

theorem compare_ne_error (he : outOfRoom e = true) (r : Option ℤ) :
    compareRecordWithLabel rs r label ≠ .error e := by
  intro h
  unfold compareRecordWithLabel at h
  split at h
  · cases h
    cases he
  · split at h
    · split at h
      · cases h
      · cases h
        cases he
    · cases h
      cases he

theorem label_ne_error (he : outOfRoom e = true) : getCacheARecordLabel rs s ≠ .error e := by
  intro h
  unfold getCacheARecordLabel at h
  split at h
  · cases h
  · cases h
    cases he

theorem realse_ne_error (he : outOfRoom e = true) : realseARecord rs s ≠ .error e := by
  intro h
  unfold realseARecord at h
  split at h
  · cases h
  · cases h
    cases he
  · cases h

theorem dropRecord_ne_error (he : outOfRoom e = true) : dropRecord c s t ≠ .error e := by
  refine bind_ne_error (label_ne_error he) fun label _ => ?_
  refine bind_ne_error (resetHashNode_ne_error (compare_ne_error he)) fun table _ => ?_
  exact bind_ne_error (realse_ne_error he) fun records _ => by nofun

theorem popBackLoop_ne_error (he : outOfRoom e = true) : popBackLoop n c ≠ .error e := by
  induction n generalizing c with
  | zero => nofun
  | succ n ih =>
      refine bind_ne_error ?_ fun c' _ => ih
      unfold popBackStep
      split
      · exact bind_ne_error (dropRecord_ne_error he) fun _ _ => by nofun
      · nofun

theorem sizeLoop_ne_noRemainSpace : sizeLoop n c ≠ .error .noRemainSpace := by
  induction n generalizing c with
  | zero =>
      intro hstop
      cases hstop
  | succ n ih =>
      simp only [sizeLoop]
      split
      · exact bind_ne_error (popBackLoop_ne_error rfl) fun _ _ => ih
      · intro hstop
        cases hstop

theorem makeRoom_ne_noRemainSpace : makeRoom c ≠ .error .noRemainSpace := by
  unfold makeRoom
  refine bind_ne_error ?_ fun c' _ => sizeLoop_ne_noRemainSpace
  split
  · exact popBackLoop_ne_error rfl
  · nofun

theorem get_ne_error (he : outOfRoom e = true) : get c label ≠ .error e := by
  refine bind_ne_error (getHashnode_ne_error (compare_ne_error he) ?_) fun _ _ => by nofun
  rintro rfl
  cases he

theorem getCacheARecord_ne_error (he : outOfRoom e = true) :
    getCacheARecord c label now ≠ .error e := by
  unfold getCacheARecord
  split
  · nofun
  · refine bind_ne_error (get_ne_error he) fun found _ => ?_
    cases found with
    | none => nofun
    | some s =>
        refine bind_ne_error ?_ fun expired _ => ?_
        · intro h
          unfold checkARecord at h
          split at h
          · cases h
          · cases h
            cases he
        · split
          · refine bind_ne_error ?_ fun _ _ => by nofun
            exact bind_ne_error (dropRecord_ne_error he) fun _ _ => by nofun
          · nofun

/-- A set call runs out of slots only where `push_front` places the record. -/
theorem exec_ne_noRemainSpace
    (h : ∀ c₀, makeRoom c = .ok c₀ → placeFront c₀ op.label ≠ .error .noRemainSpace) :
    op.exec c ≠ .error .noRemainSpace := by
  have hreserve : reserve c op.label ≠ .error .noRemainSpace := by
    refine bind_ne_error (bind_ne_error makeRoom_ne_noRemainSpace h) fun p _ => ?_
    obtain ⟨c₁, s⟩ := p
    simp only
    split
    · exact bind_ne_error (realse_ne_error rfl) fun _ _ => by nofun
    · nofun
  cases op with
  | get label now => exact bind_ne_error (getCacheARecord_ne_error rfl) fun _ _ => by nofun
  | setMulti label data now =>
      refine bind_ne_error ?_ fun _ _ => by nofun
      unfold setCacheAMultiRecord
      split
      · nofun
      · exact bind_ne_error hreserve fun _ _ => by nofun
  | set label data now =>
      refine bind_ne_error ?_ fun _ _ => by nofun
      unfold setCacheARecord
      split
      · nofun
      · refine bind_ne_error hreserve fun p _ => bind_ne_error ?_ fun _ _ => by nofun
        unfold addARecord
        split
        · nofun
        · split
          · split <;> nofun
          · nofun

end Stops

section Slots

variable {n : ℕ}

theorem popBack_nil (h : Inv c []) : popBackLoop n c = .ok c := by
  induction n with
  | zero => rfl
  | succ n ih => exact bind_eq_ok.mpr ⟨c, popBackStep_nil h, ih⟩

/-- Nothing is left to evict, so the loop changes nothing. -/
theorem sizeLoop_nil (h : Inv c []) (hsize : (c.usedSize + 1024) % 2 ^ 64 > c.maxSize) :
    sizeLoop n c = .error .hang := by
  induction n with
  | zero => rfl
  | succ n ih =>
      have hpop : popBack c = .ok c := popBack_nil h
      simp only [sizeLoop, if_pos hsize, hpop]
      exact ih

theorem sizeLoop_of_room (hsize : (c.usedSize + 1024) % 2 ^ 64 ≤ c.maxSize) :
    sizeLoop (n + 1) c = .ok c := by
  simp only [sizeLoop, if_neg (not_lt.mpr hsize)]

/-- On an empty list making room comes down to the test of the size loop. -/
theorem makeRoom_nil (h : Inv c []) :
    makeRoom c = if (c.usedSize + 1024) % 2 ^ 64 > c.maxSize then .error .hang else .ok c := by
  have hpop : (if isFull c then popBack c else .ok c) = .ok c := by
    split
    · exact popBack_nil h
    · rfl
  simp only [makeRoom, hpop, bind, Except.bind]
  split
  · next hsize => rw [sizeLoop_nil h hsize]
  · next hsize => rw [sizeLoop_of_room (not_lt.mp hsize)]

/-- From a capacity of two on, an eviction by number frees a slot above the bottom entry. -/
theorem makeRoom_stackTop (h : Inv c l) (hmax : 2 ≤ c.maxLength) (hrun : makeRoom c = .ok c') :
    ∃ l', Inv c' l' ∧ 0 < c'.stackTop := by
  have htop := h.stackTop_add
  obtain ⟨c₁, hp, hrun⟩ := bind_eq_ok.mp hrun
  have hfirst : ∃ l₁, Inv c₁ l₁ ∧ 0 < c₁.stackTop := by
    split at hp
    · obtain ⟨h₁, hlim⟩ := popBack_rule (P := fun c₀ _ => SameLimits c c₀)
        (fun _ _ _ _ _ hp he _ => hp.trans he.limits) h ⟨rfl, rfl⟩ hp
      have htop₁ := h₁.stackTop_add
      rw [hlim.1, List.length_take, lruPopItem] at htop₁
      exact ⟨_, h₁, by omega⟩
    · next hfull =>
        cases hp
        have hroom : ¬ c.maxLength - 1 ≤ c.length := by simpa [isFull] using hfull
        have hlen := h.length_eq
        exact ⟨l, h, by omega⟩
  obtain ⟨l₁, h₁, hpos⟩ := hfirst
  obtain ⟨k, h', hpos'⟩ := sizeLoop_rule (P := fun c _ => 0 < c.stackTop)
    (fun _ _ _ _ _ _ he _ => by rw [he.stackTop]; omega) h₁ hpos hrun
  exact ⟨_, h', hpos'⟩

/-- A stack that is not down to its bottom entry has a slot to hand out. -/
theorem placeFront_ne_noRemainSpace (h : Inv c l) (htop : 0 < c.stackTop) :
    placeFront c label ≠ .error .noRemainSpace := by
  refine bind_ne_error (setHashnode_ne_error (compare_ne_error rfl) nofun) fun p _ => ?_
  obtain ⟨table, node, isFind⟩ := p
  cases isFind with
  | true =>
      simp only [if_true]
      split
      · nofun
      · split <;> nofun
  | false =>
      have hpos : ¬ c.stack c.stackTop < 0 := not_lt.mpr (stack_top_free h).2.1.le
      simp [cacheStackPop, htop, hpos, pure, Except.pure]

/-- A set call stops where `push_front` stops. -/
theorem exec_set_of_stop {c₀ : Cache} {e : Stop} (hop : op.isSet = true) (hi : c.isInit = true)
    (hroom : makeRoom c = .ok c₀) (hplace : placeFront c₀ op.label = .error e) :
    op.exec c = .error e := by
  have hreserve : reserve c op.label = .error e := by
    simp [reserve, pushFront, hroom, hplace, bind, Except.bind]
  cases op with
  | get label now => cases hop
  | set label data now =>
      have hres : reserve c label = .error e := hreserve
      simp [CacheOp.exec, setCacheARecord, hi, hres, bind, Except.bind]
  | setMulti label data now =>
      have hres : reserve c label = .error e := hreserve
      simp [CacheOp.exec, setCacheAMultiRecord, hi, hres, bind, Except.bind]

/-- While the size loop turns on an empty list, only lookups return, and they find nothing. -/
theorem exec_of_small {r : CacheResult} (h : Inv c [])
    (hsize : (c.usedSize + 1024) % 2 ^ 64 > c.maxSize) (hexec : op.exec c = .ok (c', r)) :
    c' = c := by
  cases exec_outcome h hexec with
  | stored c₀ c₁ s hset hroom hplace heq =>
      rw [makeRoom_nil h, if_pos hsize] at hroom
      cases hroom
  | missed heq => exact heq
  | removed hget hs hrem h₁ => cases hs
  | moved hget hs hd heq h₁ => cases hs

variable {recordLength maxSize : ℤ} {scaled : ℕ}

/-- `init_cache` leaves room for one record unless it is given a small positive size. -/
theorem initCache_room (recordLength maxSize : ℤ) (scaled : ℕ) :
    ((initCache recordLength maxSize scaled).usedSize + 1024) % 2 ^ 64 ≤
      (initCache recordLength maxSize scaled).maxSize ↔ maxSize ≤ 0 ∨ 1024 ≤ maxSize := by
  change (0 + 1024) % 2 ^ 64 ≤ (if maxSize ≤ 0 then cacheSize else maxSize).toNat ↔ _
  by_cases hmax : maxSize ≤ 0
  · simp [hmax, cacheSize]
  · simp only [hmax, if_false, false_or]
    omega

theorem initCache_maxLength_ge (h : recordLength ≠ 1) :
    2 ≤ (initCache recordLength maxSize scaled).maxLength := by
  change 2 ≤ (if recordLength ≤ 0 then lruBufferLength else recordLength).toNat
  split
  · simp [lruBufferLength]
  · omega

/-- With a capacity of one the free stack starts at its bottom entry. -/
theorem single_slot_exits (hop : op.isSet = true) (hmax : maxSize ≤ 0 ∨ 1024 ≤ maxSize) :
    op.exec (initCache 1 maxSize scaled) = .error .noRemainSpace := by
  have hroom : makeRoom (initCache 1 maxSize scaled) = .ok (initCache 1 maxSize scaled) := by
    have hsize := (initCache_room 1 maxSize scaled).mpr hmax
    rw [makeRoom_nil initCache_inv_any, if_neg (not_lt.mpr hsize)]
  exact exec_set_of_stop hop rfl hroom rfl

end Slots

section Available

variable {recordLength maxSize : ℤ} {scaled : ℕ}

theorem runOps_ne_noRemainSpace (h : recordLength ≠ 1) (ops : List CacheOp) :
    runOps (initCache recordLength maxSize scaled) ops ≠ .error .noRemainSpace := by
  refine run_ne_error (fun c => 2 ≤ c.maxLength ∧ ∃ l, Inv c l) ?_ ?_
    ⟨initCache_maxLength_ge h, [], initCache_inv_any⟩
  · rintro op - c c' r ⟨hmax, l, hl⟩ hexec
    obtain ⟨hlim, hl'⟩ := exec_inv hl hexec
    exact ⟨hlim.1 ▸ hmax, hl'⟩
  · rintro op - c ⟨hmax, l, hl⟩
    refine exec_ne_noRemainSpace fun c₀ hroom => ?_
    obtain ⟨l₀, h₀, htop⟩ := makeRoom_stackTop hl hmax hroom
    exact placeFront_ne_noRemainSpace h₀ htop

theorem runOps_small_ne_noRemainSpace (hmax : ¬ (maxSize ≤ 0 ∨ 1024 ≤ maxSize))
    (ops : List CacheOp) :
    runOps (initCache recordLength maxSize scaled) ops ≠ .error .noRemainSpace := by
  have hsize := not_le.mp (mt (initCache_room recordLength maxSize scaled).mp hmax)
  refine run_ne_error (· = initCache recordLength maxSize scaled) ?_ ?_ rfl
  · rintro op - c c' r rfl hexec
    exact exec_of_small initCache_inv_any hsize hexec
  · rintro op - c rfl
    refine exec_ne_noRemainSpace fun c₀ hroom => ?_
    rw [makeRoom_nil initCache_inv_any, if_pos hsize] at hroom
    cases hroom

/-- `push_front` always finds a slot, except in a cache of one record whose size limit lets
the first set call get that far. -/
theorem slot_available_iff (recordLength maxSize : ℤ) (scaled : ℕ) :
    (∀ ops, runOps (initCache recordLength maxSize scaled) ops ≠ .error .noRemainSpace) ↔
      recordLength ≠ 1 ∨ 0 < maxSize ∧ maxSize < 1024 := by
  constructor
  · intro h
    by_contra hcond
    obtain ⟨hone, hmax⟩ := not_or.mp hcond
    obtain rfl := not_not.mp hone
    have hstop : (CacheOp.setMulti [] [] 0).exec (initCache 1 maxSize scaled) =
        .error .noRemainSpace := single_slot_exits rfl (by omega)
    refine h [.setMulti [] [] 0] ?_
    rw [runOps, run, hstop]
    rfl
  · rintro (hone | hmax) ops
    · exact runOps_ne_noRemainSpace hone ops
    · exact runOps_small_ne_noRemainSpace (by omega) ops

/-- A cache of one record exits at the first set call. -/
theorem slot_not_available :
    stopOf (runOps (initCache 1 429496729 1) [.set [97] ⟨[97], blankIP, 9⟩ 1]) =
      some .noRemainSpace := by
  decide

end Available

section SizeLoop

/-- The size loop of `push_front` on a cache ends: it leaves or stops the program after some
number of rounds. -/
def SizeLoopEnds (c : Cache) : Prop :=
  ∀ c₁, (if isFull c then popBack c else .ok c) = .ok c₁ → ∃ n, sizeLoop n c₁ ≠ .error .hang

/-- As many rounds as there are records, and one more, decide whether the loop ends. -/
theorem sizeLoop_hang {n : ℕ} (h : Inv c l) (hn : l.length < n)
    (hrun : sizeLoop n c = .error .hang) (m : ℕ) : sizeLoop m c = .error .hang := by
  induction n generalizing c l m with
  | zero => omega
  | succ n ih =>
      by_cases hsize : (c.usedSize + 1024) % 2 ^ 64 > c.maxSize
      · cases m with
        | zero => rfl
        | succ m =>
            simp only [sizeLoop, if_pos hsize] at hrun ⊢
            cases hp : popBack c with
            | error e =>
                rw [hp] at hrun
                cases hrun
                exact absurd hp (popBackLoop_ne_error rfl)
            | ok c₁ =>
                rw [hp] at hrun
                obtain ⟨h₁, -⟩ := popBack_rule (P := fun _ _ => True)
                  (fun _ _ _ _ _ _ _ _ => trivial) h trivial hp
                by_cases hnil : l = []
                · subst hnil
                  have hsame : popBack c = .ok c := popBack_nil h
                  rw [hsame] at hp
                  cases hp
                  exact sizeLoop_nil h hsize
                · refine ih h₁ ?_ hrun m
                  have hpos := List.length_pos_iff.mpr hnil
                  rw [List.length_take, lruPopItem]
                  omega
      · rw [sizeLoop_of_room (not_lt.mp hsize)] at hrun
        cases hrun

/-- So the bound on the rounds in `make_room` loses nothing. -/
theorem sizeLoopEnds_iff (h : Inv c l) : SizeLoopEnds c ↔ makeRoom c ≠ .error .hang := by
  unfold SizeLoopEnds makeRoom
  cases hp : (if isFull c then popBack c else .ok c) with
  | error e =>
      simp only [bind, Except.bind]
      refine ⟨fun _ he => ?_, nofun⟩
      cases he
      split at hp
      · exact popBackLoop_ne_error rfl hp
      · cases hp
  | ok c₁ =>
      have h₁ : ∃ l₁, Inv c₁ l₁ := by
        split at hp
        · exact ⟨_, (popBack_rule (P := fun _ _ => True) (fun _ _ _ _ _ _ _ _ => trivial) h
            trivial hp).1⟩
        · cases hp
          exact ⟨l, h⟩
      obtain ⟨l₁, h₁⟩ := h₁
      have hlen : l₁.length < c₁.length + 1 := by
        rw [h₁.length_eq]
        omega
      simp only [bind, Except.bind]
      constructor
      · intro hends hhang
        obtain ⟨n, hn⟩ := hends c₁ rfl
        exact hn (sizeLoop_hang h₁ hlen hhang n)
      · rintro hne c₂ hc₂
        cases hc₂
        exact ⟨c₁.length + 1, hne⟩

section Metered

/-- What is left of the accounting: unless the tail is dead, nothing has been subtracted so
far, and a record with a size is found under its label. -/
structure Metered (c : Cache) (l : List ℤ) : Prop where
  head : c.records.size 0 = 0
  mode : DeadTail c l ∨ (c.usedSize = 0 ∧ ∀ s ∈ l, 0 < c.records.size s → Placed c s)

theorem popBack_short (h : Inv c l) (hlen : l.length ≤ 1) (hrun : popBack c = .ok c') :
    c' = c ∨ ∃ t, l = [t] ∧ Popped c c' t := by
  rcases l.eq_nil_or_concat' with rfl | ⟨a, t, rfl⟩
  · cases (popBack_nil h).symm.trans hrun
    exact .inl rfl
  · have hnil : a = [] := by simpa using hlen
    subst hnil
    obtain ⟨c₁, hs, hrun⟩ := bind_eq_ok.mp hrun
    obtain ⟨hpop, h₁⟩ := popBackStep_ok h hs
    cases (popBack_nil h₁).symm.trans hrun
    exact .inr ⟨t, rfl, hpop⟩

/-- A full cache that can be evicted holds at most one record, unless its capacity is three,
and that record has no size. -/
theorem Metered.popBack (h : Inv c l) (hs : Sound c l) (hm : Metered c l)
    (hfull : isFull c = true) (hmax : c.maxLength ≠ 3) (hrun : popBack c = .ok c') :
    SameLimits c c' ∧ Inv c' [] ∧ Metered c' [] := by
  obtain ⟨h', -⟩ := hs.popBack h hrun
  rcases hs.mode with hd | hc
  · exact absurd hrun (hd.not_pops h)
  rcases hm.mode with hd | ⟨hused, hsized⟩
  · exact absurd hrun (hd.not_pops h)
  have hlen : l.length ≤ 1 := by
    obtain ⟨m, hplaced⟩ := hc.placed
    have htwo : l.length ≤ 2 := popBackLoop_two h hc.unambiguous hplaced hrun
    have hfull' := of_decide_eq_true hfull
    have htop := h.stackTop_add
    rw [h.length_eq] at hfull'
    omega
  rcases popBack_short h hlen hrun with rfl | ⟨t, rfl, hpop⟩
  · exact ⟨⟨rfl, rfl⟩, h', hm.head, .inr ⟨hused, by simp⟩⟩
  · have hzero : c.records.size t = 0 := by
      by_contra hne
      exact hpop.not_placed (l := []) h hc.unambiguous
        (hsized t (by simp) (Nat.pos_of_ne_zero hne))
    refine ⟨hpop.limits, h', ?_, .inr ⟨?_, by simp⟩⟩
    · rw [hpop.size]
      by_cases ht : 0 = t
      · simp [ht]
      · rw [update_of_ne ht]
        exact hm.head
    · rw [hpop.used, hused, hzero]
      rfl

/-- Where nothing has been subtracted the loop is not entered, and on a dead tail its first
round stops the program. -/
theorem Metered.sizeLoop_cases (h : Inv c l) (hm : Metered c l) (hsize : 1024 ≤ c.maxSize)
    (n : ℕ) : sizeLoop (n + 1) c = .ok c ∨ ∃ e, e ≠ .hang ∧ sizeLoop (n + 1) c = .error e := by
  by_cases hroom : (c.usedSize + 1024) % 2 ^ 64 ≤ c.maxSize
  · exact .inl (sizeLoop_of_room hroom)
  · rcases hm.mode with hd | ⟨hused, -⟩
    · simp only [sizeLoop, if_pos (not_le.mp hroom)]
      cases hp : Lru.popBack c with
      | ok c₁ => exact absurd hp (hd.not_pops h)
      | error e =>
          refine .inr ⟨e, ?_, rfl⟩
          rintro rfl
          exact popBackLoop_ne_error rfl hp
    · rw [hused] at hroom
      omega

theorem Metered.evicts {c₁ : Cache} (h : Inv c l) (hs : Sound c l) (hm : Metered c l)
    (hmax : c.maxLength ≠ 3) (hp : (if isFull c then Lru.popBack c else .ok c) = .ok c₁) :
    ∃ l₁, SameLimits c c₁ ∧ Inv c₁ l₁ ∧ Metered c₁ l₁ := by
  split at hp
  · next hfull => exact ⟨[], hm.popBack h hs hfull hmax hp⟩
  · cases hp
    exact ⟨l, ⟨rfl, rfl⟩, h, hm⟩

theorem Metered.makeRoom (h : Inv c l) (hs : Sound c l) (hm : Metered c l)
    (hmax : c.maxLength ≠ 3) (hsize : 1024 ≤ c.maxSize) (hrun : makeRoom c = .ok c') :
    ∃ l', Inv c' l' ∧ Metered c' l' := by
  obtain ⟨c₁, hp, hrun⟩ := bind_eq_ok.mp hrun
  obtain ⟨l₁, hlim, h₁, hm₁⟩ := hm.evicts h hs hmax hp
  rcases hm₁.sizeLoop_cases h₁ (hlim.2 ▸ hsize) c₁.length with hok | ⟨e, -, herr⟩
  · cases hok.symm.trans hrun
    exact ⟨l₁, h₁, hm₁⟩
  · cases herr.symm.trans hrun

theorem Metered.hit {n p : ℤ → ℤ} {e : ℤ} (h : Inv c l) (hm : Metered c l)
    (hlab : op.Labelled) (hget : get c op.label = .ok (some s)) :
    Metered (storeIn (relink c n p s e) s op op.storedSize) (s :: l.erase s) := by
  obtain ⟨hsl, d, ds, front, back, hd, hdl, hchain, -⟩ := get_some h hget
  have hlive : labelAt c s = some op.label := labelAt_eq_some.mpr ⟨d, ds, hd, hdl⟩
  have hlabels : ∀ x label, labelAt (storeIn (relink c n p s e) s op op.storedSize) x =
      some label → labelAt c x = some label :=
    fun x label hl => labelAt_of_hit (c := relink c n p s e) hlab hlive hl
  refine ⟨?_, ?_⟩
  · have hs0 : (0 : ℤ) ≠ s := (h.used_pos hsl).ne
    change update c.records.size s _ 0 = 0
    rw [update_of_ne hs0]
    exact hm.head
  · rcases hm.mode with hd | ⟨hused, hsized⟩
    · exact .inl (hd.reorder hlabels (by simp [hlive]))
    · refine .inr ⟨hused, fun x hx hpos label hl => ?_⟩
      have hlx := hlabels x label hl
      by_cases hxs : x = s
      · subst hxs
        obtain rfl : op.label = label := Option.some.inj (hlive.symm.trans hlx)
        change some x ∈ c.labelHash.chain (c.labelHash.pos op.label)
        simp [hchain]
      · have hxl : x ∈ l := List.mem_of_mem_erase (List.mem_of_ne_of_mem hxs hx)
        change 0 < update c.records.size s _ x at hpos
        rw [update_of_ne hxs] at hpos
        exact hsized x hxl hpos label hlx

theorem Metered.insert (hm : Metered c l) (hlab : op.Labelled)
    (hins : Inserted c c' op.label s) (h' : Inv c' (s :: l)) :
    Metered (storeIn c' s op op.storedSize) (s :: l) := by
  have hne : ∀ x ∈ l, x ≠ s := fun x hx =>
    ne_of_mem_of_not_mem hx (List.nodup_cons.mp h'.used_nodup).1
  have hsize : ∀ x, x ≠ s →
      (storeIn c' s op op.storedSize).records.size x = c.records.size x := by
    intro x hx
    change update c'.records.size s _ x = _
    rw [update_of_ne hx, hins.size, update_of_ne hx]
  refine ⟨?_, ?_⟩
  · rw [hsize 0 (h'.used_pos (List.mem_cons_self ..)).ne]
    exact hm.head
  · rcases hm.mode with hd | ⟨hused, hsized⟩
    · exact .inl (hd.insert hins hne)
    · refine .inr ⟨hins.limits.2.2.trans hused, fun x hx hpos label hl => ?_⟩
      rw [hins.pos_eq]
      rcases List.mem_cons.mp hx with rfl | hxl
      · have hstored : op.stored ≠ [] := by
          refine CacheOp.storedSize_pos.mp ?_
          simpa [storeIn, withRecord] using hpos
        obtain ⟨first, next, hst⟩ := List.exists_cons_of_ne_nil hstored
        obtain rfl : op.label = label := by
          rw [← hlab.stored_label hst]
          simpa [labelAt, storeIn, withRecord, hst, storedPtr] using hl
        exact hins.self_mem_chain
      · rw [hsize x (hne x hxl)] at hpos
        rw [hins.labelAt_other (hne x hxl)] at hl
        exact (hins.mem_chain_iff (hne x hxl)).mpr (hsized x hxl hpos label hl)

/-- A removal that does not leave a dead tail releases the head node, which has no size. -/
theorem Metered.remove (h : Inv c l) (hm : Metered c l) (hget : get c label = .ok (some s))
    (hrem : Removed c c' l s) : Metered c' (l.erase s) := by
  obtain ⟨hsl, d, ds, -, -, hd, -⟩ := get_some h hget
  refine ⟨?_, ?_⟩
  · rw [hrem.size]
    by_cases hend : 0 = endOf (l.erase s)
    · simp [← hend]
    · rw [update_of_ne hend]
      exact hm.head
  · by_cases hnil : l.erase s = []
    · have hzero : c.usedSize = 0 := by
        rcases hm.mode with ⟨t, ht, hdead⟩ | ⟨hused, -⟩
        · have hts : t = s := by
            by_contra hne
            have := (List.mem_erase_of_ne hne).mpr (List.mem_of_getLast? ht)
            simp [hnil] at this
          subst hts
          simp [labelAt, hd] at hdead
        · exact hused
      refine .inr ⟨?_, by simp [hnil]⟩
      have hhead : c.records.size (endOf (l.erase s)) = 0 := by
        rw [hnil]
        exact hm.head
      rw [hrem.used, hzero, hhead]
      rfl
    · exact .inl (hrem.deadTail hnil)

theorem Metered.exec {r : CacheResult} (h : Inv c l) (hs : Sound c l) (hm : Metered c l)
    (hlab : op.Labelled) (hmax : c.maxLength ≠ 3) (hsize : 1024 ≤ c.maxSize)
    (hexec : op.exec c = .ok (c', r)) : ∃ l', Inv c' l' ∧ Metered c' l' := by
  cases exec_outcome h hexec with
  | stored c₀ c₁ s hset hroom hplace heq =>
      subst heq
      obtain ⟨l₀, h₀, hm₀⟩ := hm.makeRoom h hs hmax hsize hroom
      rcases placeFront_cases h₀ hplace with ⟨hget, n, p, e, rfl, h₁⟩ | ⟨-, -, hins, h₁⟩
      · exact ⟨_, h₁.withRecord _ _, hm₀.hit h₀ hlab hget⟩
      · exact ⟨_, h₁.withRecord _ _, hm₀.insert hlab hins h₁⟩
  | missed heq =>
      subst heq
      exact ⟨l, h, hm⟩
  | removed hget hsl hrem h₁ => exact ⟨_, h₁, hm.remove h hget hrem⟩
  | moved hget hsl hd heq h₁ =>
      subst heq
      refine ⟨_, h₁, hm.head, ?_⟩
      rcases hm.mode with hdead | ⟨hused, hsized⟩
      · exact .inl (hdead.reorder (fun _ _ hl => hl) (by simp [labelAt, hd]))
      · exact .inr ⟨hused, fun x hx => hsized x ((List.perm_cons_erase hsl).mem_iff.mpr hx)⟩

end Metered

variable {recordLength maxSize : ℤ} {scaled : ℕ}

theorem initCache_metered : Metered (initCache recordLength maxSize scaled) [] :=
  ⟨rfl, .inr ⟨rfl, by simp⟩⟩

theorem initCache_maxLength_ne (h : recordLength ≠ 3) :
    (initCache recordLength maxSize scaled).maxLength ≠ 3 := by
  change (if recordLength ≤ 0 then lruBufferLength else recordLength).toNat ≠ 3
  split
  · simp [lruBufferLength]
  · omega

theorem runOps_metered {ops : List CacheOp} {results : List CacheResult}
    (hrec : recordLength ≠ 3) (hmax : maxSize ≤ 0 ∨ 1024 ≤ maxSize)
    (hlab : ∀ op ∈ ops, op.Labelled)
    (h : runOps (initCache recordLength maxSize scaled) ops = .ok (c, results)) :
    ∃ l, Inv c l ∧ Sound c l ∧ Metered c l ∧ c.maxLength ≠ 3 ∧ 1024 ≤ c.maxSize := by
  have hroom : 1024 ≤ (initCache recordLength maxSize scaled).maxSize := by
    have hused : (initCache recordLength maxSize scaled).usedSize = 0 := rfl
    have hle := (initCache_room recordLength maxSize scaled).mpr hmax
    rw [hused] at hle
    omega
  refine run_invariant (fun c =>
    ∃ l, Inv c l ∧ Sound c l ∧ Metered c l ∧ c.maxLength ≠ 3 ∧ 1024 ≤ c.maxSize) ?_
    ⟨[], initCache_inv_any, sound_nil fun i _ hlive => absurd rfl hlive, initCache_metered,
      initCache_maxLength_ne hrec, hroom⟩ h
  rintro op hmem c₁ c₂ r ⟨l, hl, hs, hm, hne, hsize⟩ hexec
  obtain ⟨hlim, -⟩ := exec_inv hl hexec
  obtain ⟨l', hl', hs'⟩ := exec_sound hl hs (hlab op hmem) hexec
  obtain ⟨l₂, hl₂, hm₂⟩ := hm.exec hl hs (hlab op hmem) hne hsize hexec
  obtain rfl : l' = l₂ := hl'.visited_eq.symm.trans hl₂.visited_eq
  exact ⟨l', hl', hs', hm₂, hlim.1 ▸ hne, hlim.2 ▸ hsize⟩

theorem Metered.sizeLoopEnds (h : Inv c l) (hs : Sound c l) (hm : Metered c l)
    (hmax : c.maxLength ≠ 3) (hsize : 1024 ≤ c.maxSize) : SizeLoopEnds c := by
  intro c₁ hp
  obtain ⟨l₁, hlim, h₁, hm₁⟩ := hm.evicts h hs hmax hp
  refine ⟨1, ?_⟩
  rcases hm₁.sizeLoop_cases h₁ (hlim.2 ▸ hsize) 0 with hok | ⟨e, hne, herr⟩
  · rw [hok]
    nofun
  · rw [herr]
    exact fun heq => hne (Except.error.inj heq)

/-- Apart from a capacity of three, the size loop ends in every reachable state exactly when
the configured size leaves room for one record in an empty cache. -/
theorem sizeLoop_ends_iff (recordLength maxSize : ℤ) (scaled : ℕ) (hrec : recordLength ≠ 3) :
    (∀ ops results c, (∀ op ∈ ops, op.Labelled) →
      runOps (initCache recordLength maxSize scaled) ops = .ok (c, results) → SizeLoopEnds c) ↔
      maxSize ≤ 0 ∨ 1024 ≤ maxSize := by
  constructor
  · intro h
    by_contra hmax
    have hsize := not_le.mp (mt (initCache_room recordLength maxSize scaled).mp hmax)
    have hends := h [] [] (initCache recordLength maxSize scaled) (by simp) rfl
    refine (sizeLoopEnds_iff initCache_inv_any).mp hends ?_
    rw [makeRoom_nil initCache_inv_any, if_pos hsize]
  · intro hmax ops results c hlab hrun
    obtain ⟨l, hl, hs, hm, hne, hsize⟩ := runOps_metered hrec hmax hlab hrun
    exact hm.sizeLoopEnds hl hs hne hsize

/-- One record in a cache of four leaves the loop able to end. -/
theorem sizeLoop_ends_sample :
    ∃ c results, runOps (initCache 4 2000 5) [.set [97] ⟨[97], blankIP, 9⟩ 1] =
        .ok (c, results) ∧ SizeLoopEnds c := by
  refine ⟨_, _, rfl, (sizeLoop_ends_iff 4 2000 5 (by decide)).mpr (.inr (by decide))
    [.set [97] ⟨[97], blankIP, 9⟩ 1] _ _ ?_ rfl⟩
  simp [CacheOp.Labelled]

theorem not_sizeLoopEnds (h : Inv c l) (hstop : stopOf (makeRoom c) = some .hang) :
    ¬ SizeLoopEnds c := by
  intro hends
  cases hroom : makeRoom c with
  | ok c₁ => simp [hroom] at hstop
  | error e =>
      have he : e = .hang := by simpa [hroom] using hstop
      exact (sizeLoopEnds_iff h).mp hends (he ▸ hroom)

/-- A rejected set call takes the slot of an expired record together with its data, whose
eviction later unlinks the other record of that label. -/
def threeSlotRun : List CacheOp :=
  [.set [97] ⟨[97], blankIP, 5⟩ 1, .get [97] 7, .set [98] ⟨[98], blankIP, 1⟩ 8,
    .setMulti [97] (List.replicate 17 ⟨[97], blankIP, 100⟩) 8]

/-- A size below 1024 is not met by an empty cache, and in a cache of three records the
counter of the size can wrap around. -/
theorem sizeLoop_not_ends :
    ¬ SizeLoopEnds (initCache 4 512 5) ∧
    (∀ op ∈ threeSlotRun, op.Labelled) ∧
    ∃ c results, runOps (initCache 3 2000 4) threeSlotRun = .ok (c, results) ∧
      ¬ SizeLoopEnds c := by
  refine ⟨not_sizeLoopEnds initCache_inv_any (by decide), ?_, ?_⟩
  · simp [threeSlotRun, CacheOp.Labelled]
  obtain ⟨⟨c, results⟩, hrun⟩ := exists_ok_of_stopOf
    (x := runOps (initCache 3 2000 4) threeSlotRun) (by decide)
  obtain ⟨-, l, hl⟩ := runOps_inv (by decide) hrun
  refine ⟨c, results, hrun, not_sizeLoopEnds hl ?_⟩
  have hstop : stopOf (runOps (initCache 3 2000 4) threeSlotRun >>= fun p => makeRoom p.1) =
      some .hang := by
    decide
  rwa [hrun] at hstop

end SizeLoop

end DnsRelay.Lru
