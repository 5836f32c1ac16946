import DnsRelay.Lru.Room

/-!
# How a cache call can stop

No call finds a record in a head node, since none is ever written there. A set call is left
for lack of a slot in a cache of one record only, and there always.
-/

namespace DnsRelay.Lru

open DnsRelay.Hash DnsRelay.Lib.Machine

variable {c c' : Cache} {label : Label} {s t : ℤ} {rs : Records} {op : CacheOp} {l : List ℤ}

section Heads

/-- A stop other than at a head node with a record. -/
def PastHead (e : Stop) : Prop := e ≠ .headRecord

theorem compare_pastHead (rs : Records) (r : Option ℤ) (label : Label) :
    Confined PastHead (compareRecordWithLabel rs r label) := by
  unfold compareRecordWithLabel
  split
  · exact confined_error Stop.noConfusion
  · split
    · split
      · exact confined_ok _
      · exact confined_error Stop.noConfusion
    · exact confined_error Stop.noConfusion

theorem label_pastHead (rs : Records) (s : ℤ) :
    Confined PastHead (getCacheARecordLabel rs s) := by
  unfold getCacheARecordLabel
  split
  · exact confined_ok _
  · exact confined_error Stop.noConfusion

theorem realse_pastHead (rs : Records) (s : ℤ) : Confined PastHead (realseARecord rs s) := by
  unfold realseARecord
  split
  · exact confined_ok _
  · exact confined_error Stop.noConfusion
  · exact confined_ok _

theorem check_pastHead (rs : Records) (s now : ℤ) : Confined PastHead (checkARecord rs s now) := by
  unfold checkARecord
  split
  · exact confined_ok _
  · exact confined_error Stop.noConfusion

theorem add_pastHead (rs : Records) (s : ℤ) (data : RecordData) (now : ℤ) :
    Confined PastHead (addARecord rs s data now) := by
  unfold addARecord
  split
  · exact confined_ok _
  · split
    · split
      · exact confined_ok _
      · exact confined_error Stop.noConfusion
    · exact confined_ok _

theorem dropRecord_pastHead (c : Cache) (s t : ℤ) : Confined PastHead (dropRecord c s t) := by
  refine (label_pastHead c.records s).bind fun label _ => ?_
  refine (resetHashNode_confined fun r => compare_pastHead c.records r label).bind fun _ _ => ?_
  exact (realse_pastHead c.records t).bind fun _ _ => confined_ok _

theorem dropRecord_heads (h : dropRecord c s t = .ok c') (b : ℕ) :
    (c'.labelHash.nodes b).record = (c.labelHash.nodes b).record := by
  obtain ⟨label, -, h⟩ := bind_eq_ok.mp h
  obtain ⟨⟨table, found⟩, hreset, h⟩ := bind_eq_ok.mp h
  obtain ⟨records, -, h⟩ := bind_eq_ok.mp h
  cases h
  exact (resetHashNode_frame hreset).2.1 b

theorem retire_labelHash (c : Cache) (s : ℤ) : (retire c s).labelHash = c.labelHash := by
  unfold retire cacheStackPush
  split <;> rfl

theorem cutTail_labelHash (c : Cache) (s : ℤ) : (cutTail c s).labelHash = c.labelHash := by
  unfold cutTail
  dsimp only
  split
  · rfl
  · split <;> rfl

theorem popBackLoop_pastHead (n : ℕ) (c : Cache) : Confined PastHead (popBackLoop n c) := by
  induction n generalizing c with
  | zero => exact confined_ok _
  | succ n ih =>
      refine Confined.bind ?_ fun c' _ => ih c'
      unfold popBackStep
      split
      · exact (dropRecord_pastHead _ _ _).bind fun _ _ => confined_ok _
      · exact confined_ok _

theorem popBackLoop_heads {n : ℕ} (h : popBackLoop n c = .ok c') (b : ℕ) :
    (c'.labelHash.nodes b).record = (c.labelHash.nodes b).record := by
  induction n generalizing c with
  | zero =>
      cases h
      rfl
  | succ n ih =>
      obtain ⟨c₁, hstep, h⟩ := bind_eq_ok.mp h
      rw [ih h]
      unfold popBackStep at hstep
      split at hstep
      · obtain ⟨c₂, hdrop, hstep⟩ := bind_eq_ok.mp hstep
        cases hstep
        rw [cutTail_labelHash, dropRecord_heads hdrop, retire_labelHash]
      · cases hstep
        rfl

theorem sizeLoop_pastHead (n : ℕ) (c : Cache) : Confined PastHead (sizeLoop n c) := by
  induction n generalizing c with
  | zero => exact confined_error Stop.noConfusion
  | succ n ih =>
      unfold sizeLoop
      split
      · exact (popBackLoop_pastHead _ c).bind fun c' _ => ih c'
      · exact confined_ok _

theorem sizeLoop_heads {n : ℕ} (h : sizeLoop n c = .ok c') (b : ℕ) :
    (c'.labelHash.nodes b).record = (c.labelHash.nodes b).record := by
  induction n generalizing c with
  | zero => cases h
  | succ n ih =>
      unfold sizeLoop at h
      split at h
      · obtain ⟨c₁, hpop, h⟩ := bind_eq_ok.mp h
        rw [ih h, popBackLoop_heads hpop]
      · cases h
        rfl

theorem makeRoom_pastHead (c : Cache) : Confined PastHead (makeRoom c) := by
  refine Confined.bind ?_ fun c' _ => sizeLoop_pastHead _ c'
  split
  · exact popBackLoop_pastHead _ c
  · exact confined_ok _

theorem makeRoom_heads (h : makeRoom c = .ok c') (b : ℕ) :
    (c'.labelHash.nodes b).record = (c.labelHash.nodes b).record := by
  obtain ⟨c₁, hpop, h⟩ := bind_eq_ok.mp h
  rw [sizeLoop_heads h]
  split at hpop
  · exact popBackLoop_heads hpop b
  · cases hpop
    rfl

theorem placeFront_pastHead (hhead : ∀ b, (c.labelHash.nodes b).record = none) (label : Label) :
    Confined PastHead (placeFront c label) := by
  refine (setHashnode_confined (fun r => compare_pastHead c.records r label) hhead).bind
    fun p _ => ?_
  obtain ⟨table, node, isFind⟩ := p
  cases isFind with
  | true =>
      simp only [if_true]
      split
      · exact confined_error Stop.noConfusion
      · split <;> exact confined_ok _
  | false =>
      simp only [Bool.false_eq_true, if_false]
      split
      · exact confined_error Stop.noConfusion
      · exact confined_ok _

theorem reserve_pastHead (hhead : ∀ b, (c.labelHash.nodes b).record = none) (label : Label) :
    Confined PastHead (reserve c label) := by
  have hpush : Confined PastHead (pushFront c label) := by
    refine (makeRoom_pastHead c).bind fun c₀ hroom => placeFront_pastHead (fun b => ?_) label
    rw [makeRoom_heads hroom]
    exact hhead b
  refine hpush.bind fun p _ => ?_
  obtain ⟨c₁, slot⟩ := p
  dsimp only
  split
  · exact (realse_pastHead _ _).bind fun _ _ => confined_ok _
  · exact confined_ok _

/-- A call on a cache in order meets no record in a head node. -/
theorem exec_pastHead (h : Inv c l) (op : CacheOp) : Confined PastHead (op.exec c) := by
  cases op with
  | get label now =>
      refine Confined.bind ?_ fun _ _ => confined_ok _
      unfold getCacheARecord
      split
      · exact confined_ok _
      · have hget : Confined PastHead (get c label) :=
          (getHashnode_confined (fun r => compare_pastHead c.records r label) h.heads).bind
            fun _ _ => confined_ok _
        refine hget.bind fun found _ => ?_
        cases found with
        | none => exact confined_ok _
        | some slot =>
            refine (check_pastHead c.records slot now).bind fun expired _ => ?_
            split
            · refine Confined.bind ?_ fun _ _ => confined_ok _
              exact (dropRecord_pastHead _ _ _).bind fun _ _ => confined_ok _
            · exact confined_ok _
  | setMulti label data now =>
      refine Confined.bind ?_ fun _ _ => confined_ok _
      unfold setCacheAMultiRecord
      split
      · exact confined_ok _
      · exact (reserve_pastHead h.heads label).bind fun _ _ => confined_ok _
  | set label data now =>
      refine Confined.bind ?_ fun _ _ => confined_ok _
      unfold setCacheARecord
      split
      · exact confined_ok _
      · refine (reserve_pastHead h.heads label).bind fun p _ => ?_
        exact (add_pastHead _ _ data now).bind fun _ _ => confined_ok _

end Heads

section Slots

/-- With room for two records a slot is found in every state. -/
theorem exec_ne_noRemainSpace_of_two (h : Inv c l) (hmax : 2 ≤ c.maxLength) :
    op.exec c ≠ .error .noRemainSpace := by
  refine exec_ne_noRemainSpace fun c₀ hroom => ?_
  obtain ⟨l₀, h₀, htop⟩ := makeRoom_stackTop h hmax hroom
  exact placeFront_ne_noRemainSpace h₀ htop

/-- A get call never takes a slot. -/
theorem isSet_of_noRemainSpace (h : op.exec c = .error .noRemainSpace) : op.isSet = true := by
  cases op with
  | get label now =>
      exact absurd h <|
        bind_ne_error (getCacheARecord_ne_error rfl) fun _ _ => by simp [pure, Except.pure]
  | set label data now => rfl
  | setMulti label data now => rfl

/-- A get call on a fresh cache leaves it as it is. -/
theorem exec_get_initCache {recordLength maxSize now : ℤ} {scaled : ℕ} :
    (CacheOp.get label now).exec (initCache recordLength maxSize scaled) =
      .ok (initCache recordLength maxSize scaled, .got none) := by
  simp [CacheOp.exec, getCacheARecord, get, getHashnode, scan, initCache, initHashtable,
    Hashtable.chain, bind, Except.bind, pure, Except.pure]

/-- A full cache with three records or more has no record that it can evict. -/
theorem Sound.makeRoom_of_full (h : Inv c l) (hs : Sound c l) (hfull : isFull c = true)
    (hlen : 3 ≤ l.length) : Lru.makeRoom c ≠ .ok c' := by
  intro hroom
  obtain ⟨c₁, hpop, -⟩ := bind_eq_ok.mp hroom
  rw [if_pos hfull] at hpop
  rcases hs.mode with hdead | hclean
  · exact hdead.not_pops h hpop
  · obtain ⟨m, hm⟩ := hclean.placed
    have := popBackLoop_two h hclean.unambiguous hm hpop
    omega

/-- So no set call returns from there. -/
theorem Sound.set_not_returns {r : CacheResult} (h : Inv c l) (hs : Sound c l)
    (hfull : isFull c = true) (hlen : 3 ≤ l.length) (hop : op.isSet = true) :
    op.exec c ≠ .ok (c', r) := by
  intro hexec
  obtain ⟨c₀, c₁, s, hroom, -⟩ := exec_set_sized hop h.isInit hexec
  exact hs.makeRoom_of_full h hfull hlen hroom

end Slots

end DnsRelay.Lru
