import DnsRelay.Lru.Refinement

/-!
# A record that is left alone

What was stored under a label is found again after any calls that remove no record, store
nothing under the label, and reject nothing. A set call that rejects all its elements
counts as well, since the record it leaves behind has been released and the walk over its
bucket ends there.
-/

namespace DnsRelay.Lru

open DnsRelay.Hash DnsRelay.Lib.LinkedList DnsRelay.Lib.Machine Function

variable {c c' : Cache} {l l' : List ℤ} {s x : ℤ} {label : Label} {data : List RecordData}
  {op : CacheOp} {r : CacheResult}

/-- A lookup of the label finds the record with this chain of answers. -/
def Held (c : Cache) (label : Label) (data : List RecordData) : Prop :=
  ∃ l s, Inv c l ∧ get c label = .ok (some s) ∧ (c.records.data s).toList = data

/-- The walk over the bucket stops at the first record of the label. -/
theorem get_of_chain (h : Inv c l) {d : RecordData} {ds : List RecordData}
    {front back : List (Option ℤ)} (hv : c.records.valid s = true)
    (hd : c.records.data s = .live d ds) (hl : d.label = label)
    (hchain : c.labelHash.chain (c.labelHash.pos label) = front ++ some s :: back)
    (hfront : ∀ y ∈ front, compareRecordWithLabel c.records y label = .ok false) :
    get c label = .ok (some s) := by
  have hcmp : compareRecordWithLabel c.records (some s) label = .ok true :=
    compare_eq_true.mpr ⟨s, d, ds, rfl, hv, hd, hl⟩
  rw [get_eq_of_getHashnode (getHashnode_of_hit (h.heads _) hchain hcmp hfront), if_pos rfl]
  simp [Hashtable.recordAt, hchain]

/-- A lookup after one record has changed, which is none of the label, and after nodes have
been hung behind the others. -/
theorem get_of_other (h : Inv c l) (h' : Inv c' l') (hget : get c label = .ok (some s))
    (hne : s ≠ x) (hpos : c'.labelHash.pos label = c.labelHash.pos label)
    (hchain : ∃ extra, c'.labelHash.chain (c.labelHash.pos label) =
      c.labelHash.chain (c.labelHash.pos label) ++ extra)
    (hother : ∀ y, y ≠ x → c'.records.data y = c.records.data y ∧
      c'.records.valid y = c.records.valid y)
    (hself : compareRecordWithLabel c'.records (some x) label = .ok false) :
    get c' label = .ok (some s) := by
  obtain ⟨hs, d, ds, front, back, hd, hl, hfound, hfront⟩ := get_some h hget
  obtain ⟨extra, hextra⟩ := hchain
  have hv : c'.records.valid s = true := by
    rw [(hother s hne).2]
    exact h.valid_of_mem hs
  have hd' : c'.records.data s = .live d ds := by
    rw [(hother s hne).1, hd]
  have hchain' : c'.labelHash.chain (c'.labelHash.pos label) =
      front ++ some s :: (back ++ extra) := by
    rw [hpos, hextra, hfound, List.append_assoc, List.cons_append]
  apply get_of_chain h' hv hd' hl hchain'
  intro y hy
  obtain ⟨z, dz, dsz, rfl, hvz, hdz, hlz⟩ := compare_eq_false.mp (hfront y hy)
  by_cases hz : z = x
  · rw [hz]
    exact hself
  · refine compare_eq_false.mpr ⟨z, dz, dsz, rfl, ?_, ?_, hlz⟩
    · rw [(hother z hz).2, hvz]
    · rw [(hother z hz).1, hdz]

section Store

/-- The record after a set call that stores something: it has the label of the call. -/
theorem compare_storeIn {z : ℕ} (hlab : op.Labelled) (hst : op.stored ≠ [])
    (hv : c.records.valid s = true) (label : Label) :
    compareRecordWithLabel (storeIn c s op z).records (some s) label =
      .ok (op.label == label) := by
  cases hs : op.stored with
  | nil => exact absurd hs hst
  | cons first next =>
      have hdata : (storeIn c s op z).records.data s = .live first next := storeIn_data_self hs
      have hvalid : (storeIn c s op z).records.valid s = true := hv
      simp only [compareRecordWithLabel, hvalid, if_true, hdata, hlab.stored_label hs]

/-- Storing under another label, with room for it. -/
theorem Held.set (h : Held c label data) (hop : op.isSet = true) (hlab : op.Labelled)
    (hst : op.stored ≠ []) (hne : op.label ≠ label) (hroom : makeRoom c = .ok c)
    (hexec : op.exec c = .ok (c', r)) : Held c' label data := by
  obtain ⟨l, s, hinv, hget, hdata⟩ := h
  obtain ⟨hs, d, ds, -, -, hd, hl, -⟩ := get_some hinv hget
  obtain ⟨c₀, c₁, x, z, hroom', hplace, -, rfl⟩ := exec_set_ok hop hinv.isInit hexec
  cases hroom.symm.trans hroom'
  have hself : ∀ {c₂ : Cache}, c₂.records.valid x = true →
      compareRecordWithLabel (storeIn c₂ x op z).records (some x) label = .ok false := by
    intro c₂ hv
    rw [compare_storeIn hlab hst hv, beq_false_of_ne hne]
  rcases placeFront_cases hinv hplace with ⟨hget', n, p, e, rfl, hinv₁⟩ | ⟨-, hx, hins, hinv₁⟩
  · -- the record of the call is known, and is another one
    obtain ⟨hx, d', ds', -, -, hd', hl', -⟩ := get_some hinv hget'
    have hsx : s ≠ x := by
      rintro rfl
      rw [hd] at hd'
      cases hd'
      exact hne (hl'.symm.trans hl)
    refine ⟨_, s, hinv₁.withRecord _ _, ?_, ?_⟩
    · apply get_of_other hinv (hinv₁.withRecord _ _) hget hsx rfl ⟨[], (List.append_nil _).symm⟩
      · intro y hy
        exact ⟨storeIn_data_of_ne hy, rfl⟩
      · exact hself (hinv.valid_of_mem hx)
    · rw [← hdata]
      exact congrArg DataPtr.toList (storeIn_data_of_ne hsx)
  · -- it takes a free slot, and its node goes behind the others
    have hsx : s ≠ x := ne_of_mem_of_not_mem hs hx
    refine ⟨_, s, hinv₁.withRecord _ _, ?_, ?_⟩
    · apply get_of_other hinv (hinv₁.withRecord _ _) hget hsx
      · exact congrFun (hins.pos_eq (z := z)) label
      · change ∃ extra, c₁.labelHash.chain _ = _
        rw [hins.table, Hashtable.setChain_chain]
        by_cases hb : c.labelHash.pos label = c.labelHash.pos op.label
        · exact ⟨[some x], by rw [hb, update_self]⟩
        · exact ⟨[], by rw [update_of_ne hb, List.append_nil]⟩
      · intro y hy
        constructor
        · rw [← hins.data]
          exact storeIn_data_of_ne hy
        · change c₁.records.valid y = _
          rw [hins.valid, update_of_ne hy]
      · apply hself
        rw [hins.valid, update_self]
    · rw [← hdata, ← hins.data]
      exact congrArg DataPtr.toList (storeIn_data_of_ne hsx)

/-- The front of a bucket after the record `s` has been stored into. -/
theorem compare_storeIn_of_ne {c₁ : Cache} {z : ℕ} {y : Option ℤ} (hy : y ≠ some s)
    (hdata : c₁.records.data = c.records.data)
    (hvalid : ∀ t, t ≠ s → c₁.records.valid t = c.records.valid t)
    (h : compareRecordWithLabel c.records y label = .ok false) :
    compareRecordWithLabel (storeIn c₁ s op z).records y label = .ok false := by
  obtain ⟨t, d, ds, rfl, hv, hd, hl⟩ := compare_eq_false.mp h
  have hts : t ≠ s := fun hts => hy (congrArg some hts)
  refine compare_eq_false.mpr ⟨t, d, ds, rfl, ?_, ?_, hl⟩
  · exact (hvalid t hts).trans hv
  · rw [storeIn_data_of_ne hts, hdata, hd]

/-- A record is found under the label of the call that has stored into it. -/
theorem held_storeIn {c₁ : Cache} {z : ℕ} (h : Inv c l)
    (hplace : placeFront c op.label = .ok (c₁, s)) (hlab : op.Labelled) (hst : op.stored ≠ []) :
    Held (storeIn c₁ s op z) op.label op.stored := by
  cases hs : op.stored with
  | nil => exact absurd hs hst
  | cons first next =>
  have hdata : (storeIn c₁ s op z).records.data s = .live first next := by
    simp [storeIn, withRecord, hs, storedPtr]
  have hlabel := hlab.stored_label hs
  rcases placeFront_cases h hplace with ⟨hget, n, p, e, rfl, hinv⟩ | ⟨hget, hx, hins, hinv⟩
  · obtain ⟨hmem, d, ds, front, back, hd, hl, hchain, hfront⟩ := get_some h hget
    refine ⟨_, s, hinv.withRecord _ _, ?_, by rw [hdata]; rfl⟩
    apply get_of_chain (hinv.withRecord _ _) (h.valid_of_mem hmem) hdata hlabel hchain
    intro y hy
    refine compare_storeIn_of_ne ?_ rfl (fun _ _ => rfl) (hfront y hy)
    rintro rfl
    obtain ⟨t, d', ds', ht, -, hd', hl'⟩ := compare_eq_false.mp (hfront _ hy)
    cases ht
    rw [hd] at hd'
    cases hd'
    exact hl' hl
  · have hchain : (storeIn c₁ s op z).labelHash.chain
        ((storeIn c₁ s op z).labelHash.pos op.label) =
        c.labelHash.chain (c.labelHash.pos op.label) ++ some s :: [] := by
      rw [hins.pos_eq]
      change c₁.labelHash.chain _ = _
      rw [hins.table, Hashtable.setChain_chain, update_self]
    have hvalid : (storeIn c₁ s op z).records.valid s = true := by
      change c₁.records.valid s = true
      rw [hins.valid, update_self]
    refine ⟨_, s, hinv.withRecord _ _, ?_, by rw [hdata]; rfl⟩
    apply get_of_chain (hinv.withRecord _ _) hvalid hdata hlabel hchain
    intro y hy
    have hcmp := get_none h hget y hy
    refine compare_storeIn_of_ne ?_ hins.data (fun t ht => ?_) hcmp
    · -- the slot was free, so no record in use has its number
      rintro rfl
      obtain ⟨t, -, -, ht, hv, -⟩ := compare_eq_false.mp hcmp
      cases ht
      obtain ⟨t, ht, h₁, h₂⟩ := h.nodes _ _ hy
      cases ht
      exact hx ((h.valid_iff s h₁ h₂).mp hv)
    · rw [hins.valid, update_of_ne ht]

/-- A set call with room for it, when the walk over the bucket of its label meets only
records in use, and these hold live data. -/
theorem exec_set_held (h : Inv c l) (hop : op.isSet = true) (hlab : op.Labelled)
    (hst : op.stored ≠ []) (hlive : ∀ s ∈ l, (c.records.data s).isLive = true)
    (hnodes : ∀ y ∈ c.labelHash.chain (c.labelHash.pos op.label),
      ∃ s, y = some s ∧ c.records.valid s = true)
    (hfull : isFull c = false) (hsize : (c.usedSize + 1024) % 2 ^ 64 ≤ c.maxSize) :
    ∃ c' ret, op.exec c = .ok (c', .stored ret) ∧ Held c' op.label op.stored := by
  have hroom := makeRoom_of_room hfull hsize
  have hwalk : ∀ y ∈ c.labelHash.chain (c.labelHash.pos op.label),
      ∃ s ∈ l, y = some s ∧ (c.records.data s).isLive = true := by
    intro y hy
    obtain ⟨s, rfl, hv⟩ := hnodes y hy
    obtain ⟨s', hs', h₁, h₂⟩ := h.nodes _ _ hy
    cases hs'
    have hs := (h.valid_iff s h₁ h₂).mp hv
    exact ⟨s, hs, rfl, hlive s hs⟩
  obtain ⟨found, hget⟩ := get_total h hwalk
  -- the record is known or takes the top of the free stack
  obtain ⟨c₁, s, hplace⟩ : ∃ c₁ s, placeFront c op.label = .ok (c₁, s) := by
    cases found with
    | some s =>
        obtain ⟨c₁, hplace⟩ := placeFront_of_hit hget
        exact ⟨c₁, s, hplace⟩
    | none => exact placeFront_of_miss h hget (stackTop_pos h hfull)
  obtain ⟨ret, z, hexec⟩ := exec_set_of_place h hop hroom hplace
  exact ⟨_, ret, hexec, held_storeIn h hplace hlab hst⟩

end Store

section Look

/-- A lookup that removes nothing. -/
theorem Held.look (h : Held c label data) {label' : Label} {now : ℤ}
    {found : Option (List RecordData)} (hg : getCacheARecord c label' now = .ok (c', found))
    (hkeeps : ∀ s, get c label' = .ok (some s) → checkARecord c.records s now ≠ .ok true) :
    Held c' label data := by
  obtain ⟨l, s, hinv, hget, hdata⟩ := h
  rcases getCacheARecord_cases hinv hg with ⟨-, rfl, -⟩ |
    ⟨x, d, ds, hget', -, hd, hx, -, -⟩ | ⟨x, d, ds, n, p, e, -, -, -, -, rfl, hinv', -⟩
  · exact ⟨l, s, hinv, hget, hdata⟩
  · exact absurd (by simp [checkARecord, hd, hx]) (hkeeps x hget')
  · exact ⟨_, s, hinv', hget, hdata⟩

/-- The chain of answers is returned until its first element has expired. -/
theorem Held.hit {d : RecordData} {ds : List RecordData} (h : Held c label (d :: ds)) {now : ℤ}
    (hx : expired d now = false) :
    ∃ c', getCacheARecord c label now = .ok (c', some (d :: ds)) := by
  obtain ⟨l, s, hinv, hget, hdata⟩ := h
  obtain ⟨-, d', ds', -, -, hd, -⟩ := get_some hinv hget
  rw [hd] at hdata
  cases hdata
  obtain ⟨c', found, hg⟩ := getCacheARecord_of_hit hinv.isInit hget hd hx
  refine ⟨c', ?_⟩
  rcases getCacheARecord_cases hinv hg with ⟨hmiss, -, -⟩ |
    ⟨x, e, es, hget', -, he, hx', -, -⟩ | ⟨x, e, es, n, p, q, hget', -, he, -, rfl, -, rfl⟩
  · cases hget.symm.trans hmiss
  · cases hget.symm.trans hget'
    cases hd.symm.trans he
    rw [hx] at hx'
    cases hx'
  · cases hget.symm.trans hget'
    cases hd.symm.trans he
    exact hg

end Look

section Calls

/-- The call stores nothing under the label, evicts no record and removes no expired one. -/
def sparing (label : Label) (c : Cache) : CacheOp → Bool
  | .get label' now =>
      match get c label' with
      | .ok (some s) => checkARecord c.records s now ≠ .ok true
      | _ => true
  | op => op.label ≠ label ∧ isFull c = false ∧ (c.usedSize + 1024) % 2 ^ 64 ≤ c.maxSize

/-- The call is no set call all of whose elements have expired. -/
def CacheOp.accepted (op : CacheOp) : Bool := op.isSet = true → op.stored ≠ []

/-- What is found under a label is found after every such call. -/
theorem Held.exec (h : Held c label data) (hlab : op.Labelled) (hs : sparing label c op = true)
    (ha : op.accepted = true) (hexec : op.exec c = .ok (c', r)) : Held c' label data := by
  cases hset : op.isSet with
  | true =>
      have hst : op.stored ≠ [] := of_decide_eq_true ha hset
      obtain ⟨hne, hfull, hsize⟩ : op.label ≠ label ∧ isFull c = false ∧
          (c.usedSize + 1024) % 2 ^ 64 ≤ c.maxSize := by
        cases op with
        | get label' now => cases hset
        | set label' d now => exact of_decide_eq_true hs
        | setMulti label' ds now => exact of_decide_eq_true hs
      exact h.set hset hlab hst hne (makeRoom_of_room hfull hsize) hexec
  | false =>
      cases op with
      | set label' d now => cases hset
      | setMulti label' ds now => cases hset
      | get label' now =>
          obtain ⟨⟨c₁, found⟩, hg, hexec⟩ := bind_eq_ok.mp hexec
          cases hexec
          apply h.look hg
          intro x hx
          simp only [sparing, hx, decide_eq_true_eq] at hs
          exact hs

end Calls

end DnsRelay.Lru
