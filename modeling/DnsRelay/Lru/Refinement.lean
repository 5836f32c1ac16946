import DnsRelay.Lru.Labels
import DnsRelay.Lib.LruMap

/-!
# The cache as a map with a recency order

As long as nothing has to be evicted and no expired record is met, the list, the free
stack and the hash table together represent one abstract map, and every call does on the
representation what the abstract operation does on the map.
-/

namespace DnsRelay.Lru

open DnsRelay.Hash DnsRelay.Lib DnsRelay.Lib.LinkedList DnsRelay.Lib.Machine Function

variable {c c' : Cache} {l : List ℤ} {s t x : ℤ} {label : Label} {now : ℤ}

instance : DecidablePred CacheOp.Labelled
  | .set label data _ => inferInstanceAs (Decidable (data.label = label))
  | .setMulti label data _ => inferInstanceAs (Decidable (∀ d ∈ data, d.label = label))
  | .get _ _ => inferInstanceAs (Decidable True)

/-- The abstract cache: from each label to the list last set for it. -/
abbrev LabelMap := LruMap Label (List RecordData)

/-- The abstract operation of a call and what it answers. -/
def specStep (m : LabelMap) : CacheOp → LabelMap × Option (List RecordData)
  | .get label _ => m.get label
  | op => (m.set op.label op.unexpired, none)

/-- The list that a call hands back; the return values of set calls are sizes. -/
def CacheResult.answer : CacheResult → Option (List RecordData)
  | stored _ => none
  | got data => data

/-- The calls the refinement is about: data carries the label of the call, a set call
finds room and stores something, and a lookup does not meet a first element that is past
its time. -/
def admissible (c : Cache) (op : CacheOp) : Bool :=
  decide op.Labelled &&
    if op.isSet then !isFull c && op.elements.any fun d => op.now ≤ d.ttl
    else
      match get c op.label with
      | .ok (some slot) =>
          match c.records.data slot with
          | .live d _ => decide (op.now ≤ d.ttl)
          | _ => true
      | _ => true

/-- The cache with the used slots `l` represents the map `m`. -/
structure Represents (c : Cache) (l : List ℤ) (m : LabelMap) : Prop where
  inv : Inv c l
  keys : l.map (labelAt c) = m.order.map some
  values : ∀ s ∈ l, ∀ label, labelAt c s = some label →
    m.value label = some (c.records.data s).toList
  placed : ∀ s ∈ l, Placed c s
  nodes : ∀ b, ∀ r ∈ c.labelHash.chain b, ∃ s ∈ l, r = some s
  room : c.usedSize = 0 ∧ 1024 ≤ c.maxSize

/-- A lookup returns when the nodes of the bucket are of records in use with live data. -/
theorem get_total (h : Inv c l)
    (hlive : ∀ y ∈ c.labelHash.chain (c.labelHash.pos label),
      ∃ s ∈ l, y = some s ∧ (c.records.data s).isLive = true) :
    ∃ found, get c label = .ok found := by
  have htotal : ∀ y ∈ c.labelHash.chain (c.labelHash.pos label),
      ∃ found, compareRecordWithLabel c.records y label = .ok found := by
    intro y hy
    obtain ⟨s, hs, rfl, hs'⟩ := hlive y hy
    cases hd : c.records.data s with
    | live d ds =>
        exact ⟨d.label == label, by simp [compareRecordWithLabel, h.valid_of_mem hs, hd]⟩
    | null => simp [hd, DataPtr.isLive] at hs'
    | freed => simp [hd, DataPtr.isLive] at hs'
  obtain ⟨found, node, hn⟩ := getHashnode_total (h.heads _) htotal
  exact ⟨_, get_eq_of_getHashnode hn⟩

namespace Represents

variable {m : LabelMap}

theorem live (h : Represents c l m) (hs : s ∈ l) :
    ∃ label d ds, label ∈ m.order ∧ c.records.data s = .live d ds ∧ d.label = label := by
  have hmem : labelAt c s ∈ m.order.map some := h.keys ▸ List.mem_map_of_mem hs
  obtain ⟨label, hl, heq⟩ := List.mem_map.mp hmem
  obtain ⟨d, ds, hd, hdl⟩ := labelAt_eq_some.mp heq.symm
  exact ⟨label, d, ds, hl, hd, hdl⟩

theorem slot_of_mem (h : Represents c l m) (hl : label ∈ m.order) :
    ∃ s ∈ l, labelAt c s = some label := by
  have hmem : some label ∈ l.map (labelAt c) := h.keys ▸ List.mem_map_of_mem hl
  exact List.mem_map.mp hmem

/-- A lookup returns, and finds the record of the label if there is one. -/
theorem get_cases (h : Represents c l m) (label : Label) :
    (label ∉ m.order ∧ get c label = .ok none) ∨
      (label ∈ m.order ∧ ∃ s ∈ l, labelAt c s = some label ∧ get c label = .ok (some s)) := by
  have hlive : ∀ y ∈ c.labelHash.chain (c.labelHash.pos label),
      ∃ s ∈ l, y = some s ∧ (c.records.data s).isLive = true := by
    intro y hy
    obtain ⟨s, hs, rfl⟩ := h.nodes _ y hy
    obtain ⟨-, d, ds, -, hd, -⟩ := h.live hs
    exact ⟨s, hs, rfl, by rw [hd]; rfl⟩
  obtain ⟨found, hget⟩ := get_total h.inv hlive
  cases found with
  | none =>
      refine .inl ⟨fun hl => ?_, hget⟩
      obtain ⟨s, hs, hsl⟩ := h.slot_of_mem hl
      have hcmp := get_none h.inv hget _ (h.placed s hs label hsl)
      obtain ⟨s', d, ds, hs', -, hd, hne⟩ := compare_eq_false.mp hcmp
      cases hs'
      exact hne (Option.some.inj ((labelAt_eq_some.mpr ⟨d, ds, hd, rfl⟩).symm.trans hsl))
  | some s =>
      obtain ⟨hs, d, ds, -, -, hd, hdl, -⟩ := get_some h.inv hget
      obtain ⟨label', d', ds', hmem, hd', hdl'⟩ := h.live hs
      have heq : label' = label := by
        rw [hd] at hd'
        cases hd'
        exact hdl'.symm.trans hdl
      exact .inr ⟨heq ▸ hmem, s, hs, labelAt_eq_some.mpr ⟨d, ds, hd, hdl⟩, hget⟩

end Represents

section Progress

variable {m : LabelMap} {op : CacheOp}

theorem makeRoom_of_room (hfull : isFull c = false)
    (hsize : (c.usedSize + 1024) % 2 ^ 64 ≤ c.maxSize) : makeRoom c = .ok c := by
  simp only [makeRoom, hfull, Bool.false_eq_true, if_false, bind, Except.bind, sizeLoop]
  rw [if_neg (not_lt.mpr hsize)]

theorem placeFront_of_hit (hget : get c label = .ok (some s)) :
    ∃ c₁, placeFront c label = .ok (c₁, s) := by
  obtain ⟨⟨node, found⟩, hn, hget⟩ := bind_eq_ok.mp hget
  cases found with
  | false => cases hget
  | true =>
      have hr : c.labelHash.recordAt node = some s := Except.ok.inj hget
      simp only [placeFront, setHashnode_none_of_hit hn, bind, Except.bind, if_true, hr]
      split
      · exact ⟨_, rfl⟩
      · exact ⟨_, rfl⟩

theorem placeFront_of_miss (h : Inv c l) (hget : get c label = .ok none)
    (htop : 0 < c.stackTop) : ∃ c₁ s, placeFront c label = .ok (c₁, s) := by
  have hmiss := setHashnode_none_of_miss (getHashnode_of_miss (h.heads _) (get_none h hget))
  have hneg : ¬ c.stack c.stackTop < 0 := by
    have := (stack_top_free h).2.1
    omega
  simp only [placeFront, hmiss, bind, Except.bind, Bool.false_eq_true, if_false,
    cacheStackPop, htop, if_true, hneg]
  exact ⟨_, _, rfl⟩

/-- A cache that is not full has a free slot. -/
theorem stackTop_pos (h : Inv c l) (hfull : isFull c = false) : 0 < c.stackTop := by
  have hlt : ¬ c.maxLength - 1 ≤ c.length := of_decide_eq_false hfull
  have htop := h.stackTop_add
  have hlen := h.length_eq
  omega

/-- The record that is put at the front is a live one or has no size yet. -/
theorem placeFront_not_freed {c₁ : Cache} (h : Inv c l)
    (hplace : placeFront c label = .ok (c₁, s)) :
    0 < c₁.records.size s → c₁.records.data s ≠ .freed := by
  rcases placeFront_cases h hplace with ⟨hget, n, p, e, rfl, -⟩ | ⟨-, -, hins, -⟩
  · obtain ⟨-, d, ds, -, -, hd, -⟩ := get_some h hget
    intro _ hfreed
    rw [show c.records.data s = .freed from hfreed] at hd
    cases hd
  · rw [hins.size, update_self]
    exact fun hpos => absurd hpos (lt_irrefl 0)

/-- A placed record whose data can be released is reserved. -/
theorem reserve_of_place {c₁ : Cache} (hroom : makeRoom c = .ok c)
    (hplace : placeFront c label = .ok (c₁, s))
    (hnf : 0 < c₁.records.size s → c₁.records.data s ≠ .freed) :
    ∃ c₂, reserve c label = .ok (c₂, s) ∧ c₂.records.size s = 0 := by
  have hpush : pushFront c label = .ok (c₁, s) := by
    simp [pushFront, hroom, hplace, bind, Except.bind]
  by_cases hz : 0 < c₁.records.size s
  · cases hd : c₁.records.data s with
    | freed => exact absurd hd (hnf hz)
    | null =>
        simp only [reserve, hpush, bind, Except.bind, hz, if_true, realseARecord, hd]
        exact ⟨_, rfl, by simp⟩
    | live d ds =>
        simp only [reserve, hpush, bind, Except.bind, hz, if_true, realseARecord, hd]
        exact ⟨_, rfl, by simp⟩
  · refine ⟨c₁, ?_, by omega⟩
    simp [reserve, hpush, bind, Except.bind, hz, pure, Except.pure]

theorem exec_set_total {c₁ : Cache} (hop : op.isSet = true) (hi : c.isInit = true)
    (hroom : makeRoom c = .ok c) (hplace : placeFront c op.label = .ok (c₁, s))
    (hnf : 0 < c₁.records.size s → c₁.records.data s ≠ .freed) :
    ∃ c' r, op.exec c = .ok (c', .stored r) := by
  obtain ⟨c₂, hres, hz⟩ := reserve_of_place hroom hplace hnf
  cases op with
  | get label now => simp [CacheOp.isSet] at hop
  | set label data now =>
      simp only [CacheOp.label] at hres
      by_cases hx : data.ttl < now
      · simp only [CacheOp.exec, setCacheARecord, hi, Bool.true_eq_false, if_false, hres, bind,
          Except.bind, addARecord, hx, if_true]
        exact ⟨_, _, rfl⟩
      · simp only [CacheOp.exec, setCacheARecord, hi, Bool.true_eq_false, if_false, hres, bind,
          Except.bind, addARecord, hx, hz, lt_irrefl]
        exact ⟨_, _, rfl⟩
  | setMulti label data now =>
      simp only [CacheOp.label] at hres
      simp only [CacheOp.exec, setCacheAMultiRecord, hi, Bool.true_eq_false, if_false, hres,
        bind, Except.bind]
      exact ⟨_, _, rfl⟩

/-- A set call with room stores its elements in the record that it has put at the front. -/
theorem exec_set_of_place {c₁ : Cache} (h : Inv c l) (hop : op.isSet = true)
    (hroom : makeRoom c = .ok c) (hplace : placeFront c op.label = .ok (c₁, s)) :
    ∃ r z, op.exec c = .ok (storeIn c₁ s op z, .stored r) := by
  obtain ⟨c', r, hexec⟩ := exec_set_total hop h.isInit hroom hplace (placeFront_not_freed h hplace)
  obtain ⟨c₀, c₂, s', z, hroom', hplace', -, rfl⟩ := exec_set_ok hop h.isInit hexec
  obtain rfl := Except.ok.inj (hroom.symm.trans hroom')
  obtain ⟨rfl, rfl⟩ := Prod.mk.inj (Except.ok.inj (hplace.symm.trans hplace'))
  exact ⟨r, z, hexec⟩

/-- A set call returns when there is room for it and the lookup of its label returns. -/
theorem exec_set_of_room {found : Option ℤ} (h : Inv c l) (hop : op.isSet = true)
    (hfull : isFull c = false) (hsize : (c.usedSize + 1024) % 2 ^ 64 ≤ c.maxSize)
    (hget : get c op.label = .ok found) : ∃ c' r, op.exec c = .ok (c', .stored r) := by
  have hplaced : ∃ c₁ s, placeFront c op.label = .ok (c₁, s) := by
    cases found with
    | none => exact placeFront_of_miss h hget (stackTop_pos h hfull)
    | some s =>
        obtain ⟨c₁, hplace⟩ := placeFront_of_hit hget
        exact ⟨c₁, s, hplace⟩
  obtain ⟨c₁, s, hplace⟩ := hplaced
  exact exec_set_total hop h.isInit (makeRoom_of_room hfull hsize) hplace
    (placeFront_not_freed h hplace)

theorem getCacheARecord_of_miss (hi : c.isInit = true) (hget : get c label = .ok none) :
    getCacheARecord c label now = .ok (c, none) := by
  simp [getCacheARecord, hi, hget, bind, Except.bind, pure, Except.pure]

theorem getCacheARecord_of_hit {d : RecordData} {ds : List RecordData} (hi : c.isInit = true)
    (hget : get c label = .ok (some s)) (hd : c.records.data s = .live d ds)
    (hx : expired d now = false) : ∃ c' r, getCacheARecord c label now = .ok (c', r) := by
  simp only [getCacheARecord, hi, hget, bind, Except.bind, Bool.true_eq_false, if_false,
    checkARecord, hd, hx, Bool.false_eq_true]
  exact ⟨_, _, rfl⟩

end Progress

section Steps

variable {m : LabelMap} {op : CacheOp} {z : ℕ}

/-- A set call that stores something leaves its own label and its unexpired elements. -/
theorem storeIn_self (hlab : op.Labelled) (hst : op.unexpired ≠ []) :
    labelAt (storeIn c s op z) s = some op.label ∧
      ((storeIn c s op z).records.data s).toList = op.unexpired := by
  rw [← hlab.stored_eq] at hst ⊢
  cases hs : op.stored with
  | nil => exact absurd hs hst
  | cons first next =>
      have hdata : (storeIn c s op z).records.data s = .live first next := storeIn_data_self hs
      rw [hdata]
      exact ⟨labelAt_eq_some.mpr ⟨first, next, hdata, hlab.stored_label hs⟩, rfl⟩

theorem storeIn_data_of_ne (hx : x ≠ s) :
    (storeIn c s op z).records.data x = c.records.data x := by
  simp [storeIn, withRecord, hx]

/-- Storing into a record that has been put at the front of a list without its label. -/
theorem Represents.store {a : List ℤ} (hlab : op.Labelled) (hst : op.unexpired ≠ [])
    (hinv : Inv c' (s :: a)) (hdata : c'.records.data = c.records.data)
    (hkeys : a.map (labelAt c) = (m.order.erase op.label).map some)
    (hvalues : ∀ x ∈ a, ∀ label, labelAt c x = some label →
      m.value label = some (c.records.data x).toList)
    (hself : some s ∈ c'.labelHash.chain (c'.labelHash.pos op.label))
    (hplaced : ∀ x ∈ a, ∀ label, labelAt c x = some label →
      some x ∈ c'.labelHash.chain (c'.labelHash.pos label))
    (hnodes : ∀ b, ∀ r ∈ c'.labelHash.chain b, ∃ x ∈ s :: a, r = some x)
    (hroom : c'.usedSize = 0 ∧ 1024 ≤ c'.maxSize) :
    Represents (storeIn c' s op z) (s :: a) (m.set op.label op.unexpired) := by
  obtain ⟨hl, ht⟩ := storeIn_self (c := c') (s := s) (z := z) hlab hst
  have hne : ∀ x ∈ a, x ≠ s := fun x hx =>
    ne_of_mem_of_not_mem hx (List.nodup_cons.mp hinv.used_nodup).1
  have hdx : ∀ x ∈ a, (storeIn c' s op z).records.data x = c.records.data x := by
    intro x hx
    rw [storeIn_data_of_ne (hne x hx), hdata]
  have hlx : ∀ x ∈ a, labelAt (storeIn c' s op z) x = labelAt c x := fun x hx =>
    labelAt_congr (hdx x hx)
  refine ⟨hinv.withRecord _ _, ?_, ?_, ?_, hnodes, hroom⟩
  · rw [List.map_cons, hl, List.map_congr_left hlx, hkeys]
    rfl
  · intro x hx label hxl
    rcases List.mem_cons.mp hx with rfl | hxa
    · obtain rfl : op.label = label := Option.some.inj (hl.symm.trans hxl)
      rw [ht]
      exact update_self _ _ _
    · rw [hlx x hxa] at hxl
      have hmem : some label ∈ (m.order.erase op.label).map some := by
        rw [← hkeys, ← hxl]
        exact List.mem_map_of_mem hxa
      have hlabel : label ≠ op.label := by
        rintro rfl
        obtain ⟨k, hk, hkl⟩ := List.mem_map.mp hmem
        cases hkl
        exact m.nodup.not_mem_erase hk
      rw [hdx x hxa, ← hvalues x hxa label hxl]
      exact update_of_ne hlabel _ _
  · intro x hx label hxl
    rcases List.mem_cons.mp hx with rfl | hxa
    · obtain rfl : op.label = label := Option.some.inj (hl.symm.trans hxl)
      exact hself
    · rw [hlx x hxa] at hxl
      exact hplaced x hxa label hxl

theorem Represents.keys_erase (h : Represents c l m) (hs : s ∈ l)
    (hl : labelAt c s = some label) :
    (l.erase s).map (labelAt c) = (m.order.erase label).map some :=
  LruMap.erase_map_some h.keys m.nodup hs hl

/-- A set call with room, and with something to store, sets the label in the map. -/
theorem Represents.set (h : Represents c l m) (hop : op.isSet = true) (hlab : op.Labelled)
    (hfull : isFull c = false) (hst : op.unexpired ≠ []) :
    ∃ c' r l', op.exec c = .ok (c', .stored r) ∧
      Represents c' l' (m.set op.label op.unexpired) := by
  have hroom := makeRoom_of_room hfull (by
    rw [h.room.1]
    exact h.room.2)
  rcases h.get_cases op.label with ⟨hnew, hget⟩ | ⟨hold, s, hs, hsl, hget⟩
  · obtain ⟨c₁, s, hplace⟩ := placeFront_of_miss h.inv hget (stackTop_pos h.inv hfull)
    obtain ⟨r, z, hexec⟩ := exec_set_of_place h.inv hop hroom hplace
    rcases placeFront_cases h.inv hplace with ⟨hget', -⟩ | ⟨-, hsl, hins, hinv⟩
    · cases hget.symm.trans hget'
    · have hpos : c₁.labelHash.pos = c.labelHash.pos := hins.pos_eq (z := z)
      refine ⟨_, r, s :: l, hexec, Represents.store (c := c) hlab hst hinv hins.data ?_
        h.values ?_ ?_ ?_ ?_⟩
      · rw [List.erase_of_not_mem hnew, h.keys]
      · rw [hpos]
        exact hins.self_mem_chain (z := z)
      · intro x hx label hxl
        rw [hpos]
        exact (hins.mem_chain_iff (z := z) (ne_of_mem_of_not_mem hx hsl)).mpr
          (h.placed x hx label hxl)
      · intro b r' hr
        by_cases hrs : r' = some s
        · exact ⟨s, by simp, hrs⟩
        · obtain ⟨x, hx, rfl⟩ : ∃ x ∈ l, r' = some x := by
            rw [hins.table, Hashtable.setChain_chain] at hr
            by_cases hb : b = c.labelHash.pos op.label
            · subst hb
              rw [update_self] at hr
              exact h.nodes _ r' (by simpa [hrs] using hr)
            · rw [update_of_ne hb] at hr
              exact h.nodes b r' hr
          exact ⟨x, by simp [hx], rfl⟩
      · rw [hins.limits.2.1, hins.limits.2.2]
        exact h.room
  · obtain ⟨c₁, hplace⟩ := placeFront_of_hit hget
    obtain ⟨r, z, hexec⟩ := exec_set_of_place h.inv hop hroom hplace
    rcases placeFront_cases h.inv hplace with ⟨-, n, p, e, rfl, hinv⟩ | ⟨hget', -⟩
    · refine ⟨_, r, s :: l.erase s, hexec, Represents.store (c := c) hlab hst hinv rfl
        (h.keys_erase hs hsl) (fun x hx => h.values x (List.mem_of_mem_erase hx))
        (h.placed s hs _ hsl) (fun x hx => h.placed x (List.mem_of_mem_erase hx)) ?_ h.room⟩
      intro b r' hr
      obtain ⟨x, hx, rfl⟩ := h.nodes b r' hr
      exact ⟨x, (List.perm_cons_erase hs).mem_iff.mp hx, rfl⟩
    · cases hget.symm.trans hget'

/-- A lookup that meets no element past its time looks the label up in the map. -/
theorem Represents.get (h : Represents c l m)
    (hfresh : ∀ s d ds, get c label = .ok (some s) → c.records.data s = .live d ds →
      now ≤ d.ttl) :
    ∃ c' r l', getCacheARecord c label now = .ok (c', r) ∧
      Represents c' l' (m.get label).1 ∧ r = (m.get label).2 := by
  rcases h.get_cases label with ⟨hnew, hget⟩ | ⟨hold, s, hs, hsl, hget⟩
  · rw [LruMap.get_of_notMem hnew]
    exact ⟨c, none, l, getCacheARecord_of_miss h.inv.isInit hget, h, rfl⟩
  · rw [LruMap.get_of_mem hold]
    obtain ⟨d, ds, hd, hdl⟩ := labelAt_eq_some.mp hsl
    have hx : expired d now = false := by
      have := hfresh s d ds hget hd
      simp [expired, not_lt.mpr this]
    obtain ⟨c', r, hexec⟩ := getCacheARecord_of_hit h.inv.isInit hget hd hx
    refine ⟨c', r, s :: l.erase s, hexec, ?_⟩
    rcases getCacheARecord_cases h.inv hexec with ⟨hget', -⟩ |
      ⟨s', d', ds', hget', -, hd', hx', -⟩ |
      ⟨s', d', ds', n, p, e, hget', -, hd', -, rfl, hinv, rfl⟩
    · cases hget.symm.trans hget'
    · cases hget.symm.trans hget'
      cases hd.symm.trans hd'
      rw [hx] at hx'
      cases hx'
    · cases hget.symm.trans hget'
      cases hd.symm.trans hd'
      have hmem : ∀ x, x ∈ s :: l.erase s ↔ x ∈ l := fun x =>
        (List.perm_cons_erase hs).mem_iff.symm
      refine ⟨⟨hinv, ?_, ?_, ?_, ?_, h.room⟩, ?_⟩
      · change (s :: l.erase s).map (labelAt c) = (label :: m.order.erase label).map some
        rw [List.map_cons, List.map_cons, h.keys_erase hs hsl, hsl]
      · exact fun x hx => h.values x ((hmem x).mp hx)
      · exact fun x hx => h.placed x ((hmem x).mp hx)
      · intro b r' hr
        obtain ⟨x, hx, rfl⟩ := h.nodes b r' hr
        exact ⟨x, (hmem x).mpr hx, rfl⟩
      · rw [h.values s hs label hsl, hd]
        rfl

end Steps

section Runs

variable {m : LabelMap} {op : CacheOp}

/-- The elements kept by the last set call for a label. -/
def lastSet (ops : List CacheOp) (label : Label) : Option (List RecordData) :=
  (ops.reverse.find? fun op => op.isSet && op.label == label).map CacheOp.unexpired

theorem specStep_value (m : LabelMap) (op : CacheOp) (label : Label) :
    (specStep m op).1.value label =
      if op.isSet && op.label == label then some op.unexpired else m.value label := by
  have hset : (m.set op.label op.unexpired).value label =
      if op.label == label then some op.unexpired else m.value label := by
    by_cases hl : op.label = label
    · simp [LruMap.set, hl]
    · simp [LruMap.set, hl, update_of_ne (Ne.symm hl)]
  cases op with
  | set label' data now => exact hset
  | setMulti label' data now => exact hset
  | get label' now =>
      simp only [specStep, CacheOp.isSet, Bool.false_and, Bool.false_eq_true, if_false]
      by_cases hmem : label' ∈ m.order
      · rw [LruMap.get_of_mem hmem]
        rfl
      · rw [LruMap.get_of_notMem hmem]

/-- The abstract map sends every label to the list last set for it. -/
theorem totalRun_value (ops : List CacheOp) (label : Label) :
    (totalRun specStep LruMap.empty ops).1.value label = lastSet ops label := by
  induction ops using List.reverseRecOn with
  | nil => rfl
  | append_singleton ops op ih =>
      rw [totalRun_concat, specStep_value, ih]
      by_cases hop : (op.isSet && op.label == label) = true
      · simp [lastSet, hop]
      · simp [lastSet, hop]

theorem admissible_step (h : Represents c l m) (ha : admissible c op = true) :
    ∃ c' r, op.exec c = .ok (c', r) ∧ (∃ l', Represents c' l' (specStep m op).1) ∧
      r.answer = (specStep m op).2 := by
  simp only [admissible, Bool.and_eq_true, decide_eq_true_eq] at ha
  obtain ⟨hlab, ha⟩ := ha
  cases hset : op.isSet with
  | true =>
      rw [hset, if_pos rfl, Bool.and_eq_true, Bool.not_eq_true'] at ha
      have hst : op.unexpired ≠ [] := by
        obtain ⟨d, hd, hle⟩ := List.any_eq_true.mp ha.2
        exact List.ne_nil_of_mem (List.mem_filter.mpr ⟨hd, hle⟩)
      obtain ⟨c', r, l', hexec, hr⟩ := h.set hset hlab ha.1 hst
      have hspec : specStep m op = (m.set op.label op.unexpired, none) := by
        cases op with
        | get label now => simp [CacheOp.isSet] at hset
        | set label data now => rfl
        | setMulti label data now => rfl
      rw [hspec]
      exact ⟨c', .stored r, hexec, ⟨l', hr⟩, rfl⟩
  | false =>
      cases op with
      | set label data now => simp [CacheOp.isSet] at hset
      | setMulti label data now => simp [CacheOp.isSet] at hset
      | get label now =>
          rw [hset, if_neg (by simp)] at ha
          have hfresh : ∀ s d ds, get c label = .ok (some s) →
              c.records.data s = .live d ds → now ≤ d.ttl := by
            intro s d ds hget hd
            simp only [CacheOp.label, hget, hd] at ha
            exact of_decide_eq_true ha
          obtain ⟨c', r, l', hexec, hr, hout⟩ := h.get hfresh
          refine ⟨c', .got r, ?_, ⟨l', hr⟩, hout⟩
          simp [CacheOp.exec, hexec, bind, Except.bind, pure, Except.pure]

theorem initCache_represents {recordLength maxSize : ℤ} {scaled : ℕ} (hn : 1 ≤ recordLength)
    (hm : 1024 ≤ maxSize) :
    Represents (initCache recordLength maxSize scaled) [] LruMap.empty := by
  refine ⟨initCache_inv hn, rfl, by simp, by simp, ?_, rfl, ?_⟩
  · intro b r hr
    simp [initCache, initHashtable, Hashtable.chain] at hr
  · have hpos : ¬ maxSize ≤ 0 := by omega
    simp only [initCache, hpos, if_false]
    omega

/-- The cache refines the map with a recency order on every admissible run. -/
theorem runOps_refines (recordLength maxSize : ℤ) (scaled : ℕ) (hn : 2 ≤ recordLength)
    (hm : 1024 ≤ maxSize) (ops : List CacheOp)
    (h : along CacheOp.exec admissible (initCache recordLength maxSize scaled) ops = true) :
    ∃ c results, runOps (initCache recordLength maxSize scaled) ops = .ok (c, results) ∧
      results.map CacheResult.answer = (totalRun specStep LruMap.empty ops).2 ∧
      (visited c).map (labelAt c) = (totalRun specStep LruMap.empty ops).1.order.map some ∧
      (∀ label, (totalRun specStep LruMap.empty ops).1.value label = lastSet ops label) ∧
      ∀ s ∈ visited c, ∀ label, labelAt c s = some label →
        lastSet ops label = some (c.records.data s).toList := by
  have hinit : ∃ l, Represents (initCache recordLength maxSize scaled) l LruMap.empty :=
    ⟨[], initCache_represents (by omega) hm⟩
  have hstep : ∀ c m op, (∃ l, Represents c l m) → admissible c op = true →
      ∃ c' r, op.exec c = .ok (c', r) ∧ (∃ l, Represents c' l (specStep m op).1) ∧
        r.answer = (specStep m op).2 := by
    rintro c m op ⟨l, hr⟩ ha
    exact admissible_step hr ha
  obtain ⟨c, results, hrun, ⟨l, hl⟩, hout⟩ :=
    run_simulates (fun c m => ∃ l, Represents c l m) hstep hinit h
  refine ⟨c, results, hrun, hout, ?_, totalRun_value ops, ?_⟩
  · rw [hl.inv.visited_eq]
    exact hl.keys
  · rw [hl.inv.visited_eq]
    intro s hs label hsl
    rw [← totalRun_value]
    exact hl.values s hs label hsl

private def refinementIP : IP := ⟨Vector.replicate 16 0, 1⟩

private def sampleCalls : List CacheOp :=
  [.set [97] ⟨[97], refinementIP, 9⟩ 1,
    .setMulti [98] [⟨[98], refinementIP, 0⟩, ⟨[98], refinementIP, 5⟩, ⟨[98], refinementIP, 7⟩] 1,
    .get [97] 2, .get [99] 2, .set [98] ⟨[98], refinementIP, 6⟩ 3, .get [98] 4]

/-- Inserts, an overwrite, two hits and a miss. -/
theorem runOps_refines_sample :
    ∃ c results, runOps (initCache 4 2000 5) sampleCalls = .ok (c, results) ∧
      results.map CacheResult.answer =
        [none, none, some [⟨[97], refinementIP, 9⟩], none, none,
          some [⟨[98], refinementIP, 6⟩]] ∧
      (visited c).map (labelAt c) = [some [98], some [97]] := by
  obtain ⟨c, results, hrun, hout, hkeys, -⟩ :=
    runOps_refines 4 2000 5 (by decide) (by decide) sampleCalls (by decide)
  exact ⟨c, results, hrun, hout.trans (by decide), hkeys.trans (by decide)⟩

end Runs

end DnsRelay.Lru
