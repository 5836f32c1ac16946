import DnsRelay.Lru.Held
import DnsRelay.Lru.Room

/-!
# Set calls that store nothing

`push_front` has taken the slot, hung the node and moved the record to the front, and the
old data has been released, before the elements of a set call are tested for their time.
When all of them are expired the record stays as it is then. It still holds live data under
its own label only where the slot happens to hold data of that label that nothing releases.
-/

namespace DnsRelay.Lru

open DnsRelay.Hash DnsRelay.Lib.LinkedList DnsRelay.Lib.Machine Function

variable {c c' : Cache} {l l' : List ℤ} {s t x : ℤ} {label : Label} {now : ℤ} {op : CacheOp}

section Lookups

/-- A lookup that misses still misses after one record has changed, which is none of the
label. -/
theorem get_none_of_other (h : Inv c l) (h' : Inv c' l') (hget : get c label = .ok none)
    (hpos : c'.labelHash.pos label = c.labelHash.pos label)
    (hchain : ∀ y ∈ c'.labelHash.chain (c.labelHash.pos label), y ≠ some x →
      y ∈ c.labelHash.chain (c.labelHash.pos label))
    (hother : ∀ y, y ≠ x → c'.records.data y = c.records.data y ∧
      c'.records.valid y = c.records.valid y)
    (hself : compareRecordWithLabel c'.records (some x) label = .ok false) :
    get c' label = .ok none := by
  have hall : ∀ y ∈ c'.labelHash.chain (c'.labelHash.pos label),
      compareRecordWithLabel c'.records y label = .ok false := by
    intro y hy
    rw [hpos] at hy
    by_cases hyx : y = some x
    · rw [hyx]
      exact hself
    · obtain ⟨z, dz, dsz, rfl, hvz, hdz, hlz⟩ :=
        compare_eq_false.mp (get_none h hget y (hchain y hy hyx))
      have hzx : z ≠ x := fun heq => hyx (congrArg some heq)
      refine compare_eq_false.mpr ⟨z, dz, dsz, rfl, ?_, ?_, hlz⟩
      · rw [(hother z hzx).2, hvz]
      · rw [(hother z hzx).1, hdz]
  rw [get_eq_of_getHashnode (getHashnode_of_miss (h'.heads _) hall)]
  rfl

theorem endOf_mem_of_ne_nil (h : l ≠ []) : endOf l ∈ l := by
  rw [endOf, List.getLast_cons h]
  exact List.getLast_mem h

/-- A record that has been found is removed, unless the end of the remaining list has been
released before. -/
theorem removeRecord_total (h : Inv c l) (hget : get c label = .ok (some s))
    (hnf : c.records.data (endOf (l.erase s)) ≠ .freed) : ∃ c', removeRecord c s = .ok c' := by
  obtain ⟨hs, d, ds, front, back, hd, rfl, hchain, hfront⟩ := get_some h hget
  obtain ⟨n, p, f, hlinks, -⟩ := removeLinks_eq h hs
  have hself : compareRecordWithLabel c.records (some s) d.label = .ok true :=
    compare_eq_true.mpr ⟨s, d, ds, rfl, h.valid_of_mem hs, hd, rfl⟩
  have hreset := resetHashNode_of_hit hchain hself hfront
  have hdrop : ∃ c₁, dropRecord (relink c n p f (endOf (l.erase s))) s (endOf (l.erase s)) =
      .ok c₁ := by
    have hlabel : getCacheARecordLabel (relink c n p f (endOf (l.erase s))).records s =
        .ok d.label := label_eq_ok.mpr ⟨d, ds, hd, rfl⟩
    have hrelease : ∃ rs, realseARecord (relink c n p f (endOf (l.erase s))).records
        (endOf (l.erase s)) = .ok rs := by
      have hdata : (relink c n p f (endOf (l.erase s))).records.data (endOf (l.erase s)) =
          c.records.data (endOf (l.erase s)) := rfl
      unfold realseARecord
      split
      · exact ⟨_, rfl⟩
      · next hfreed => exact absurd (hdata.symm.trans hfreed) hnf
      · exact ⟨_, rfl⟩
    obtain ⟨rs, hrs⟩ := hrelease
    exact ⟨_, bind_eq_ok.mpr ⟨_, hlabel, bind_eq_ok.mpr ⟨_, hreset, bind_eq_ok.mpr
      ⟨rs, hrs, rfl⟩⟩⟩⟩
  obtain ⟨c₁, hdrop⟩ := hdrop
  simp only [removeRecord, hlinks]
  exact ⟨_, bind_eq_ok.mpr ⟨c₁, hdrop, rfl⟩⟩

/-- In a cache that represents a map every lookup returns, at any time. -/
theorem Represents.getCacheARecord_total {m : LabelMap} (h : Represents c l m)
    (hhead : c.records.data 0 ≠ .freed) (label : Label) (now : ℤ) :
    ∃ c' r, getCacheARecord c label now = .ok (c', r) := by
  rcases h.get_cases label with ⟨-, hget⟩ | ⟨-, s, hs, -, hget⟩
  · exact ⟨c, none, getCacheARecord_of_miss h.inv.isInit hget⟩
  · obtain ⟨-, d, ds, -, hd, -⟩ := h.live hs
    cases hx : expired d now with
    | false => exact getCacheARecord_of_hit h.inv.isInit hget hd hx
    | true =>
        have hnf : c.records.data (endOf (l.erase s)) ≠ .freed := by
          rcases List.mem_cons.mp (endOf_mem (l := l.erase s)) with hend | hend
          · rwa [hend]
          · obtain ⟨-, d', ds', -, hd', -⟩ := h.live (List.mem_of_mem_erase hend)
            rw [hd']
            simp
        obtain ⟨c', hremove⟩ := removeRecord_total h.inv hget hnf
        refine ⟨c', none, ?_⟩
        simp [getCacheARecord, h.inv.isInit, hget, checkARecord, hd, hx, hremove, bind,
          Except.bind, pure, Except.pure]

/-- A lookup that finds the same record in a list of live records returns the same. -/
theorem lookup_of_get {c₁ : Cache} {data : Option (List RecordData)} (h : Inv c l)
    (h' : Inv c' (x :: l')) (hlive : ∀ y ∈ x :: l', labelAt c' y ≠ none)
    (hdata : c'.records.data = c.records.data) (hgetx : get c label ≠ .ok (some x))
    (hget : ∀ found, get c label = .ok found → get c' label = .ok found)
    (hlook : getCacheARecord c label now = .ok (c₁, data)) :
    ∃ c₂, getCacheARecord c' label now = .ok (c₂, data) := by
  rcases getCacheARecord_cases h hlook with ⟨hmiss, -, rfl⟩ |
    ⟨s, d, ds, hfound, hs, hd, hx, -, rfl⟩ | ⟨s, d, ds, n, p, e, hfound, hs, hd, hx, -, -, rfl⟩
  · exact ⟨c', getCacheARecord_of_miss h'.isInit (hget none hmiss)⟩
  · have hfound' := hget (some s) hfound
    have hsx : x ≠ s := by
      rintro rfl
      exact hgetx hfound
    have hd' : c'.records.data s = .live d ds := by rw [hdata, hd]
    -- the front record stays, so the record that is released is one of the list
    have hne : (x :: l').erase s ≠ [] := List.ne_nil_of_mem
      ((List.mem_erase_of_ne hsx).mpr (List.mem_cons_self ..))
    have hend := List.mem_of_mem_erase (endOf_mem_of_ne_nil hne)
    have hnf : c'.records.data (endOf ((x :: l').erase s)) ≠ .freed := by
      intro hfreed
      exact hlive _ hend (by simp [labelAt, hfreed])
    obtain ⟨c₂, hrm⟩ := removeRecord_total h' hfound' hnf
    refine ⟨c₂, ?_⟩
    simp [getCacheARecord, h'.isInit, hfound', checkARecord, hd', hx, hrm, bind, Except.bind,
      pure, Except.pure]
  · have hfound' := hget (some s) hfound
    have hd' : c'.records.data s = .live d ds := by rw [hdata, hd]
    obtain ⟨c₂, r, hlook'⟩ := getCacheARecord_of_hit h'.isInit hfound' hd' hx
    rcases getCacheARecord_cases h' hlook' with ⟨hmiss, -⟩ | ⟨s', d', ds', hs', -, hd₂, hx', -⟩ |
      ⟨s', d', ds', -, -, -, hs', -, hd₂, -, -, -, rfl⟩
    · cases hfound'.symm.trans hmiss
    · cases hfound'.symm.trans hs'
      cases hd'.symm.trans hd₂
      rw [hx] at hx'
      cases hx'
    · cases hfound'.symm.trans hs'
      cases hd'.symm.trans hd₂
      exact ⟨c₂, hlook'⟩

end Lookups

section Property

/-- Every record in the list and in the hash table holds live data. -/
def AllLive (c : Cache) : Prop :=
  (∀ s ∈ visited c, labelAt c s ≠ none) ∧
    ∀ b s, some s ∈ c.labelHash.chain b → labelAt c s ≠ none

/-- After a set call the record holds live data with its own label: the label of the call at
the front, the label from before everywhere else. -/
def OwnLabel (c c' : Cache) (op : CacheOp) (s : ℤ) : Prop :=
  labelAt c' s ≠ none ∧ labelAt c' s = if s = c'.first then some op.label else labelAt c s

/-- What a rejected set call is meant to leave behind. -/
structure KeepsSound (c c' : Cache) (op : CacheOp) : Prop where
  listed : ∀ s ∈ visited c', OwnLabel c c' op s
  nodes : ∀ b s, some s ∈ c'.labelHash.chain b → OwnLabel c c' op s
  lookups : ∀ label, label ≠ op.label → ∀ now c₁ data,
    getCacheARecord c label now = .ok (c₁, data) →
      ∃ c₂, getCacheARecord c' label now = .ok (c₂, data)

/-- The call returns and keeps the cache sound. -/
def SetKeepsSound (c : Cache) (op : CacheOp) : Prop :=
  ∃ c' r, op.exec c = .ok (c', r) ∧ KeepsSound c c' op

/-- The record that the call takes holds live data of the label that nothing releases: a
record in the list without a size, or the stale data of the next free slot. -/
def TakesLive (c : Cache) (label : Label) : Prop :=
  (∃ s, get c label = .ok (some s) ∧ c.records.size s = 0) ∨
    (get c label = .ok none ∧ labelAt c (c.stack c.stackTop) = some label)

/-- What a call does that changes neither data nor the hash nodes of other records. -/
structure Settled (c c' : Cache) (op : CacheOp) (s : ℤ) : Prop where
  pos : c'.labelHash.pos = c.labelHash.pos
  chain : ∀ b, ∃ extra, c'.labelHash.chain b = c.labelHash.chain b ++ extra ∧
    ∀ y ∈ extra, y = some s
  data : c'.records.data = c.records.data
  valid : ∀ y, y ≠ s → c'.records.valid y = c.records.valid y
  label : labelAt c s = some op.label

theorem Settled.labelAt_eq (h : Settled c c' op s) (x : ℤ) : labelAt c' x = labelAt c x :=
  labelAt_congr (by rw [h.data])

theorem Settled.get_eq (h : Settled c c' op s) (hinv : Inv c l) (hinv' : Inv c' (s :: l'))
    (hne : label ≠ op.label) {found : Option ℤ} (hget : get c label = .ok found) :
    get c' label = .ok found := by
  have hother : ∀ y, y ≠ s → c'.records.data y = c.records.data y ∧
      c'.records.valid y = c.records.valid y :=
    fun y hy => ⟨by rw [h.data], h.valid y hy⟩
  have hself : compareRecordWithLabel c'.records (some s) label = .ok false := by
    obtain ⟨d, ds, hd, hl⟩ := labelAt_eq_some.mp h.label
    refine compare_eq_false.mpr ⟨s, d, ds, rfl, hinv'.valid_of_mem (by simp), ?_, ?_⟩
    · rw [h.data, hd]
    · rw [hl]
      exact hne.symm
  obtain ⟨extra, hextra, honly⟩ := h.chain (c.labelHash.pos label)
  cases found with
  | none =>
      refine get_none_of_other hinv hinv' hget (by rw [h.pos]) ?_ hother hself
      intro y hy hys
      rw [hextra] at hy
      exact (List.mem_append.mp hy).resolve_right fun hy => hys (honly y hy)
  | some x =>
      refine get_of_other hinv hinv' hget ?_ (by rw [h.pos]) ⟨extra, hextra⟩ hother hself
      rintro rfl
      obtain ⟨-, d, ds, -, -, hd, hl, -⟩ := get_some hinv hget
      have hlabel : labelAt c x = some label := labelAt_eq_some.mpr ⟨d, ds, hd, hl⟩
      exact hne (Option.some.inj (hlabel.symm.trans h.label))

theorem Settled.keepsSound (h : Settled c c' op s) (hinv : Inv c l) (hlive : AllLive c)
    (hinv' : Inv c' (s :: l')) (hsub : l' ⊆ l) : KeepsSound c c' op := by
  have hfirst : c'.first = s := hinv'.first_eq s (by simp)
  have hown : ∀ x, labelAt c x ≠ none → OwnLabel c c' op x := by
    intro x hx
    rw [OwnLabel, h.labelAt_eq]
    refine ⟨hx, ?_⟩
    split
    · next heq => rw [heq, hfirst, h.label]
    · rfl
  have hself : labelAt c s ≠ none := by simp [h.label]
  have hlist : ∀ x ∈ s :: l', labelAt c x ≠ none := by
    intro x hx
    rcases List.mem_cons.mp hx with rfl | hx
    · exact hself
    · exact hlive.1 x (by rw [hinv.visited_eq]; exact hsub hx)
  refine ⟨fun x hx => ?_, fun b x hx => ?_, fun label hne now c₁ data hlook => ?_⟩
  · rw [hinv'.visited_eq] at hx
    exact hown x (hlist x hx)
  · obtain ⟨extra, hextra, honly⟩ := h.chain b
    rw [hextra] at hx
    rcases List.mem_append.mp hx with hx | hx
    · exact hown x (hlive.2 b x hx)
    · obtain rfl : x = s := Option.some.inj (honly _ hx)
      exact hown x hself
  · refine lookup_of_get hinv hinv' (fun y hy => ?_) h.data ?_
      (fun found hget => h.get_eq hinv hinv' hne hget) hlook
    · rw [h.labelAt_eq]
      exact hlist y hy
    · intro hget
      obtain ⟨-, d, ds, -, -, hd, hl, -⟩ := get_some hinv hget
      have hlabel : labelAt c s = some label := labelAt_eq_some.mpr ⟨d, ds, hd, hl⟩
      exact hne (Option.some.inj (hlabel.symm.trans h.label))

end Property

section Rejected

/-- A rejected set call leaves a record without a size as it is. -/
theorem storeIn_data_of_zero {z : ℕ} (hrej : op.stored = []) (hsize : c.records.size s = 0) :
    (storeIn c s op z).records.data = c.records.data := by
  simp [storeIn, withRecord, hrej, storedPtr, released, hsize]

/-- With room, and a slot that holds live data of the label, nothing is damaged. -/
theorem setKeepsSound_of_takesLive (hinv : Inv c l) (hlive : AllLive c) (hset : op.isSet = true)
    (hrej : op.stored = []) (hfull : isFull c = false)
    (hsize : (c.usedSize + 1024) % 2 ^ 64 ≤ c.maxSize) (htakes : TakesLive c op.label) :
    SetKeepsSound c op := by
  have hroom := makeRoom_of_room hfull hsize
  rcases htakes with ⟨s, hget, hzero⟩ | ⟨hmiss, htop⟩
  · obtain ⟨c₁, hplace⟩ := placeFront_of_hit hget
    obtain ⟨r, z, hexec⟩ := exec_set_of_place hinv hset hroom hplace
    rcases placeFront_cases hinv hplace with ⟨-, n, p, e, rfl, h₁⟩ | ⟨hmiss, -⟩
    · refine ⟨_, _, hexec, ?_⟩
      obtain ⟨-, d, ds, -, -, hd, hl, -⟩ := get_some hinv hget
      have hsettled : Settled c (storeIn (relink c n p s e) s op z) op s :=
        { pos := rfl
          chain := fun b => ⟨[], (List.append_nil _).symm, by simp⟩
          data := storeIn_data_of_zero (c := relink c n p s e) hrej hzero
          valid := fun y _ => rfl
          label := labelAt_eq_some.mpr ⟨d, ds, hd, hl⟩ }
      exact hsettled.keepsSound hinv hlive (h₁.withRecord _ _) List.erase_subset
    · cases hget.symm.trans hmiss
  · obtain ⟨c₁, s, hplace⟩ := placeFront_of_miss hinv hmiss (stackTop_pos hinv hfull)
    obtain ⟨r, z, hexec⟩ := exec_set_of_place hinv hset hroom hplace
    rcases placeFront_cases hinv hplace with ⟨hget, -⟩ | ⟨-, -, hins, h₁⟩
    · cases hget.symm.trans hmiss
    · refine ⟨_, _, hexec, ?_⟩
      have hzero : c₁.records.size s = 0 := by rw [hins.size, update_self]
      have hsettled : Settled c (storeIn c₁ s op z) op s :=
        { pos := hins.pos_eq
          chain := fun b => by
            change ∃ extra, c₁.labelHash.chain b = _ ∧ _
            rw [hins.table, Hashtable.setChain_chain]
            by_cases hb : b = c.labelHash.pos op.label
            · exact ⟨[some s], by rw [hb, update_self], by simp⟩
            · exact ⟨[], by rw [update_of_ne hb, List.append_nil], by simp⟩
          data := (storeIn_data_of_zero hrej hzero).trans hins.data
          valid := fun y hy => by
            change c₁.records.valid y = _
            rw [hins.valid, update_of_ne hy]
          label := by rw [hins.top.2, htop] }
      exact hsettled.keepsSound hinv hlive (h₁.withRecord _ _) (List.Subset.refl l)

/-- A call that releases a record gives no record a label. -/
theorem labelAt_released {z : ℕ} (hrej : op.stored = []) (h : labelAt c x = none) :
    labelAt (storeIn c s op z) x = none := by
  by_cases hx : x = s
  · subst hx
    simp only [labelAt, storeIn, withRecord, hrej, storedPtr, released, update_self]
    split
    · next hd =>
        split at hd
        · cases hd
        · simp [labelAt, hd] at h
    · rfl
  · rw [storeIn, labelAt_withRecord_of_ne hx]
    exact h

/-- Without room a rejected call stops, or leaves the node of a released slot behind. -/
theorem room_of_keepsSound {r : CacheResult} (hinv : Inv c l) (hs : Sound c l)
    (hset : op.isSet = true) (hrej : op.stored = []) (hexec : op.exec c = .ok (c', r))
    (hkeeps : KeepsSound c c' op) :
    isFull c = false ∧ (c.usedSize + 1024) % 2 ^ 64 ≤ c.maxSize := by
  by_contra hroom
  have hno : isFull c = true ∨ (c.usedSize + 1024) % 2 ^ 64 > c.maxSize := by
    rw [not_and_or, Bool.not_eq_false, not_le] at hroom
    exact hroom
  obtain ⟨c₀, c₁, s, z, hmake, hplace, -, rfl⟩ := exec_set_ok hset hinv.isInit hexec
  rcases l.eq_nil_or_concat' with rfl | ⟨a, t, rfl⟩
  · rw [makeRoom_nil hinv] at hmake
    split at hmake
    · cases hmake
    · next hsize =>
        cases hmake
        have hfull := of_decide_eq_true (hno.resolve_right hsize)
        rcases placeFront_cases hinv hplace with ⟨hget, -⟩ | ⟨-, -, hins, -⟩
        · cases (get_some hinv hget).1
        · have htop := hinv.stackTop_add
          have hpos := hins.top.1
          rw [hinv.length_eq] at hfull
          simp only [List.length_nil] at htop hfull
          omega
  · obtain ⟨b, hb⟩ := hs.anchored t (by simp)
    obtain ⟨l₀, h₀, hdead⟩ := makeRoom_deadNode hinv hb hno hmake
    obtain ⟨-, hnode, -⟩ := placeFront_stale_node h₀ hdead.invalid hdead.node hplace
    have hdata : labelAt c₁ t = labelAt c₀ t := by
      rcases placeFront_cases h₀ hplace with ⟨-, n, p, e, rfl, -⟩ | ⟨-, -, hins, -⟩
      · rfl
      · exact labelAt_congr (by rw [hins.data])
    exact (hkeeps.nodes b t hnode).1 (labelAt_released hrej (hdata.trans hdead.dead))

/-- With room, the record at the front is live only where the slot held live data. -/
theorem takesLive_of_keepsSound {r : CacheResult} (hinv : Inv c l) (hset : op.isSet = true)
    (hrej : op.stored = []) (hroom : makeRoom c = .ok c) (hexec : op.exec c = .ok (c', r))
    (hkeeps : KeepsSound c c' op) : TakesLive c op.label := by
  obtain ⟨c₀, c₁, s, z, hmake, hplace, -, rfl⟩ := exec_set_ok hset hinv.isInit hexec
  obtain rfl := Except.ok.inj (hroom.symm.trans hmake)
  change KeepsSound c (storeIn c₁ s op z) op at hkeeps
  have hfront : ∀ a, Inv c₁ (s :: a) → labelAt (storeIn c₁ s op z) s = some op.label := by
    intro a h₁
    have h₂ : Inv (storeIn c₁ s op z) (s :: a) := h₁.withRecord _ _
    have hown := (hkeeps.listed s (by rw [h₂.visited_eq]; simp)).2
    rwa [if_pos (h₂.first_eq s (by simp)).symm] at hown
  rcases placeFront_cases hinv hplace with ⟨hget, n, p, e, rfl, h₁⟩ | ⟨hmiss, -, hins, h₁⟩
  · refine .inl ⟨s, hget, ?_⟩
    by_contra hne
    obtain ⟨-, d, ds, -, -, hd, -⟩ := get_some hinv hget
    have hpos : 0 < c.records.size s := Nat.pos_of_ne_zero hne
    have hlabel := hfront _ h₁
    simp [labelAt, storeIn, withRecord, hrej, storedPtr, released, relink, hpos, hd,
      DataPtr.isLive] at hlabel
  · refine .inr ⟨hmiss, ?_⟩
    have hzero : c₁.records.size s = 0 := by rw [hins.size, update_self]
    rw [← hins.top.2, ← hfront _ h₁]
    exact (labelAt_congr ((congrFun (storeIn_data_of_zero hrej hzero) s).trans
      (congrFun hins.data s))).symm

/-- A rejected set call keeps the cache sound exactly when there is room and the record it
takes already holds live data of the label. -/
theorem rejected_set_iff (recordLength maxSize : ℤ) (scaled : ℕ) (ops : List CacheOp)
    (hlab : ∀ op ∈ ops, op.Labelled) (results : List CacheResult) (c : Cache)
    (h : runOps (initCache recordLength maxSize scaled) ops = .ok (c, results))
    (hlive : AllLive c) (op : CacheOp) (hset : op.isSet = true) (hrej : op.stored = []) :
    SetKeepsSound c op ↔ isFull c = false ∧ (c.usedSize + 1024) % 2 ^ 64 ≤ c.maxSize ∧
      TakesLive c op.label := by
  obtain ⟨l, hinv, hs⟩ := runOps_sound hlab h
  constructor
  · rintro ⟨c', r, hexec, hkeeps⟩
    obtain ⟨hfull, hsize⟩ := room_of_keepsSound hinv hs hset hrej hexec hkeeps
    exact ⟨hfull, hsize, takesLive_of_keepsSound hinv hset hrej (makeRoom_of_room hfull hsize)
      hexec hkeeps⟩
  · rintro ⟨hfull, hsize, htakes⟩
    exact setKeepsSound_of_takesLive hinv hlive hset hrej hfull hsize htakes

/-- A call hangs nodes into the bucket of its own label only. -/
theorem exec_chain_subset {r : CacheResult} (h : Inv c l) (hexec : op.exec c = .ok (c', r)) :
    c'.labelHash.pos = c.labelHash.pos ∧ ∀ b, b ≠ c.labelHash.pos op.label →
      c'.labelHash.chain b ⊆ c.labelHash.chain b := by
  cases exec_outcome h hexec with
  | stored c₀ c₁ s hset hroom hplace heq =>
      subst heq
      obtain ⟨k, h₀, hpos, hsub⟩ := makeRoom_rule (P := fun c₀ _ =>
        c₀.labelHash.pos = c.labelHash.pos ∧ ∀ b, c₀.labelHash.chain b ⊆ c.labelHash.chain b)
        (fun _ _ _ _ h hp he _ => by
          obtain ⟨-, -, hpos, -⟩ := he.toEvicted.table_cases h
          exact ⟨hpos.trans hp.1, fun b =>
            List.Subset.trans (he.toEvicted.chain_subset b) (hp.2 b)⟩)
        h ⟨rfl, fun b => List.Subset.refl _⟩ hroom
      rcases placeFront_cases h₀ hplace with ⟨-, n, p, e, rfl, -⟩ | ⟨-, -, hins, -⟩
      · exact ⟨hpos, fun b _ => hsub b⟩
      · refine ⟨hins.pos_eq.trans hpos, fun b hb => ?_⟩
        change c₁.labelHash.chain b ⊆ _
        rw [hins.table, Hashtable.setChain_chain, hpos, update_of_ne hb]
        exact hsub b
  | missed heq =>
      subst heq
      exact ⟨rfl, fun b _ => List.Subset.refl _⟩
  | removed hget hs hrem h₁ =>
      obtain ⟨d, ds, found, -, hreset⟩ := hrem.reset
      obtain ⟨hsub, -, hpos⟩ := resetHashNode_frame hreset
      exact ⟨hpos, fun b _ => (hsub b).subset⟩
  | moved hget hs hd heq h₁ =>
      subst heq
      exact ⟨rfl, fun b _ => List.Subset.refl _⟩

/-- A bucket that no call is about stays empty. -/
theorem runOps_chain_nil (recordLength maxSize : ℤ) (scaled : ℕ) (ops : List CacheOp) {b : ℕ}
    {results : List CacheResult}
    (hb : ∀ op ∈ ops, b ≠ (initCache recordLength maxSize scaled).labelHash.pos op.label)
    (h : runOps (initCache recordLength maxSize scaled) ops = .ok (c, results)) :
    c.labelHash.chain b = [] := by
  have hrun := run_invariant (fun c => (∃ l, Inv c l) ∧
    c.labelHash.pos = (initCache recordLength maxSize scaled).labelHash.pos ∧
      c.labelHash.chain b = []) ?_ ⟨⟨[], initCache_inv_any⟩, rfl, rfl⟩ h
  · exact hrun.2.2
  · rintro op hmem c c' r ⟨⟨l, hl⟩, hpos, hnil⟩ hexec
    obtain ⟨hpos', hsub⟩ := exec_chain_subset hl hexec
    have hne : b ≠ c.labelHash.pos op.label := by
      rw [hpos]
      exact hb op hmem
    refine ⟨(exec_inv hl hexec).2, hpos'.trans hpos, ?_⟩
    exact List.subset_nil.mp (hnil ▸ hsub b hne)

/-- The bucket of the label `a` in a table of five buckets. -/
theorem initCache_pos : (initCache 4 2000 5).labelHash.pos [97] = 2 := by decide

theorem not_setKeepsSound {r : CacheResult} (hexec : op.exec c = .ok (c', r))
    (hdead : ∃ s ∈ visited c', labelAt c' s = none) : ¬ SetKeepsSound c op := by
  rintro ⟨c₁, r₁, hexec₁, hkeeps⟩
  obtain ⟨s, hs, hnone⟩ := hdead
  cases hexec.symm.trans hexec₁
  exact (hkeeps.listed s hs).1 hnone

/-- An expired record for a new label takes an empty slot, and one for a present label
releases what the record held; looking the new label up is then undefined behaviour. -/
theorem rejected_set_damages :
    ∃ c results, runOps (initCache 4 2000 5) [.set [97] ⟨[97], blankIP, 9⟩ 1] =
        .ok (c, results) ∧ AllLive c ∧
      ¬ SetKeepsSound c (.set [98] ⟨[98], blankIP, 1⟩ 5) ∧
      ¬ SetKeepsSound c (.set [97] ⟨[97], blankIP, 1⟩ 5) ∧
      stopOf (runOps c [.set [98] ⟨[98], blankIP, 1⟩ 5, .get [98] 6]) = some .fault := by
  refine ⟨_, _, rfl, ⟨by decide, fun b s hs => ?_⟩,
    not_setKeepsSound rfl ⟨2, by decide, by decide⟩,
    not_setKeepsSound rfl ⟨1, by decide, by decide⟩, by decide⟩
  by_cases hb : b = 2
  · subst hb
    have hone : some s ∈ [some (1 : ℤ)] := hs
    obtain rfl : s = 1 := by simpa using hone
    decide
  · have hne : ∀ op ∈ [CacheOp.set [97] ⟨[97], blankIP, 9⟩ 1],
        b ≠ (initCache 4 2000 5).labelHash.pos op.label := by
        simpa [CacheOp.label, initCache_pos] using hb
    rw [runOps_chain_nil 4 2000 5 _ hne rfl] at hs
    cases hs

/-- The slot of a removed record still holds data of its label. -/
theorem rejected_set_sample :
    ∃ c results, runOps (initCache 4 2000 5)
        [.set [97] ⟨[97], blankIP, 5⟩ 1, .get [97] 7] = .ok (c, results) ∧
      SetKeepsSound c (.set [97] ⟨[97], blankIP, 1⟩ 8) := by
  refine ⟨_, _, rfl, (rejected_set_iff 4 2000 5
    [.set [97] ⟨[97], blankIP, 5⟩ 1, .get [97] 7] ?_ _ _ rfl ⟨by decide, ?_⟩
    (.set [97] ⟨[97], blankIP, 1⟩ 8) rfl (by decide)).mpr ⟨by decide, by decide, ?_⟩⟩
  · simp [CacheOp.Labelled]
  · intro b s hs
    by_cases hb : b = 2
    · subst hb
      cases hs
    · have hne : ∀ op ∈ [CacheOp.set [97] ⟨[97], blankIP, 5⟩ 1, .get [97] 7],
          b ≠ (initCache 4 2000 5).labelHash.pos op.label := by
          simpa [CacheOp.label, initCache_pos] using hb
      rw [runOps_chain_nil 4 2000 5 _ hne rfl] at hs
      cases hs
  · exact .inr ⟨rfl, by decide⟩

end Rejected

end DnsRelay.Lru
