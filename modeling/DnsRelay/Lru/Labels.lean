import DnsRelay.Lru.Invariant

/-!
# The labels of stored records

What a lookup sees of a record is the label of its first element and the bucket its node
hangs in. A set call gives the record it reserves the label of the call when it stores
anything, and hangs the node of a new record into the bucket of that label.
-/

namespace DnsRelay.Lru

open DnsRelay.Hash DnsRelay.Lib.LinkedList DnsRelay.Lib.Machine Function

variable {c c' : Cache} {l : List ℤ} {s t x : ℤ} {label : Label} {now : ℤ}

/-- Every element handed to a set call carries the label of the call. -/
def CacheOp.Labelled : CacheOp → Prop
  | set label data _ => data.label = label
  | setMulti label data _ => ∀ d ∈ data, d.label = label
  | get _ _ => True

/-- An address for the elements of concrete runs. -/
def blankIP : IP := ⟨Vector.replicate 16 0, 1⟩

/-- The label of the first stored element. -/
def labelAt (c : Cache) (s : ℤ) : Option Label :=
  match c.records.data s with
  | .live d _ => some d.label
  | _ => none

theorem labelAt_eq_some : labelAt c s = some label ↔
    ∃ d ds, c.records.data s = .live d ds ∧ d.label = label := by
  unfold labelAt
  cases c.records.data s <;> simp

theorem labelAt_congr (h : c'.records.data s = c.records.data s) :
    labelAt c' s = labelAt c s := by
  rw [labelAt, labelAt, h]

section Stored

/-- The elements handed to a set call. -/
def CacheOp.elements : CacheOp → List RecordData
  | set _ data _ => [data]
  | setMulti _ data _ => data
  | get _ _ => []

/-- The elements of a set call that are not expired, in order. -/
def CacheOp.unexpired (op : CacheOp) : List RecordData :=
  op.elements.filter fun d => op.now ≤ d.ttl

theorem CacheOp.Labelled.elements_label {op : CacheOp} (h : op.Labelled) :
    ∀ d ∈ op.elements, d.label = op.label := by
  cases op with
  | get label now => simp [CacheOp.elements]
  | set label data now =>
      intro d hd
      rw [List.mem_singleton.mp hd]
      exact h
  | setMulti label data now => exact h

/-- Sharing the label of the first element changes nothing when all labels agree. -/
theorem foldl_addMultiStep {data chain : List RecordData}
    (h : ∀ d ∈ chain ++ data, d.label = label) :
    data.foldl (addMultiStep now) chain = chain ++ data.filter fun d => now ≤ d.ttl := by
  induction data generalizing chain with
  | nil => simp
  | cons d data ih =>
      rw [List.foldl_cons]
      by_cases hd : now ≤ d.ttl
      · have hstep : addMultiStep now chain d = chain ++ [d] := by
          cases chain with
          | nil => simp [addMultiStep, not_lt.mpr hd]
          | cons first next =>
              have hlabel : first.label = d.label :=
                (h first (by simp)).trans (h d (by simp)).symm
              simp [addMultiStep, not_lt.mpr hd, hlabel]
        rw [hstep, ih (by simpa using h)]
        simp [hd]
      · have hstep : addMultiStep now chain d = chain := by
          simp [addMultiStep, not_le.mp hd]
        rw [hstep, ih fun e he => h e (by
          rcases List.mem_append.mp he with he | he <;> simp [he])]
        simp [hd]

/-- A single element is stored unless it has expired. -/
theorem CacheOp.stored_set (label : Label) (data : RecordData) (now : ℤ) :
    (CacheOp.set label data now).stored = (CacheOp.set label data now).unexpired := by
  by_cases hx : data.ttl < now
  · simp [CacheOp.stored, CacheOp.unexpired, CacheOp.elements, CacheOp.now, hx, not_le.mpr hx]
  · simp [CacheOp.stored, CacheOp.unexpired, CacheOp.elements, CacheOp.now, hx, not_lt.mp hx]

/-- A set call stores exactly the elements that are not expired. -/
theorem CacheOp.Labelled.stored_eq {op : CacheOp} (h : op.Labelled) :
    op.stored = op.unexpired := by
  cases op with
  | get label now => rfl
  | set label data now => exact CacheOp.stored_set label data now
  | setMulti label data now =>
      have hlabel : ∀ d ∈ data, d.label = label := h
      exact foldl_addMultiStep (by simpa using hlabel)

theorem CacheOp.Labelled.stored_label {op : CacheOp} (h : op.Labelled) {first : RecordData}
    {next : List RecordData} (hs : op.stored = first :: next) : first.label = op.label := by
  have hmem : first ∈ op.unexpired := by
    rw [← h.stored_eq, hs]
    simp
  exact h.elements_label first (List.mem_filter.mp hmem).1

end Stored

/-- A node of the slot hangs in the bucket of its own label. -/
def Placed (c : Cache) (s : ℤ) : Prop :=
  ∀ label, labelAt c s = some label → some s ∈ c.labelHash.chain (c.labelHash.pos label)

section Insert

variable {op : CacheOp} {z : ℕ}

theorem labelAt_withRecord_of_ne {y : DataPtr} (hx : x ≠ s) :
    labelAt (withRecord c s y z) x = labelAt c x :=
  labelAt_congr (by simp [withRecord, hx])

/-- After a set call the record has the label of the call, or what it had when nothing
was stored. -/
theorem labelAt_storedPtr (hop : op.Labelled)
    (h : labelAt (withRecord c s (storedPtr c s op.stored) z) s = some label) :
    label = op.label ∨ labelAt c s = some label := by
  obtain ⟨d, ds, hd, rfl⟩ := labelAt_eq_some.mp h
  simp only [withRecord, update_self] at hd
  cases hst : op.stored with
  | nil =>
      simp only [hst, storedPtr, released] at hd
      split at hd
      · cases hd
      · exact .inr (labelAt_eq_some.mpr ⟨d, ds, hd, rfl⟩)
  | cons first next =>
      simp only [hst, storedPtr] at hd
      cases hd
      exact .inl (hop.stored_label hst)

/-- Storing into a record of the call's own label gives no record a new label. -/
theorem labelAt_of_hit (hop : op.Labelled) (hs : labelAt c s = some op.label)
    (h : labelAt (withRecord c s (storedPtr c s op.stored) z) x = some label) :
    labelAt c x = some label := by
  by_cases hx : x = s
  · subst hx
    rcases labelAt_storedPtr hop h with rfl | hl
    · exact hs
    · exact hl
  · rwa [labelAt_withRecord_of_ne hx] at h

/-- The cache after a set call has stored its elements in the record `s`. -/
def storeIn (c : Cache) (s : ℤ) (op : CacheOp) (z : ℕ) : Cache :=
  withRecord c s (storedPtr c s op.stored) z

theorem storeIn_data_self {first : RecordData} {next : List RecordData}
    (hs : op.stored = first :: next) : (storeIn c s op z).records.data s = .live first next := by
  simp [storeIn, withRecord, hs, storedPtr]

theorem Inserted.labelAt_other (hins : Inserted c c' op.label s) (hx : x ≠ s) :
    labelAt (storeIn c' s op z) x = labelAt c x := by
  rw [storeIn, labelAt_withRecord_of_ne hx]
  exact labelAt_congr (by rw [hins.data])

theorem Inserted.labelAt_self (hins : Inserted c c' op.label s) (hop : op.Labelled)
    (hl : labelAt (storeIn c' s op z) s = some label) :
    label = op.label ∨ labelAt c s = some label := by
  have hsame : labelAt c' s = labelAt c s := labelAt_congr (by rw [hins.data])
  rw [← hsame]
  exact labelAt_storedPtr hop hl

theorem Inserted.pos_eq (hins : Inserted c c' op.label s) :
    (storeIn c' s op z).labelHash.pos = c.labelHash.pos := by
  change c'.labelHash.pos = _
  rw [hins.table, Hashtable.setChain_pos]

theorem Inserted.mem_chain_iff (hins : Inserted c c' op.label s) {b : ℕ} (hx : x ≠ s) :
    some x ∈ (storeIn c' s op z).labelHash.chain b ↔ some x ∈ c.labelHash.chain b := by
  change some x ∈ c'.labelHash.chain b ↔ _
  rw [hins.table, Hashtable.setChain_chain]
  by_cases hb : b = c.labelHash.pos op.label
  · subst hb
    simp [hx]
  · rw [update_of_ne hb]

theorem Inserted.self_mem_chain (hins : Inserted c c' op.label s) :
    some s ∈ (storeIn c' s op z).labelHash.chain (c.labelHash.pos op.label) := by
  change some s ∈ c'.labelHash.chain _
  rw [hins.table, Hashtable.setChain_chain, update_self]
  simp

end Insert

section Chains

variable {P : List RecordData → Prop}

/-- Every chain of answers that a record leads to satisfies `P`, whether the record is in
use or not. -/
def Chains (c : Cache) (P : List RecordData → Prop) : Prop := ∀ s, P (c.records.data s).toList

theorem Chains.congr (h : Chains c P) (hd : c'.records.data = c.records.data) :
    Chains c' P := by
  intro s
  rw [hd]
  exact h s

/-- Replacing what one record leads to. -/
theorem Chains.update {y : DataPtr} (h : Chains c P)
    (hd : c'.records.data = update c.records.data s y) (hy : P y.toList) : Chains c' P := by
  intro x
  rw [hd]
  by_cases hx : x = s
  · rw [hx, update_self]
    exact hy
  · rw [update_of_ne hx]
    exact h x

/-- A released record leads to nothing, any other one to what it led to. -/
theorem Chains.released (hnil : P []) (h : Chains c P) {b : Prop} [Decidable b] :
    P (if b then DataPtr.freed else c.records.data s).toList := by
  split
  · exact hnil
  · exact h s

theorem Chains.storedPtr {op : CacheOp} (hnil : P []) (h : Chains c P)
    (hstored : op.stored ≠ [] → P op.stored) : P (storedPtr c s op.stored).toList := by
  cases hst : op.stored with
  | nil => exact h.released hnil
  | cons first next =>
      have hp := hstored (by simp [hst])
      rwa [hst] at hp

/-- A call brings in no chain but the one it stores. -/
theorem exec_chains {op : CacheOp} {r : CacheResult} (hinv : Inv c l) (hnil : P [])
    (h : Chains c P) (hstored : op.stored ≠ [] → P op.stored)
    (hexec : op.exec c = .ok (c', r)) : Chains c' P := by
  cases exec_outcome hinv hexec with
  | stored c₀ c₁ s hset hroom hplace heq =>
      obtain ⟨k, h₀, hc₀⟩ := makeRoom_rule (P := fun c₀ _ => Chains c₀ P)
        (fun _ _ _ _ _ hp he _ => hp.update he.data hnil) hinv h hroom
      have hc₁ : Chains c₁ P := by
        rcases placeFront_cases h₀ hplace with ⟨-, n, p, e, rfl, -⟩ | ⟨-, -, hins, -⟩
        · exact hc₀.congr rfl
        · exact hc₀.congr hins.data
      subst heq
      exact hc₁.update rfl (hc₁.storedPtr hnil hstored)
  | missed heq =>
      subst heq
      exact h
  | removed hget hs hrem h₁ => exact h.update hrem.data (h.released hnil)
  | moved hget hs hd heq h₁ =>
      subst heq
      exact h.congr rfl

end Chains

section Contents

variable {P : RecordData → Prop}

end Contents

end DnsRelay.Lru
