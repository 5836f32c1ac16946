import DnsRelay.Lib.Heap
import DnsRelay.Lru.Release

/-!
# The calls of `malloc` and `free`

The functions of the cache once more, with the calls of `malloc` and `free` that they make
for the answers of a record: a block for every element and one for the label. What the model
of the cache says of a data pointer is so on a heap of blocks, and a call faults on the heap
only where the model does. So what `free_cache` leaves allocated can be counted in blocks.
-/

namespace DnsRelay.Lru

open DnsRelay.Lib DnsRelay.Hash Function

namespace Memory

/-- A computation with its calls of `malloc` and `free`. -/
abbrev Calls (α : Type) := Output (HeapCall ℤ) Stop α

/-- `realse_A_record` frees all blocks of the record. -/
def realseARecord (rs : Records) (slot : ℤ) : Calls Records :=
  ⟨[.release slot], Lru.realseARecord rs slot⟩

/-- The blocks of a chain: the first element, its label, and the other elements. -/
def chainCalls (slot : ℤ) : List RecordData → List (HeapCall ℤ)
  | [] => []
  | _ :: next => .malloc slot :: .extend slot :: next.map fun _ => .extend slot

/-- `add_A_record`; a record that still has a size is overwritten in place. -/
def addARecord (rs : Records) (slot : ℤ) (data : RecordData) (now : ℤ) : Calls (Records × ℕ) :=
  ⟨if data.ttl < now ∨ 0 < rs.size slot then [] else chainCalls slot [data],
    Lru.addARecord rs slot data now⟩

/-- `add_A_multi_record`. -/
def addAMultiRecord (rs : Records) (slot : ℤ) (data : List RecordData) (now : ℤ) :
    Calls Records :=
  ⟨chainCalls slot (data.foldl (addMultiStep now) []),
    .ok (Lru.addAMultiRecord rs slot data now)⟩

def dropRecord (c : Cache) (keyed released : ℤ) : Calls Cache := do
  let label ← Output.lift (getCacheARecordLabel c.records keyed)
  let (table, _) ←
    Output.lift (resetHashNode (compareRecordWithLabel c.records) c.labelHash label)
  let records ← realseARecord c.records released
  return { c with
    labelHash := table
    usedSize := subSize c.usedSize (c.records.size released)
    records := records }

def popBackStep (c : Cache) : Calls Cache :=
  if 0 < c.length then do
    let nextToLast := c.records.last c.last
    return cutTail (← dropRecord (retire c c.last) c.last c.last) nextToLast
  else return c

def popBackLoop : ℕ → Cache → Calls Cache
  | 0, c => pure c
  | t + 1, c => do popBackLoop t (← popBackStep c)

/-- `pop_back`. -/
def popBack (c : Cache) : Calls Cache := popBackLoop lruPopItem c

def sizeLoop : ℕ → Cache → Calls Cache
  | 0, _ => Output.lift (.error .hang)
  | fuel + 1, c =>
      if (c.usedSize + 1024) % 2 ^ 64 > c.maxSize then do sizeLoop fuel (← popBack c)
      else pure c

def makeRoom (c : Cache) : Calls Cache :=
  (if isFull c then popBack c else pure c) >>= fun c => sizeLoop (c.length + 1) c

/-- `push_front`. -/
def pushFront (c : Cache) (label : Label) : Calls (Cache × ℤ) := do
  Output.lift (placeFront (← makeRoom c) label)

/-- `remove_record`. -/
def removeRecord (c : Cache) (slot : ℤ) : Calls Cache := do
  let addr := getRecordAddr c slot
  let c := removeLinks c slot
  let c ← dropRecord c slot c.last
  return cacheStackPush { c with
    records.valid := update c.records.valid slot false
    length := c.length - 1 } addr

/-- `_get_cache_A_record`. -/
def getCacheARecord (c : Cache) (label : Label) (now : ℤ) :
    Calls (Cache × Option (List RecordData)) :=
  if c.isInit = false then return (c, none)
  else do
    match ← Output.lift (get c label) with
    | none => return (c, none)
    | some slot =>
        if ← Output.lift (checkARecord c.records slot now) then
          return (← removeRecord c slot, none)
        else
          let addr := getRecordAddr c slot
          let c := if addr ≠ c.first then moveToFront c addr else c
          return (c, some (c.records.data slot).toList)

def reserve (c : Cache) (label : Label) : Calls (Cache × ℤ) := do
  let (c, slot) ← pushFront c label
  if 0 < c.records.size slot then
    return ({ c with records := ← realseARecord c.records slot }, slot)
  else return (c, slot)

/-- `_set_cache_A_record`. -/
def setCacheARecord (c : Cache) (label : Label) (data : RecordData) (now : ℤ) :
    Calls (Cache × ℤ) :=
  if c.isInit = false then return (c, -1)
  else do
    let (c, slot) ← reserve c label
    let (records, size) ← addARecord c.records slot data now
    return ({ c with records := records }, size)

/-- `_set_cache_A_multi_record`. -/
def setCacheAMultiRecord (c : Cache) (label : Label) (data : List RecordData) (now : ℤ) :
    Calls (Cache × ℤ) :=
  if c.isInit = false then return (c, -1)
  else do
    let (c, slot) ← reserve c label
    let records ← addAMultiRecord c.records slot data now
    return ({ c with records := records }, 1)

def exec (c : Cache) : CacheOp → Calls (Cache × CacheResult)
  | .set label data now => do
      let (c, ret) ← setCacheARecord c label data now
      return (c, .stored ret)
  | .setMulti label data now => do
      let (c, ret) ← setCacheAMultiRecord c label data now
      return (c, .stored ret)
  | .get label now => do
      let (c, data) ← getCacheARecord c label now
      return (c, .got data)

section Results

/-! The results are those of the cache. -/

variable {c : Cache} {label : Label} {data : RecordData} {now : ℤ}

theorem result_dropRecord (c : Cache) (keyed released : ℤ) :
    (dropRecord c keyed released).result = Lru.dropRecord c keyed released := by
  simp only [dropRecord, Output.result_bind, Output.result_lift, Output.result_pure,
    realseARecord, Lru.dropRecord]
  rfl

theorem result_popBackStep (c : Cache) : (popBackStep c).result = Lru.popBackStep c := by
  unfold popBackStep Lru.popBackStep
  split
  · rw [Output.result_bind, result_dropRecord]
    rfl
  · rfl

theorem result_popBackLoop (t : ℕ) (c : Cache) :
    (popBackLoop t c).result = Lru.popBackLoop t c := by
  induction t generalizing c with
  | zero => rfl
  | succ t ih =>
      rw [popBackLoop, Lru.popBackLoop, Output.result_bind, result_popBackStep]
      simp only [ih]

theorem result_popBack (c : Cache) : (popBack c).result = Lru.popBack c :=
  result_popBackLoop _ c

theorem result_sizeLoop (fuel : ℕ) (c : Cache) :
    (sizeLoop fuel c).result = Lru.sizeLoop fuel c := by
  induction fuel generalizing c with
  | zero => rfl
  | succ fuel ih =>
      rw [sizeLoop, Lru.sizeLoop]
      split
      · rw [Output.result_bind, result_popBack]
        simp only [ih]
      · rfl

theorem result_makeRoom (c : Cache) : (makeRoom c).result = Lru.makeRoom c := by
  rw [makeRoom, Lru.makeRoom, Output.result_bind]
  simp only [result_sizeLoop]
  split
  · rw [result_popBack]
  · rfl

theorem result_reserve (c : Cache) (label : Label) :
    (reserve c label).result = Lru.reserve c label := by
  have hpush : (pushFront c label).result = Lru.pushFront c label := by
    rw [pushFront, Lru.pushFront, Output.result_bind, result_makeRoom]
    rfl
  rw [reserve, Lru.reserve, Output.result_bind, hpush]
  congr 1
  funext p
  obtain ⟨c, slot⟩ := p
  dsimp only
  split
  · rw [Output.result_bind]
    rfl
  · rfl

theorem result_getCacheARecord (c : Cache) (label : Label) (now : ℤ) :
    (getCacheARecord c label now).result = Lru.getCacheARecord c label now := by
  have hremove : ∀ slot, (removeRecord c slot).result = Lru.removeRecord c slot := by
    intro slot
    rw [removeRecord, Lru.removeRecord]
    simp only [Output.result_bind, result_dropRecord]
    rfl
  unfold getCacheARecord Lru.getCacheARecord
  split
  · rfl
  · rw [Output.result_bind, Output.result_lift]
    congr 1
    funext found
    cases found with
    | none => rfl
    | some slot =>
        dsimp only
        rw [Output.result_bind, Output.result_lift]
        congr 1
        funext isExpired
        cases isExpired with
        | true =>
            simp only [if_true, Output.result_bind, hremove]
            rfl
        | false => rfl

/-- A call does to the cache what it does in the model. -/
theorem result_exec (c : Cache) (op : CacheOp) : (exec c op).result = op.exec c := by
  cases op with
  | set label data now =>
      rw [exec, CacheOp.exec, Output.result_bind, setCacheARecord, Lru.setCacheARecord]
      split
      · rfl
      · simp only [Output.result_bind, result_reserve]
        rfl
  | setMulti label data now =>
      rw [exec, CacheOp.exec, Output.result_bind, setCacheAMultiRecord,
        Lru.setCacheAMultiRecord]
      split
      · rfl
      · simp only [Output.result_bind, result_reserve]
        rfl
  | get label now =>
      rw [exec, CacheOp.exec, Output.result_bind, result_getCacheARecord]
      rfl

end Results

section Tracking

/-! The heap follows the data pointers of the records. -/

/-- A live chain has a block for the label and one for every element. -/
def pointer : DataPtr → Pointer
  | .null => .null
  | .freed => .freed
  | .live _ next => .live (next.length + 1)

/-- What the data pointers of the records lead to. -/
def pointers (rs : Records) : ℤ → Pointer := fun s => pointer (rs.data s)

variable {rs rs' : Records} {c c' : Cache} {slot : ℤ} {label : Label} {now : ℤ} {tight : Prop}
  {h : Heap ℤ} {st : ℤ → Pointer} {n : ℕ}

theorem pointer_release (p : DataPtr) : pointer p.release = (pointer p).release := by
  cases p <;> rfl

theorem pointer_eq_freed {p : DataPtr} : pointer p = .freed ↔ p = .freed := by
  cases p <;> simp [pointer]

theorem isLive_of_pointer {p : DataPtr} (hp : pointer p = .live n) : p.isLive = true := by
  cases p with
  | null => cases hp
  | freed => cases hp
  | live d ds => rfl

theorem pointers_ne_live (h : (rs.data slot).isLive = false) (n : ℕ) :
    pointers rs slot ≠ .live n := by
  intro hn
  have hlive := isLive_of_pointer hn
  rw [h] at hlive
  cases hlive

theorem pointers_congr (h : rs'.data = rs.data) : pointers rs' = pointers rs := by
  funext s
  rw [pointers, h, ← pointers]

theorem pointers_update {p : DataPtr} (h : rs'.data = update rs.data slot p) :
    pointers rs' = update (pointers rs) slot (pointer p) := by
  funext s
  rw [pointers, h]
  by_cases hs : s = slot
  · subst hs
    simp
  · simp [hs, pointers]

/-- `n` more blocks for a chain. -/
theorem run_extend {α : Type} (hr : h.Reads st tight) (hk : st slot = .live n) (l : List α) :
    ∃ h', h.run Stop.fault (l.map fun _ => .extend slot) = .ok h' ∧
      h'.Reads (update st slot (.live (n + l.length))) tight := by
  induction l generalizing h st n with
  | nil => exact ⟨h, rfl, by rwa [List.length_nil, add_zero, ← hk, update_eq_self]⟩
  | cons x l ih =>
      obtain ⟨h₁, hexec, hr₁⟩ := hr.extend Stop.fault hk
      obtain ⟨h₂, hrun, hr₂⟩ := ih hr₁ (update_self ..)
      refine ⟨h₂, ?_, ?_⟩
      · rw [List.map_cons, Heap.run, hexec]
        exact hrun
      · rw [update_idem] at hr₂
        rwa [List.length_cons, Nat.add_comm l.length, ← Nat.add_assoc]

/-- A new chain for a record. -/
theorem run_chainCalls (hr : h.Reads st tight) (hk : tight → ∀ n, st slot ≠ .live n)
    (first : RecordData) (next : List RecordData) :
    ∃ h', h.run Stop.fault (chainCalls slot (first :: next)) = .ok h' ∧
      h'.Reads (update st slot (.live (next.length + 1))) tight := by
  obtain ⟨h₁, hmalloc, hr₁⟩ := hr.malloc Stop.fault hk
  obtain ⟨h₂, hextend, hr₂⟩ := hr₁.extend Stop.fault (update_self ..)
  obtain ⟨h₃, hrun, hr₃⟩ := run_extend hr₂ (update_self ..) next
  refine ⟨h₃, ?_, ?_⟩
  · rw [chainCalls, Heap.run, hmalloc]
    change h₁.run Stop.fault (.extend slot :: next.map fun _ => .extend slot) = .ok h₃
    rw [Heap.run, hextend]
    exact hrun
  · rw [update_idem, update_idem, zero_add, Nat.add_comm] at hr₃
    exact hr₃

theorem tracks_realseARecord (rs : Records) (slot : ℤ) :
    Heap.Tracks Stop.fault tight (pointers rs) (realseARecord rs slot) pointers := by
  intro h hr rs' hrs'
  by_cases hfreed : rs.data slot = .freed
  · rw [realseARecord, realseARecord_freed hfreed] at hrs'
    cases hrs'
  · rw [realseARecord, realseARecord_eq hfreed] at hrs'
    cases hrs'
    obtain ⟨h', hexec, hr', -⟩ :=
      hr.release Stop.fault (k := slot) (pointer_eq_freed.not.mpr hfreed)
    refine ⟨h', (Heap.run_single _).trans hexec, ?_⟩
    rw [pointers_update rfl, pointer_release]
    exact hr'

/-- Nothing that is live may be left behind by a new chain, if the heap is to be tight. -/
theorem tracks_addARecord (rs : Records) (slot : ℤ) (data : RecordData) (now : ℤ)
    (htight : tight → (rs.data slot).isLive = false) :
    Heap.Tracks Stop.fault tight (pointers rs) (addARecord rs slot data now)
      fun p => pointers p.1 := by
  intro h hr p hp
  have hlive : tight → ∀ n, pointers rs slot ≠ .live n := fun ht =>
    pointers_ne_live (htight ht)
  rw [addARecord, Lru.addARecord] at hp
  rw [addARecord]
  dsimp only at hp ⊢
  split at hp
  next hexpired =>
    cases hp
    rw [if_pos (.inl hexpired)]
    exact ⟨h, rfl, hr⟩
  next hexpired =>
    split at hp
    next hsize =>
      rw [if_pos (.inr hsize)]
      split at hp
      next first next hdata =>
        cases hp
        refine ⟨h, rfl, ?_⟩
        have hsame : pointers rs slot = pointer (.live data next) := by rw [pointers, hdata]; rfl
        rw [pointers_update rfl, ← hsame, update_eq_self]
        exact hr
      next => cases hp
    next hsize =>
      cases hp
      rw [if_neg (by simp [hexpired, hsize])]
      obtain ⟨h', hrun, hr'⟩ := run_chainCalls hr hlive data []
      refine ⟨h', hrun, ?_⟩
      rw [pointers_update rfl]
      exact hr'

theorem tracks_addAMultiRecord (rs : Records) (slot : ℤ) (data : List RecordData) (now : ℤ)
    (htight : tight → (rs.data slot).isLive = false) :
    Heap.Tracks Stop.fault tight (pointers rs) (addAMultiRecord rs slot data now) pointers := by
  intro h hr rs' hrs'
  have hlive : tight → ∀ n, pointers rs slot ≠ .live n := fun ht =>
    pointers_ne_live (htight ht)
  cases hrs'
  rw [addAMultiRecord, Lru.addAMultiRecord]
  cases data.foldl (addMultiStep now) [] with
  | nil => exact ⟨h, rfl, hr⟩
  | cons first next =>
      obtain ⟨h', hrun, hr'⟩ := run_chainCalls hr hlive first next
      refine ⟨h', hrun, ?_⟩
      dsimp only
      rw [pointers_update rfl]
      exact hr'

/-- The heap follows the records of a cache. -/
abbrev Follows {α : Type} (tight : Prop) (c : Cache) (x : Calls α) (cache : α → Cache) : Prop :=
  Heap.Tracks Stop.fault tight (pointers c.records) x fun a => pointers (cache a).records

theorem follows_pure {α : Type} {a : α} {cache : α → Cache}
    (hdata : (cache a).records.data = c.records.data) :
    Follows tight c (pure a) cache :=
  Heap.tracks_pure (pointers_congr hdata)

theorem data_linklistRemoveNode (c : Cache) (slot : ℤ) :
    (linklistRemoveNode c slot).records.data = c.records.data := by
  unfold linklistRemoveNode
  dsimp only
  split <;> rfl

theorem data_linkFront (c : Cache) (slot : ℤ) :
    (linkFront c slot).records.data = c.records.data := by
  unfold linkFront
  split <;> rfl

theorem data_cacheStackPush (c : Cache) (slot : ℤ) :
    (cacheStackPush c slot).records.data = c.records.data := by
  unfold cacheStackPush
  split <;> rfl

theorem data_cutTail (c : Cache) (slot : ℤ) : (cutTail c slot).records.data = c.records.data := by
  unfold cutTail
  dsimp only
  split
  · rfl
  · split <;> rfl

theorem data_removeLinks (c : Cache) (slot : ℤ) :
    (removeLinks c slot).records.data = c.records.data := by
  unfold removeLinks
  dsimp only
  split
  · rfl
  · split
    · rfl
    · exact data_linklistRemoveNode c slot

theorem data_placeFront (hp : placeFront c label = .ok (c', slot)) :
    c'.records.data = c.records.data := by
  obtain ⟨⟨table, node, isFind⟩, -, hp⟩ := Machine.bind_eq_ok.mp hp
  dsimp only at hp
  split at hp
  · split at hp
    · cases hp
    · split at hp
      · cases hp
        rfl
      · cases hp
        exact (data_linkFront ..).trans (data_linklistRemoveNode ..)
  · have hpop : (cacheStackPop { c with labelHash := table }).1.records.data =
        c.records.data := by
      unfold cacheStackPop
      split <;> rfl
    split at hp
    · cases hp
    · cases hp
      exact (data_linkFront ..).trans hpop

theorem follows_dropRecord (c : Cache) (keyed released : ℤ) :
    Follows tight c (dropRecord c keyed released) id := by
  refine (Heap.tracks_lift fun _ _ => rfl).bind fun label _ => ?_
  refine (Heap.tracks_lift fun _ _ => rfl).bind fun p _ => ?_
  exact (tracks_realseARecord c.records released).bind fun rs _ => Heap.tracks_pure rfl

theorem follows_popBackStep (c : Cache) : Follows tight c (popBackStep c) id := by
  unfold popBackStep
  split
  · have hretire : (retire c c.last).records.data = c.records.data := data_cacheStackPush _ _
    rw [Follows, ← pointers_congr hretire]
    exact (follows_dropRecord _ _ _).bind fun c₁ _ => follows_pure (data_cutTail c₁ _)
  · exact follows_pure rfl

theorem follows_popBackLoop (t : ℕ) (c : Cache) : Follows tight c (popBackLoop t c) id := by
  induction t generalizing c with
  | zero => exact follows_pure rfl
  | succ t ih => exact (follows_popBackStep c).bind fun c _ => ih c

theorem follows_sizeLoop (fuel : ℕ) (c : Cache) : Follows tight c (sizeLoop fuel c) id := by
  induction fuel generalizing c with
  | zero => exact Heap.tracks_lift nofun
  | succ fuel ih =>
      rw [sizeLoop]
      split
      · exact (follows_popBackLoop _ c).bind fun c _ => ih c
      · exact follows_pure rfl

theorem follows_makeRoom (c : Cache) : Follows tight c (makeRoom c) id := by
  have hfirst : Follows tight c (if isFull c then popBack c else pure c) id := by
    split
    · exact follows_popBackLoop _ c
    · exact follows_pure rfl
  exact hfirst.bind fun c _ => follows_sizeLoop _ c

theorem follows_reserve (c : Cache) (label : Label) :
    Follows tight c (reserve c label) Prod.fst := by
  have hpush : Follows tight c (pushFront c label) Prod.fst :=
    (follows_makeRoom c).bind fun c _ => Heap.tracks_lift fun _ hp =>
      pointers_congr (data_placeFront hp)
  refine hpush.bind fun p _ => ?_
  obtain ⟨c₁, slot⟩ := p
  dsimp only
  split
  · exact (tracks_realseARecord c₁.records slot).bind fun rs _ => Heap.tracks_pure rfl
  · exact follows_pure rfl

theorem follows_getCacheARecord (c : Cache) (label : Label) (now : ℤ) :
    Follows tight c (getCacheARecord c label now) Prod.fst := by
  have hremove : ∀ slot, Follows tight c (removeRecord c slot) id := by
    intro slot
    rw [Follows, ← pointers_congr (data_removeLinks c slot)]
    exact (follows_dropRecord _ _ _).bind fun c₁ _ => follows_pure (data_cacheStackPush _ _)
  unfold getCacheARecord
  split
  · exact follows_pure rfl
  · refine (Heap.tracks_lift fun _ _ => rfl).bind fun found _ => ?_
    cases found with
    | none => exact follows_pure rfl
    | some slot =>
        refine (Heap.tracks_lift fun _ _ => rfl).bind fun isExpired _ => ?_
        cases isExpired with
        | true => exact (hremove slot).bind fun c₁ _ => follows_pure rfl
        | false =>
            apply follows_pure
            dsimp only
            split
            · exact data_linklistRemoveNode _ _
            · rfl

/-- The heap follows every call. It stays tight if what a call stores into is not live. -/
theorem follows_exec (c : Cache) (op : CacheOp)
    (htight : tight → op.isSet = true → ∀ c₁ slot, Lru.reserve c op.label = .ok (c₁, slot) →
      (c₁.records.data slot).isLive = false) :
    Follows tight c (exec c op) Prod.fst := by
  cases op with
  | set label data now =>
      have hset : Follows tight c (setCacheARecord c label data now) Prod.fst := by
        unfold setCacheARecord
        split
        · exact follows_pure rfl
        · refine (follows_reserve c label).bind fun p hp => ?_
          obtain ⟨c₁, slot⟩ := p
          rw [result_reserve] at hp
          exact (tracks_addARecord c₁.records slot data now fun ht =>
            htight ht rfl c₁ slot hp).bind
            fun q _ => Heap.tracks_pure rfl
      exact hset.bind fun p _ => follows_pure rfl
  | setMulti label data now =>
      have hset : Follows tight c (setCacheAMultiRecord c label data now) Prod.fst := by
        unfold setCacheAMultiRecord
        split
        · exact follows_pure rfl
        · refine (follows_reserve c label).bind fun p hp => ?_
          obtain ⟨c₁, slot⟩ := p
          rw [result_reserve] at hp
          exact (tracks_addAMultiRecord c₁.records slot data now fun ht =>
            htight ht rfl c₁ slot hp).bind fun q _ => Heap.tracks_pure rfl
      exact hset.bind fun p _ => follows_pure rfl
  | get label now =>
      exact (follows_getCacheARecord c label now).bind fun p _ => follows_pure rfl

end Tracking

section Release

variable {rs rs' : Records} {c c' : Cache} {is : List ℤ} {tight : Prop}

/-- The loop of `free_cache` over the slots that are left. -/
def releaseAll (rs : Records) : List ℤ → Calls Records
  | [] => pure rs
  | i :: rest =>
      if rs.valid i then do releaseAll (← realseARecord rs i) rest
      else releaseAll rs rest

/-- `free_cache` up to the release of the arrays. -/
def freeCache (c : Cache) : Calls Cache :=
  if c.isInit then do
    let records ← releaseAll c.records ((List.range c.maxLength).map fun (i : ℕ) => (i : ℤ))
    return { c with isInit := false, records := records }
  else return c

theorem result_releaseAll (rs : Records) (is : List ℤ) :
    (releaseAll rs is).result = Lru.releaseAll rs is := by
  induction is generalizing rs with
  | nil => rfl
  | cons i rest ih =>
      rw [releaseAll, Lru.releaseAll]
      split
      · rw [Output.result_bind]
        simp only [ih]
        rfl
      · exact ih rs

theorem result_freeCache (c : Cache) : (freeCache c).result = Lru.freeCache c := by
  unfold freeCache Lru.freeCache
  split
  · rw [Output.result_bind, result_releaseAll]
    rfl
  · rfl

/-- The loop releases the valid records that it comes to. -/
theorem sent_releaseAll (h : (releaseAll rs is).result = .ok rs') :
    (releaseAll rs is).sent = (is.filter fun i => rs.valid i).map .release := by
  induction is generalizing rs with
  | nil => rfl
  | cons i rest ih =>
      rw [releaseAll] at h ⊢
      by_cases hv : rs.valid i = true
      · rw [if_pos hv] at h ⊢
        rw [List.filter_cons_of_pos hv, List.map_cons]
        cases hr : (realseARecord rs i).result with
        | error e =>
            rw [Output.bind_of_error hr] at h
            cases h
        | ok rs₁ =>
            have hvalid : rs₁.valid = rs.valid := (release_ok hr).2 ▸ rfl
            rw [Output.bind_of_ok hr] at h ⊢
            rw [ih h, hvalid]
            rfl
      · rw [if_neg hv] at h ⊢
        rw [List.filter_cons_of_neg hv]
        exact ih h

/-- `free_cache` releases the valid records below `max_length`. -/
theorem sent_freeCache (hi : c.isInit = true) (h : (freeCache c).result = .ok c') :
    (freeCache c).sent = (((List.range c.maxLength).map fun (i : ℕ) => (i : ℤ)).filter
      fun i => c.records.valid i).map .release := by
  rw [freeCache, if_pos hi] at h ⊢
  cases hloop : (releaseAll c.records
      ((List.range c.maxLength).map fun (i : ℕ) => (i : ℤ))).result with
  | error e =>
      rw [Output.bind_of_error hloop] at h
      cases h
  | ok rs =>
      rw [Output.bind_of_ok hloop]
      exact (List.append_nil _).trans (sent_releaseAll hloop)

theorem follows_freeCache (c : Cache) : Follows tight c (freeCache c) id := by
  have hloop : ∀ (is : List ℤ) (rs : Records),
      Heap.Tracks Stop.fault tight (pointers rs) (releaseAll rs is) pointers := by
    intro is
    induction is with
    | nil => exact fun rs => Heap.tracks_pure rfl
    | cons i rest ih =>
        intro rs
        rw [releaseAll]
        split
        · exact (tracks_realseARecord rs i).bind fun rs _ => ih rs
        · exact ih rs
  unfold freeCache
  split
  · exact (hloop _ _).bind fun rs _ => Heap.tracks_pure rfl
  · exact follows_pure rfl

end Release

section Runs

/-- A call, with the heap on which its calls of `malloc` and `free` are made. -/
def step (p : Cache × Heap ℤ) (op : CacheOp) : Exec ((Cache × Heap ℤ) × CacheResult) := do
  let (c, r) ← (exec p.1 op).result
  let heap ← p.2.run .fault (exec p.1 op).sent
  return ((c, heap), r)

/-- `free_cache` on the heap. -/
def finish (p : Cache × Heap ℤ) : Exec (Cache × Heap ℤ) := do
  let c ← (freeCache p.1).result
  let heap ← p.2.run .fault (freeCache p.1).sent
  return (c, heap)

/-- The cache of `init_cache`, for which nothing is allocated yet. -/
def start (recordLength maxSize : ℤ) (scaled : ℕ) : Cache × Heap ℤ :=
  (initCache recordLength maxSize scaled, Heap.empty)

variable {p q : Cache × Heap ℤ} {c c' : Cache} {l : List ℤ} {m : LabelMap} {op : CacheOp}
  {r : CacheResult} {ops : List CacheOp} {results : List CacheResult} {tight : Prop}
  {recordLength maxSize : ℤ} {scaled : ℕ}

theorem reads_start (tight : Prop) :
    (start recordLength maxSize scaled).2.Reads
      (pointers (start recordLength maxSize scaled).1.records) tight :=
  Heap.reads_empty tight

theorem step_exec (h : step p op = .ok (q, r)) : op.exec p.1 = .ok (q.1, r) := by
  obtain ⟨⟨c, r'⟩, hexec, h⟩ := Machine.bind_eq_ok.mp h
  obtain ⟨heap, -, h⟩ := Machine.bind_eq_ok.mp h
  cases h
  rwa [result_exec] at hexec

/-- A call that returns in the model of the cache returns on the heap. -/
theorem step_of_exec (hr : p.2.Reads (pointers p.1.records) tight)
    (htight : tight → op.isSet = true → ∀ c₁ slot, Lru.reserve p.1 op.label = .ok (c₁, slot) →
      (c₁.records.data slot).isLive = false)
    (h : op.exec p.1 = .ok (c', r)) :
    ∃ heap, step p op = .ok ((c', heap), r) ∧ heap.Reads (pointers c'.records) tight := by
  have hexec : (exec p.1 op).result = .ok (c', r) := (result_exec _ _).trans h
  obtain ⟨heap, hrun, hr'⟩ := follows_exec p.1 op htight p.2 hr _ hexec
  refine ⟨heap, ?_, hr'⟩
  simp only [step, hexec, hrun, bind, Except.bind]
  rfl

theorem run_exec (h : Machine.run step p ops = .ok (q, results)) :
    runOps p.1 ops = .ok (q.1, results) := by
  induction ops generalizing p results with
  | nil =>
      cases h
      rfl
  | cons op ops ih =>
      obtain ⟨p₁, r, rest, hstep, hrest, rfl⟩ := Machine.run_cons_eq_ok.mp h
      exact Machine.run_cons_eq_ok.mpr ⟨p₁.1, r, rest, step_exec hstep, ih hrest, rfl⟩

/-- A run that returns in the model of the cache returns on the heap. It stays tight if what is
stored into is never live. -/
theorem run_of_runOps (tight : Prop) (cond : Cache → CacheOp → Bool) (P : Cache → Prop)
    (hstep : ∀ c op c' r, P c → cond c op = true → op.exec c = .ok (c', r) → P c')
    (htight : ∀ c op, P c → cond c op = true → tight → op.isSet = true → ∀ c₁ slot,
      Lru.reserve c op.label = .ok (c₁, slot) → (c₁.records.data slot).isLive = false)
    (hP : P p.1) (hr : p.2.Reads (pointers p.1.records) tight)
    (hc : Machine.along CacheOp.exec cond p.1 ops = true)
    (h : runOps p.1 ops = .ok (c, results)) :
    ∃ heap, Machine.run step p ops = .ok ((c, heap), results) ∧
      heap.Reads (pointers c.records) tight := by
  induction ops generalizing p results with
  | nil =>
      cases h
      exact ⟨p.2, rfl, hr⟩
  | cons op ops ih =>
      obtain ⟨c₁, r, rest, hexec, hrest, rfl⟩ := Machine.run_cons_eq_ok.mp h
      simp only [Machine.along, hexec, Bool.and_eq_true] at hc
      obtain ⟨heap₁, hfirst, hr₁⟩ := step_of_exec hr (htight _ op hP hc.1) hexec
      obtain ⟨heap, hrun, hread⟩ :=
        ih (p := (c₁, heap₁)) (hstep _ op c₁ r hP hc.1 hexec) hr₁ hc.2 hrest
      exact ⟨heap, Machine.run_cons_eq_ok.mpr ⟨_, r, rest, hfirst, hrun, rfl⟩, hread⟩

/-- The runs of the cache are its runs on the heap: no call of `malloc` or `free` stops one of
them, and the heap is as the model says. -/
theorem runOps_iff : runOps (initCache recordLength maxSize scaled) ops = .ok (c, results) ↔
    ∃ heap, Machine.run step (start recordLength maxSize scaled) ops =
        .ok ((c, heap), results) ∧ heap.Reads (pointers c.records) False := by
  constructor
  · exact run_of_runOps False (fun _ _ => true) (fun _ => True)
      (fun _ _ _ _ _ _ _ => trivial) (fun _ _ _ _ => False.elim) trivial (reads_start False)
      (Machine.along_of_mem fun _ _ _ => rfl)
  · rintro ⟨heap, hrun, -⟩
    exact run_exec hrun

/-- What `free_cache` does on a heap that reads as the records of a cache with the used slots
`l`. -/
theorem finish_of_reads (hinv : Inv p.1 l) (hhead : p.1.records.data 0 = .null)
    (hr : p.2.Reads (pointers p.1.records) tight) :
    ((∃ q, finish p = .ok q) ↔ ∀ s ∈ l, ∀ b ∈ p.2.chain s, b ∈ p.2.live) ∧
    ∀ q, finish p = .ok q → ∀ b, b ∈ q.2.live ↔ b ∈ p.2.live ∧ ∀ s ∈ l, b ∉ p.2.chain s := by
  have hmodel : (∃ q, finish p = .ok q) ↔ ∃ c', Lru.freeCache p.1 = .ok c' := by
    constructor
    · rintro ⟨q, hq⟩
      obtain ⟨c', hc', -⟩ := Machine.bind_eq_ok.mp hq
      exact ⟨c', (result_freeCache _).symm.trans hc'⟩
    · rintro ⟨c', hc'⟩
      have hfree : (freeCache p.1).result = .ok c' := (result_freeCache _).trans hc'
      obtain ⟨heap, hrun, -⟩ := follows_freeCache p.1 p.2 hr c' hfree
      exact ⟨(c', heap), by simp only [finish, hfree, hrun, bind, Except.bind]; rfl⟩
  constructor
  · rw [hmodel, hinv.freeCache_iff hhead]
    apply forall₂_congr
    intro s _
    exact pointer_eq_freed.not.symm.trans hr.freed_iff
  · intro q hq b
    obtain ⟨c', hc', hq⟩ := Machine.bind_eq_ok.mp hq
    obtain ⟨heap, hrun, hq⟩ := Machine.bind_eq_ok.mp hq
    cases hq
    rw [sent_freeCache hinv.isInit hc'] at hrun
    rw [hr.release_all ((released_slots_nodup _).filter _) hrun b]
    apply and_congr_right
    intro _
    constructor
    · intro hall s hs
      obtain ⟨hmem, hv⟩ := (hinv.released_iff (hinv.used_pos hs).ne').mpr hs
      exact hall s (List.mem_filter.mpr ⟨hmem, hv⟩)
    · intro hall s hs
      obtain ⟨hmem, hv⟩ := List.mem_filter.mp hs
      by_cases h0 : s = 0
      · -- nothing hangs from the head node
        subst h0
        rw [hr.null 0 (by rw [pointers, hhead]; rfl)]
        exact List.not_mem_nil
      · exact hall s ((hinv.released_iff h0).mp ⟨hmem, hv⟩)

/-- After any calls, `free_cache` returns exactly when every block that a record in the list
leads to is still allocated, and what it leaves allocated are the blocks that no record in the
list leads to. -/
theorem freeCache_after_runs (recordLength maxSize : ℤ) (scaled : ℕ) (ops : List CacheOp)
    (p : Cache × Heap ℤ) (results : List CacheResult)
    (h : Machine.run step (start recordLength maxSize scaled) ops = .ok (p, results)) :
    ((∃ q, finish p = .ok q) ↔ ∀ s ∈ visited p.1, ∀ b ∈ p.2.chain s, b ∈ p.2.live) ∧
    ∀ q, finish p = .ok q → ∀ b,
      b ∈ q.2.live ↔ b ∈ p.2.live ∧ ∀ s ∈ visited p.1, b ∉ p.2.chain s := by
  have hrun : runOps (initCache recordLength maxSize scaled) ops = .ok (p.1, results) := run_exec h
  obtain ⟨l, hinv, hhead⟩ := runOps_head hrun
  obtain ⟨heap, hheap, hr⟩ := runOps_iff.mp hrun
  obtain rfl : heap = p.2 :=
    congrArg (fun q => q.1.2) (Except.ok.inj (hheap.symm.trans h))
  rw [hinv.visited_eq]
  exact finish_of_reads hinv hhead hr

private def releaseIP : IP := ⟨Vector.replicate 16 0, 1⟩

/-- The lookup of an expired record has released the blocks of another one, which the list still
leads to. -/
theorem freeCache_after_runs_sample :
    ∃ p results, Machine.run step (start 4 2000 5)
        [.set [97] ⟨[97], releaseIP, 9⟩ 1, .set [98] ⟨[98], releaseIP, 5⟩ 1, .get [98] 7] =
          .ok (p, results) ∧ ¬ ∃ q, finish p = .ok q := by
  have hfacts : (Machine.run step (start 4 2000 5)
      [.set [97] ⟨[97], releaseIP, 9⟩ 1, .set [98] ⟨[98], releaseIP, 5⟩ 1, .get [98] 7]).map
        (fun p => (visited p.1.1, p.1.2.chain 1, decide (0 ∈ p.1.2.live))) =
          .ok ([1], [0, 1], false) := by
    decide +kernel
  obtain ⟨⟨p, results⟩, h, hfacts⟩ := Machine.map_eq_ok.mp hfacts
  obtain ⟨hvisited, hchain, hlive⟩ : visited p.1 = [1] ∧ p.2.chain 1 = [0, 1] ∧
      0 ∉ p.2.live := by simpa using hfacts
  refine ⟨p, results, h, fun hreturns => ?_⟩
  exact hlive ((freeCache_after_runs 4 2000 5 _ p results h).1.mp hreturns 1
    (by simp [hvisited]) 0 (by simp [hchain]))

/-- Nothing is allocated for a record outside the list, and every record in it has a size. -/
structure Tidy (c : Cache) (l : List ℤ) : Prop where
  outside : ∀ s ∉ l, (c.records.data s).isLive = false
  size_pos : ∀ s ∈ l, 0 < c.records.size s

/-- The abstract operations take no label out of the map. -/
theorem specStep_length (m : LabelMap) (op : CacheOp) :
    m.order.length ≤ (specStep m op).1.order.length := by
  have herase : ∀ label, m.order.length ≤ (label :: m.order.erase label).length := by
    intro label
    have := List.le_length_erase (a := label) (l := m.order)
    rw [List.length_cons]
    omega
  cases op with
  | set label data now => exact herase label
  | setMulti label data now => exact herase label
  | get label now =>
      by_cases hl : label ∈ m.order
      · rw [specStep, LruMap.get_of_mem hl]
        exact herase label
      · rw [specStep, LruMap.get_of_notMem hl]

theorem admissible_set (ha : admissible c op = true) (hset : op.isSet = true) :
    isFull c = false ∧ 0 < op.storedSize := by
  simp only [admissible, hset, if_true, Bool.and_eq_true, decide_eq_true_eq,
    Bool.not_eq_true'] at ha
  obtain ⟨hlab, hfull, hany⟩ := ha
  refine ⟨hfull, CacheOp.storedSize_pos.mpr ?_⟩
  obtain ⟨d, hd, hle⟩ := List.any_eq_true.mp hany
  rw [hlab.stored_eq]
  exact List.ne_nil_of_mem (List.mem_filter.mpr ⟨hd, hle⟩)

/-- What the placement of a label does to a tidy cache: the record that is put at the front has
nothing left after its release, and the others are as before. -/
theorem Tidy.place {c₁ : Cache} {label : Label} {s : ℤ} (ht : Tidy c l) (hinv : Inv c l)
    (hplace : placeFront c label = .ok (c₁, s)) :
    c₁.records.data = c.records.data ∧ (released c₁ s).isLive = false ∧
      ∃ l₁, Inv c₁ (s :: l₁) ∧ (∀ x ∈ l, x ∈ s :: l₁) ∧
        ∀ x ∈ l₁, x ≠ s ∧ 0 < c₁.records.size x := by
  rcases placeFront_cases hinv hplace with ⟨hget, next, last, e, rfl, h₁⟩ | ⟨-, hs, hins, h₁⟩
  · obtain ⟨hs, -⟩ := get_some hinv hget
    refine ⟨rfl, ?_, _, h₁, fun x hx => ?_, fun x hx => ?_⟩
    · have hsize : 0 < (relink c next last s e).records.size s := ht.size_pos s hs
      unfold released
      split
      next => rfl
      next hlive => exact Bool.eq_false_iff.mpr fun h => hlive ⟨hsize, h⟩
    · exact (List.perm_cons_erase hs).mem_iff.mp hx
    · exact ⟨fun hxs => (List.nodup_cons.mp h₁.used_nodup).1 (hxs ▸ hx),
        ht.size_pos x (List.mem_of_mem_erase hx)⟩
  · refine ⟨hins.data, ?_, _, h₁, fun x hx => List.mem_cons_of_mem _ hx, fun x hx => ?_⟩
    · have hdata : (c₁.records.data s).isLive = false := by
        rw [hins.data]
        exact ht.outside s hs
      rw [released, if_neg (by simp [hdata])]
      exact hdata
    · have hxs : x ≠ s := ne_of_mem_of_not_mem hx hs
      rw [hins.size, update_of_ne hxs]
      exact ⟨hxs, ht.size_pos x hx⟩

/-- What an admissible set call stores into is not live. -/
theorem Tidy.reserved (ht : Tidy c l) (h : Represents c l m)
    (ha : admissible c op = true) (hset : op.isSet = true) {c₁ : Cache} {slot : ℤ}
    (hres : Lru.reserve c op.label = .ok (c₁, slot)) :
    (c₁.records.data slot).isLive = false := by
  obtain ⟨c₀, c₂, z, hroom, hplace, -, rfl, -⟩ := reserve_ok hres
  rw [makeRoom_of_room (admissible_set ha hset).1 (by rw [h.room.1]; exact h.room.2)] at hroom
  cases hroom
  change (update c₂.records.data slot (released c₂ slot) slot).isLive = false
  rw [update_self]
  exact (ht.place h.inv hplace).2.1

/-- An admissible call keeps the cache tidy. -/
theorem Tidy.exec (ht : Tidy c l) (h : Represents c l m)
    (ha : admissible c op = true) (hexec : op.exec c = .ok (c', r)) :
    ∃ l', Represents c' l' (specStep m op).1 ∧ Tidy c' l' := by
  obtain ⟨c₂, r₂, hexec₂, ⟨l', hrep⟩, -⟩ := admissible_step h ha
  cases hexec.symm.trans hexec₂
  refine ⟨l', hrep, ?_⟩
  have hlist : ∀ {l₁}, Inv c' l₁ → l₁ = l' := fun h₁ =>
    h₁.visited_eq.symm.trans hrep.inv.visited_eq
  cases exec_outcome h.inv hexec with
  | stored c₀ c₁ s hset hroom hplace heq =>
      obtain ⟨hfull, hstored⟩ := admissible_set ha hset
      rw [makeRoom_of_room hfull (by rw [h.room.1]; exact h.room.2)] at hroom
      cases hroom
      obtain ⟨hdata, -, l₁, h₁, hsub, hsizes⟩ := ht.place h.inv hplace
      rw [← hlist (heq ▸ h₁.withRecord _ _), heq]
      constructor
      · intro x hx
        have hxs : x ≠ s := fun hxs => hx (by simp [hxs])
        change (update c₁.records.data s _ x).isLive = false
        rw [update_of_ne hxs, hdata]
        exact ht.outside x fun hl => hx (hsub x hl)
      · intro x hx
        change 0 < update c₁.records.size s _ x
        rcases List.mem_cons.mp hx with rfl | hx
        · rwa [update_self]
        · obtain ⟨hxs, hsize⟩ := hsizes x hx
          rwa [update_of_ne hxs]
  | missed heq =>
      rw [← hlist (heq ▸ h.inv), heq]
      exact ht
  | @removed s _ hs _ hinv =>
      exfalso
      have hlen := congrArg List.length hrep.keys
      have hold := congrArg List.length h.keys
      have hkept := specStep_length m op
      have hpos := List.length_pos_of_mem hs
      rw [← hlist hinv] at hlen
      simp only [List.length_map, List.length_erase_of_mem hs] at hlen hold
      omega
  | @moved s _ _ _ _ _ _ hs _ heq hinv =>
      have hperm := List.perm_cons_erase hs
      rw [← hlist hinv, heq]
      constructor
      · intro x hx
        exact ht.outside x fun hl => hx (hperm.mem_iff.mp hl)
      · intro x hx
        exact ht.size_pos x (hperm.mem_iff.mpr hx)

/-- An admissible run returns, and leaves a tidy cache and a tight heap. -/
theorem run_admissible (hn : 2 ≤ recordLength) (hm : 1024 ≤ maxSize)
    (h : Machine.along CacheOp.exec admissible (initCache recordLength maxSize scaled) ops =
      true) :
    ∃ c heap results l m, Machine.run step (start recordLength maxSize scaled) ops =
        .ok ((c, heap), results) ∧ Represents c l m ∧ Tidy c l ∧ c.records.data 0 = .null ∧
      heap.Reads (pointers c.records) True := by
  have hinit : Represents (initCache recordLength maxSize scaled) [] LruMap.empty :=
    initCache_represents (by omega) hm
  have hstep : ∀ c m op, (∃ l, Represents c l m) → admissible c op = true →
      ∃ c' r, op.exec c = .ok (c', r) ∧ (∃ l', Represents c' l' (specStep m op).1) ∧
        r.answer = (specStep m op).2 := by
    intro c m op hr ha
    obtain ⟨l, hr⟩ := hr
    exact admissible_step hr ha
  obtain ⟨c, results, hrun, -⟩ :=
    Machine.run_simulates (fun c m => ∃ l, Represents c l m) hstep ⟨[], hinit⟩ h
  have hkeep : ∀ c op c' r, (∃ l m, Represents c l m ∧ Tidy c l) → admissible c op = true →
      op.exec c = .ok (c', r) → ∃ l m, Represents c' l m ∧ Tidy c' l := by
    rintro c op c' r ⟨l, m, hrep, htidy⟩ ha hexec
    obtain ⟨l', hrep', htidy'⟩ := htidy.exec hrep ha hexec
    exact ⟨l', _, hrep', htidy'⟩
  have hstart : ∃ l m, Represents (initCache recordLength maxSize scaled) l m ∧
      Tidy (initCache recordLength maxSize scaled) l :=
    ⟨[], _, hinit, fun s _ => rfl, nofun⟩
  obtain ⟨l, m, hrep, htidy⟩ := Machine.run_invariant_along _ hkeep hstart h hrun
  obtain ⟨heap, hheap, hr⟩ := run_of_runOps (p := start recordLength maxSize scaled) True _ _
    hkeep (by
      rintro c op ⟨l, m, hrep, htidy⟩ ha - hset c₁ slot hres
      exact htidy.reserved hrep ha hset hres) hstart (reads_start True) h hrun
  obtain ⟨-, -, hhead⟩ := runOps_head hrun
  exact ⟨c, heap, results, l, m, hheap, hrep, htidy, hhead, hr⟩

/-- After that `free_cache` takes back every block. -/
theorem Tidy.finish (ht : Tidy p.1 l) (h : Represents p.1 l m) (hhead : p.1.records.data 0 = .null)
    (hr : p.2.Reads (pointers p.1.records) True) :
    ∃ q, finish p = .ok q ∧ q.2.live = ∅ := by
  obtain ⟨hreturns, hleft⟩ := finish_of_reads h.inv hhead hr
  have hlive : ∀ s ∈ l, ∀ b ∈ p.2.chain s, b ∈ p.2.live := by
    intro s hs b hb
    obtain ⟨-, d, ds, -, hd, -⟩ := h.live hs
    exact hr.live s (ds.length + 1) (by rw [pointers, hd]; rfl) b hb
  obtain ⟨q, hq⟩ := hreturns.mpr hlive
  refine ⟨q, hq, Finset.eq_empty_of_forall_notMem ?_⟩
  intro b hb
  obtain ⟨hb, hother⟩ := (hleft q hq b).mp hb
  -- the heap is tight, so the block hangs on a slot, and nothing hangs outside the list
  obtain ⟨s, hs⟩ := hr.held trivial b hb
  have hout : s ∉ l := fun hl => hother s hl hs
  cases hst : pointers p.1.records s with
  | null => simp [hr.null s hst] at hs
  | freed => exact (hr.freed s hst).2 b hs hb
  | live n => exact pointers_ne_live (ht.outside s hout) n hst

/-- After every admissible run `free_cache` returns and no block is left: everything that was
allocated has been freed, once. -/
theorem freeCache_complete (recordLength maxSize : ℤ) (scaled : ℕ) (hn : 2 ≤ recordLength)
    (hm : 1024 ≤ maxSize) (ops : List CacheOp)
    (h : Machine.along CacheOp.exec admissible (initCache recordLength maxSize scaled) ops =
      true) :
    ∃ p results q, Machine.run step (start recordLength maxSize scaled) ops =
        .ok (p, results) ∧ finish p = .ok q ∧ q.2.live = ∅ := by
  obtain ⟨c, heap, results, l, m, hrun, hrep, htidy, hhead, hr⟩ := run_admissible hn hm h
  obtain ⟨q, hq, hlive⟩ := Tidy.finish (p := (c, heap)) htidy hrep hhead hr
  exact ⟨(c, heap), results, q, hrun, hq, hlive⟩

/-- Two labels, one of them set twice. -/
theorem freeCache_complete_sample :
    ∃ p results q, Machine.run step (start 4 2000 5)
        [.set [97] ⟨[97], releaseIP, 9⟩ 1, .set [98] ⟨[98], releaseIP, 5⟩ 1, .get [97] 2,
          .set [98] ⟨[98], releaseIP, 6⟩ 3] = .ok (p, results) ∧
      finish p = .ok q ∧ q.2.live = ∅ :=
  freeCache_complete 4 2000 5 (by decide) (by decide) _ (by decide)

end Runs

end Memory

end DnsRelay.Lru
