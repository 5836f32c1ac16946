import DnsRelay.Hash

/-!
# The LRU cache of `cache.c`

The records live in an array whose slot zero is the list head; links are array
indices with the sentinels `0` and `-1`. The chain of answers hanging from a
record belongs to that record alone, so its pointer is modelled by what it leads
to: nothing, released memory, or a live non-empty list. Following a pointer to
anything but a live list is undefined behaviour and stops with `Stop.fault`.
The callbacks are those of `init_A_record_cache`, and `time(NULL)` is an argument.
-/

namespace DnsRelay.Lru

open DnsRelay.Hash Function

/-- `struct record_data` without its `next` link. -/
structure RecordData where
  label : Label
  ip : IP
  ttl : ℤ
  deriving DecidableEq

/-- What `record->data` leads to. -/
inductive DataPtr
  | null
  | freed
  | live (first : RecordData) (next : List RecordData)
  deriving DecidableEq

namespace DataPtr

/-- The chain read from the pointer; only a live pointer has one. -/
def toList : DataPtr → List RecordData
  | live first next => first :: next
  | _ => []

def isLive : DataPtr → Bool
  | live _ _ => true
  | _ => false

end DataPtr

/-- The array of `struct record`, one column for each field. -/
structure Records where
  data : ℤ → DataPtr
  next : ℤ → ℤ
  last : ℤ → ℤ
  size : ℤ → ℕ
  valid : ℤ → Bool

/-- `struct link_list`. -/
structure Cache where
  records : Records
  stack : ℕ → ℤ
  stackTop : ℕ
  length : ℕ
  maxLength : ℕ
  usedSize : ℕ
  maxSize : ℕ
  first : ℤ
  last : ℤ
  isInit : Bool
  labelHash : Hashtable Label ℤ

def lruBufferLength : ℤ := 1000
def cacheSize : ℤ := 102400
def lruPopItem : ℕ := 10
def dnsCachePermanent : ℤ := 1099511627776

/-- `sizeof(struct record_data)` on x86-64. -/
def sizeofRecordData : ℕ := 64

/-- Subtraction on `size_t`. -/
def subSize (a b : ℕ) : ℕ := (a + (2 ^ 64 - b % 2 ^ 64)) % 2 ^ 64

/-- The four bytes of `n`, each the exclusive or of every fourth byte of the label. -/
def hashBytes (label : Label) : List UInt8 :=
  label.zipIdx.foldl (fun b p => b.set (p.2 % 4) (b.getD (p.2 % 4) 0 ^^^ p.1)) [0, 0, 0, 0]

/-- `_hash_label`: the bytes read as a little-endian unsigned integer. -/
def hashLabel (label : Label) : ℕ :=
  (hashBytes label).foldr (fun b n => b.toNat + 256 * n) 0

/-- `compare_record_with_label`. -/
def compareRecordWithLabel (rs : Records) (record : Option ℤ) (label : Label) : Exec Bool :=
  match record with
  | none => .error .fault
  | some slot =>
      if rs.valid slot then
        match rs.data slot with
        | .live d _ => .ok (d.label == label)
        | _ => .error .fault
      else .error .invalidRecord

/-- `get_cache_A_record_label`. -/
def getCacheARecordLabel (rs : Records) (slot : ℤ) : Exec Label :=
  match rs.data slot with
  | .live d _ => .ok d.label
  | _ => .error .fault

/-- `realse_A_record`. The pointer is left in place, so it dangles afterwards. -/
def realseARecord (rs : Records) (slot : ℤ) : Exec Records :=
  match rs.data slot with
  | .null => .ok { rs with size := update rs.size slot 0 }
  | .freed => .error .fault
  | .live _ _ =>
      .ok { rs with data := update rs.data slot .freed, size := update rs.size slot 0 }

/-- An element is expired when its time is past and it is not permanent. -/
def expired (d : RecordData) (now : ℤ) : Bool :=
  decide (d.ttl < now) && decide (d.ttl ≠ dnsCachePermanent)

/-- `check_A_record`. -/
def checkARecord (rs : Records) (slot : ℤ) (now : ℤ) : Exec Bool :=
  match rs.data slot with
  | .live d _ => .ok (expired d now)
  | _ => .error .fault

/-- `add_A_record`. -/
def addARecord (rs : Records) (slot : ℤ) (data : RecordData) (now : ℤ) :
    Exec (Records × ℕ) :=
  if data.ttl < now then .ok (rs, 0)
  else if 0 < rs.size slot then
    match rs.data slot with
    | .live _ next =>
        .ok ({ rs with data := update rs.data slot (.live data next) }, rs.size slot)
    | _ => .error .fault
  else
    let size := sizeofRecordData + (data.label.length + 1)
    .ok ({ rs with
      data := update rs.data slot (.live data [])
      size := update rs.size slot size }, size)

/-- One round of the loop of `add_A_multi_record` on the chain built so far, which is
empty until `dest` is set. Later elements share the label of the first one stored. -/
def addMultiStep (now : ℤ) (chain : List RecordData) (d : RecordData) : List RecordData :=
  if now > d.ttl then chain
  else
    match chain with
    | [] => [d]
    | first :: next => first :: (next ++ [{ d with label := first.label }])

/-- `add_A_multi_record`: `record->data` is assigned with the first element kept, so it
stays what it was when every element is expired. -/
def addAMultiRecord (rs : Records) (slot : ℤ) (data : List RecordData) (now : ℤ) : Records :=
  match data.foldl (addMultiStep now) [] with
  | [] => rs
  | first :: next =>
      { rs with
        data := update rs.data slot (.live first next)
        size := update rs.size slot (rs.size slot + (next.length + 1) * sizeofRecordData) }

/-- `init_cache` with the callbacks of `init_A_record_cache`. `scaled` is the truncated
quotient `record_length / filling_factor` handed to the hash table. -/
def initCache (recordLength maxSize : ℤ) (scaled : ℕ) : Cache :=
  let recordLength := if recordLength ≤ 0 then lruBufferLength else recordLength
  let maxSize := if maxSize ≤ 0 then cacheSize else maxSize
  { records :=
      { data := fun _ => .null
        next := update (fun _ => 0) 0 (-1)
        last := update (fun _ => 0) 0 (-1)
        size := fun _ => 0
        valid := update (fun _ => false) 0 true }
    stack := fun i => if i < recordLength.toNat then recordLength - i else 0
    stackTop := recordLength.toNat - 1
    length := 0
    maxLength := recordLength.toNat
    usedSize := 0
    maxSize := maxSize.toNat
    first := -1
    last := -1
    isInit := true
    labelHash := initHashtable hashLabel scaled }

/-- `cache_stack_pop`: the bottom entry is never handed out. -/
def cacheStackPop (c : Cache) : Cache × ℤ :=
  if 0 < c.stackTop then ({ c with stackTop := c.stackTop - 1 }, c.stack c.stackTop)
  else (c, -1)

/-- `cache_stack_push`. -/
def cacheStackPush (c : Cache) (x : ℤ) : Cache :=
  if 0 ≤ x ∧ x < c.maxLength then
    { c with stackTop := c.stackTop + 1, stack := update c.stack (c.stackTop + 1) x }
  else c

/-- `get_record_addr`, where a record pointer is already its array index. -/
def getRecordAddr (c : Cache) (slot : ℤ) : ℤ :=
  if 0 < slot ∧ slot ≤ c.maxLength then slot else -1

def linklistRemoveNode (c : Cache) (slot : ℤ) : Cache :=
  let next := c.records.next slot
  let last := c.records.last slot
  if 0 < next then
    { c with
      records.next := update c.records.next last next
      records.last := update c.records.last next last }
  else
    { c with
      last := last
      records.next := update c.records.next last (-1) }

def isFull (c : Cache) : Bool := decide (c.maxLength - 1 ≤ c.length)

/-- Unlink the hash node of one record, then account for and release the data of a
record. `pop_back` and `remove_record` both contain these statements. -/
def dropRecord (c : Cache) (keyed released : ℤ) : Exec Cache := do
  let label ← getCacheARecordLabel c.records keyed
  let (table, _) ← resetHashNode (compareRecordWithLabel c.records) c.labelHash label
  let records ← realseARecord c.records released
  return { c with
    labelHash := table
    usedSize := subSize c.usedSize (c.records.size released)
    records := records }

/-- The first statements of the loop of `pop_back`: mark a record invalid and put its
slot on the free stack. -/
def retire (c : Cache) (slot : ℤ) : Cache :=
  cacheStackPush { c with records.valid := update c.records.valid slot false } slot

/-- The last statements of the loop of `pop_back`. -/
def cutTail (c : Cache) (nextToLast : ℤ) : Cache :=
  let c : Cache := { c with
    records.next := update c.records.next nextToLast (-1)
    last := nextToLast
    length := c.length - 1 }
  if c.length = 1 then { c with first := c.last }
  else if c.length = 0 then { c with first := 0, last := 0 }
  else c

/-- One round of the loop of `pop_back`. The record is already invalid when its hash
node is looked up. -/
def popBackStep (c : Cache) : Exec Cache :=
  if 0 < c.length then do
    let nextToLast := c.records.last c.last
    return cutTail (← dropRecord (retire c c.last) c.last c.last) nextToLast
  else return c

def popBackLoop : ℕ → Cache → Exec Cache
  | 0, c => .ok c
  | t + 1, c => do popBackLoop t (← popBackStep c)

/-- `pop_back`. -/
def popBack (c : Cache) : Exec Cache := popBackLoop lruPopItem c

/-- The loop `while (used_size + 1024 > max_size) pop_back` with a bound on its rounds. -/
def sizeLoop : ℕ → Cache → Exec Cache
  | 0, _ => .error .hang
  | fuel + 1, c =>
      if (c.usedSize + 1024) % 2 ^ 64 > c.maxSize then do sizeLoop fuel (← popBack c)
      else .ok c

/-- Put a record that is in no list behind the head node. -/
def linkFront (c : Cache) (slot : ℤ) : Cache :=
  if 1 < c.length then
    { c with
      records.next := update (update c.records.next slot c.first) 0 slot
      records.last := update (update c.records.last slot 0) c.first slot
      first := slot }
  else
    { c with
      records.next := update (update c.records.next slot (-1)) 0 slot
      records.last := update c.records.last slot 0
      first := slot
      last := slot }

/-- The second half of `push_front`: find the record of a label or take a free slot for
it, and put it at the front. -/
def placeFront (c : Cache) (label : Label) : Exec (Cache × ℤ) := do
  let (table, node, isFind) ←
    setHashnode (compareRecordWithLabel c.records) c.labelHash label none
  let c : Cache := { c with labelHash := table }
  if isFind then
    match table.recordAt node with
    | none => .error .fault
    | some slot =>
        if getRecordAddr c slot = c.first then return (c, slot)
        else return (linkFront (linklistRemoveNode c slot) slot, slot)
  else
    let (c, addr) := cacheStackPop c
    if addr < 0 then .error .noRemainSpace
    else
      let c : Cache := { c with
        labelHash := c.labelHash.setRecordAt node (some addr)
        records.valid := update c.records.valid addr true
        records.size := update c.records.size addr 0
        length := c.length + 1 }
      return (linkFront c addr, addr)

/-- The first half of `push_front`: make room by length and by size. -/
def makeRoom (c : Cache) : Exec Cache :=
  (if isFull c then popBack c else .ok c) >>= fun c => sizeLoop (c.length + 1) c

/-- `push_front`: reserve the record of a label at the front of the list. -/
def pushFront (c : Cache) (label : Label) : Exec (Cache × ℤ) := do
  placeFront (← makeRoom c) label

/-- The relinking of `remove_record`, with one branch for the tail, the front and the
middle of the list. -/
def removeLinks (c : Cache) (slot : ℤ) : Cache :=
  let addr := getRecordAddr c slot
  if addr = c.last then
    { c with
      records.next := update c.records.next (c.records.last c.last) (-1)
      last := c.records.last c.last }
  else if addr = c.first then
    { c with
      records.last := update c.records.last (c.records.next c.first) 0
      records.next := update c.records.next 0 (c.records.next c.first)
      first := c.records.next c.first }
  else linklistRemoveNode c slot

/-- `remove_record`. The released record is looked up through `Cache->last` after the
links have been patched. -/
def removeRecord (c : Cache) (slot : ℤ) : Exec Cache := do
  let addr := getRecordAddr c slot
  let c := removeLinks c slot
  let c ← dropRecord c slot c.last
  return cacheStackPush { c with
    records.valid := update c.records.valid slot false
    length := c.length - 1 } addr

/-- `get`: the record pointer stored for a label. -/
def get (c : Cache) (label : Label) : Exec (Option ℤ) := do
  let (node, isFind) ← getHashnode (compareRecordWithLabel c.records) c.labelHash label
  return if isFind then c.labelHash.recordAt node else none

/-- Move a record that is not the first one to the front after a hit. -/
def moveToFront (c : Cache) (slot : ℤ) : Cache :=
  let c := linklistRemoveNode c slot
  { c with
    records.next := update (update c.records.next 0 slot) slot c.first
    records.last := update (update c.records.last slot 0) c.first slot
    first := slot }

/-- `_get_cache_A_record`. -/
def getCacheARecord (c : Cache) (label : Label) (now : ℤ) :
    Exec (Cache × Option (List RecordData)) :=
  if c.isInit = false then return (c, none)
  else do
    match ← get c label with
    | none => return (c, none)
    | some slot =>
        if ← checkARecord c.records slot now then
          return (← removeRecord c slot, none)
        else
          let addr := getRecordAddr c slot
          let c := if addr ≠ c.first then moveToFront c addr else c
          return (c, some (c.records.data slot).toList)

/-- What `_set_cache_A_record` and `_set_cache_A_multi_record` share: reserve the record
and release what it held. -/
def reserve (c : Cache) (label : Label) : Exec (Cache × ℤ) := do
  let (c, slot) ← pushFront c label
  if 0 < c.records.size slot then
    return ({ c with records := ← realseARecord c.records slot }, slot)
  else return (c, slot)

/-- `_set_cache_A_record`. -/
def setCacheARecord (c : Cache) (label : Label) (data : RecordData) (now : ℤ) :
    Exec (Cache × ℤ) :=
  if c.isInit = false then return (c, -1)
  else do
    let (c, slot) ← reserve c label
    let (records, size) ← addARecord c.records slot data now
    return ({ c with records := records }, size)

/-- `_set_cache_A_multi_record`. -/
def setCacheAMultiRecord (c : Cache) (label : Label) (data : List RecordData) (now : ℤ) :
    Exec (Cache × ℤ) :=
  if c.isInit = false then return (c, -1)
  else do
    let (c, slot) ← reserve c label
    return ({ c with records := addAMultiRecord c.records slot data now }, 1)

/-- The calls a client of the cache can make, each at its own time. -/
inductive CacheOp
  | set (label : Label) (data : RecordData) (now : ℤ)
  | setMulti (label : Label) (data : List RecordData) (now : ℤ)
  | get (label : Label) (now : ℤ)

/-- The label a call is about. -/
def CacheOp.label : CacheOp → Label
  | set label _ _ => label
  | setMulti label _ _ => label
  | get label _ => label

/-- The time at which a call is made. -/
def CacheOp.now : CacheOp → ℤ
  | set _ _ now => now
  | setMulti _ _ now => now
  | get _ now => now

/-- The chain of answers a call stores: the elements that are not expired. -/
def CacheOp.stored : CacheOp → List RecordData
  | set _ data now => if data.ttl < now then [] else [data]
  | setMulti _ data now => data.foldl (addMultiStep now) []
  | get _ _ => []

def CacheOp.isSet : CacheOp → Bool
  | get _ _ => false
  | _ => true

inductive CacheResult
  | stored (ret : ℤ)
  | got (data : Option (List RecordData))
  deriving DecidableEq

def CacheOp.exec (c : Cache) : CacheOp → Exec (Cache × CacheResult)
  | set label data now => do
      let (c, ret) ← setCacheARecord c label data now
      return (c, .stored ret)
  | setMulti label data now => do
      let (c, ret) ← setCacheAMultiRecord c label data now
      return (c, .stored ret)
  | get label now => do
      let (c, data) ← getCacheARecord c label now
      return (c, .got data)

/-- Run a sequence of calls; it returns only when every call does. -/
def runOps (c : Cache) (ops : List CacheOp) : Exec (Cache × List CacheResult) :=
  Lib.Machine.run CacheOp.exec c ops

end DnsRelay.Lru
