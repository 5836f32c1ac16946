import DnsRelay.Lru.Model

/-!
# The static record stores of `cache.c`

The blacklist and the local records. Records are appended to an array and found
through a hash table of array indices, so `top` is the number of records. The
addresses after the first one hang from their record in the order of the calls.
-/

namespace DnsRelay.Static

open DnsRelay.Hash DnsRelay.Lru

/-- `struct static_record_data` with the addresses its `next` links lead to. -/
structure StaticRecordData where
  label : Label
  ip : IP
  next : List IP
  deriving DecidableEq

/-- `struct staticCache`. -/
structure StaticCache where
  data : List StaticRecordData
  isInit : Bool
  size : ℕ
  table : Hashtable Label ℕ

/-- A store of the zeroed `cacheset`. -/
def zeroed : StaticCache where
  data := []
  isInit := false
  size := 0
  table := ⟨fun _ => ⟨none, []⟩, hashLabel, 0⟩

/-- `init_staticCache`: `scaled` is the truncated quotient `size / 0.75` handed to the hash
table. -/
def initStaticCache (c : StaticCache) (size scaled : ℕ) : StaticCache :=
  if c.isInit then c else ⟨[], true, size, initHashtable hashLabel scaled⟩

/-- `compare_static_record_data_with_label`. -/
def compareStatic (data : List StaticRecordData) (record : Option ℕ) (label : Label) :
    Exec Bool :=
  match record.bind (data[·]?) with
  | some d => .ok (d.label == label)
  | none => .error .fault

/-- `get_static_cache`: the index of the record, or NULL. -/
def getStaticCache (c : StaticCache) (label : Label) : Exec (Option ℕ) :=
  if c.isInit then do
    let (node, isFind) ← getHashnode (compareStatic c.data) c.table label
    return if isFind then c.table.recordAt node else none
  else return none

/-- The addresses read by following `next` from a record pointer. -/
def addresses (c : StaticCache) (record : ℕ) : Exec (List IP) :=
  match c.data[record]? with
  | some d => .ok (d.ip :: d.next)
  | none => .error .fault

/-- `set_static_cache`. Appending to a label that is already stored falls through to the
final `return false`. -/
def setStaticCache (c : StaticCache) (label : Label) (ip : IP) : Exec (StaticCache × Bool) :=
  if c.isInit then do
    match ← getStaticCache c label with
    | some record =>
        return ({ c with
          data := c.data.modify record fun d => { d with next := d.next ++ [ip] } }, false)
    | none =>
        if c.data.length = c.size then return (c, false)
        else
          let data := c.data ++ [⟨label, ip, []⟩]
          let (table, _, _) ←
            setHashnode (compareStatic data) c.table label (some c.data.length)
          return ({ c with data := data, table := table }, true)
  else return (c, false)

theorem getStaticCache_of_not_init {c : StaticCache} (h : c.isInit = false) (label : Label) :
    getStaticCache c label = .ok none := by
  simp [getStaticCache, h, pure, Except.pure]

end DnsRelay.Static
