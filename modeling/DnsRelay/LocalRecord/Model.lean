import DnsRelay.Relay.Model

/-!
# The file of local records, `local_record.c`

The file is the list of its bytes, and a position in it is the list of the bytes that
follow. It is read three times: `fgets` counts the lines, and `fscanf` then goes twice
over the pairs of an address and a name, first to count them and then to store them. The
`int` counters stay in range for files of less than `2 ^ 30` lines, and the log is left
out. What `inet_pton` makes of an address text is a parameter.
-/

namespace DnsRelay.LocalRecord

open DnsRelay.Message DnsRelay.Static DnsRelay.Relay

/-- The result of `inet_pton` for either family: the bytes that it stores when it
returns 1. -/
structure InetPton where
  v4 : Bytes → Option (Vector UInt8 4)
  v6 : Bytes → Option (Vector UInt8 16)

def newline : UInt8 := 10

/-- `isspace` of the C locale. -/
def isSpace (b : UInt8) : Bool := b == 32 || (9 ≤ b && b ≤ 13)

section Input

/-- The part of the input that `fgets` takes when it may still store `n` bytes, and what
follows it. -/
def fgets : ℕ → Bytes → Bytes × Bytes
  | 0, stream => ([], stream)
  | _ + 1, [] => ([], [])
  | n + 1, b :: stream =>
      if b = newline then ([b], stream)
      else (b :: (fgets n stream).1, (fgets n stream).2)

/-- The loop that counts the lines, with a bound on its rounds. Every round takes a byte,
and a line that is longer than the buffer counts more than once. -/
def countLoop : ℕ → Bytes → ℕ
  | 0, _ => 0
  | _ + 1, [] => 0
  | fuel + 1, stream =>
      (if (fgets 629 stream).1 = [newline] then 0 else 1) + countLoop fuel (fgets 629 stream).2

def countLines (file : Bytes) : ℕ := countLoop file.length file

/-- The C string that a conversion leaves in its array. -/
def cText (token : Bytes) : Bytes := token.takeWhile (· != 0)

/-- The conversion `%s` into an array of `size` bytes: the text, if there is one, and the
rest of the input. -/
def scanString (size : ℕ) (stream : Bytes) : Exec (Option Bytes × Bytes) :=
  let stream := stream.dropWhile isSpace
  let token := stream.takeWhile (! isSpace ·)
  if token = [] then .ok (none, stream)
  else if size ≤ token.length then .error .fault
  else .ok (some (cText token), stream.dropWhile (! isSpace ·))

/-- `fscanf(file, "%s%s", ip, name)`: the two strings when it returns 2. -/
def scanRecord (stream : Bytes) : Exec (Option (Bytes × Bytes) × Bytes) := do
  match ← scanString 32 stream with
  | (none, stream) => return (none, stream)
  | (some ip, stream) =>
      match ← scanString 513 stream with
      | (none, stream) => return (none, stream)
      | (some name, stream) => return (some (ip, name), stream)

/-- The loop of both passes: at most `n` rounds, which end after `line` records. -/
def scanLoop {σ : Type} (body : σ → Bytes → Bytes → Exec σ) : ℕ → ℕ → Bytes → σ → Exec σ
  | 0, _, _, s => .ok s
  | n + 1, line, stream, s => do
      match ← scanRecord stream with
      | (none, stream) => scanLoop body n line stream s
      | (some (ip, name), stream) =>
          let s ← body s ip name
          if line - 1 = 0 then return s else scanLoop body n (line - 1) stream s

end Input

section Records

def ipv4 : UInt8 := 4
def ipv6 : UInt8 := 6

/-- The two calls of `inet_pton` on an address text: what `IP.addr` is afterwards, and the
family that was recognised with the test of the address against zero. An address of four
bytes leaves the others as they are. -/
def parseAddress (net : InetPton) (addr : Vector UInt8 16) (ip : Bytes) :
    Vector UInt8 16 × Option (UInt8 × Bool) :=
  match net.v4 ip with
  | some bytes =>
      let addr := copyAddr addr bytes.toList
      (addr, some (ipv4, addr.toList.take 4 == List.replicate 4 0))
  | none =>
      match net.v6 ip with
      | some bytes =>
          let addr := copyAddr addr bytes.toList
          (addr, some (ipv6, addr.toList == List.replicate 16 0))
      | none => (addr, none)

/-- `v4`, `v6` and `black`. -/
structure Counts where
  v4 : ℕ
  v6 : ℕ
  black : ℕ
  deriving DecidableEq

/-- The body of the first pass. -/
def countRecord (net : InetPton) : IP × Counts → Bytes → Bytes → Exec (IP × Counts)
  | (IP, counts), ip, _ =>
      match parseAddress net IP.addr ip with
      | (addr, none) => .ok ({ IP with addr := addr }, counts)
      | (addr, some (family, zero)) =>
          .ok ({ IP with addr := addr },
            if zero then { counts with black := counts.black + 1 }
            else if family = ipv4 then { counts with v4 := counts.v4 + 1 }
            else { counts with v6 := counts.v6 + 1 })

/-- The body of the second pass; `set` is what it calls to store an address. -/
def storeRecord (set : StaticCache → Label → IP → Exec (StaticCache × Bool)) (net : InetPton) :
    IP × CacheSet → Bytes → Bytes → Exec (IP × CacheSet)
  | (IP, cacheset), ip, name =>
      match parseAddress net IP.addr ip with
      | (addr, none) => .ok ({ IP with addr := addr }, cacheset)
      | (addr, some (family, zero)) => do
          let IP := ⟨addr, family⟩
          if zero then
            let (store, _) ← set cacheset.blacklist name IP
            return (IP, { cacheset with blacklist := store })
          else if family = ipv4 then
            let (store, _) ← set cacheset.A.localStore name IP
            return (IP, { cacheset with A.localStore := store })
          else
            let (store, _) ← set cacheset.AAAA.localStore name IP
            return (IP, { cacheset with AAAA.localStore := store })

/-- `init_staticCache` behind the test of a counter. -/
def initIfPos (c : StaticCache) (size : ℕ) : StaticCache :=
  if 0 < size then initStaticCache c size (4 * size / 3) else c

/-- The initialisation between the passes. The store that the number of IPv6 records sizes
is that of the IPv4 records. -/
def initStores (cacheset : CacheSet) (counts : Counts) : CacheSet :=
  let store := initIfPos cacheset.A.localStore counts.v4
  let store := initIfPos store counts.v6
  { cacheset with
    A.localStore := store
    blacklist := initIfPos cacheset.blacklist counts.black }

/-- The first pass, from the contents of the variable `IP` on. -/
def countPass (net : InetPton) (IP : IP) (file : Bytes) : Exec (DnsRelay.IP × Counts) :=
  scanLoop (countRecord net) (countLines file * 2) (countLines file) file (IP, ⟨0, 0, 0⟩)

/-- The three passes over the file, with the call that stores an address. The variable `IP`
is not initialised before the first pass. -/
def loadWith (set : StaticCache → Label → IP → Exec (StaticCache × Bool)) (net : InetPton)
    (IP : IP) (cacheset : CacheSet) (file : Bytes) : Exec CacheSet := do
  let (IP, counts) ← countPass net IP file
  let (_, cacheset) ← scanLoop (storeRecord set net) (countLines file * 2) (countLines file) file
    (IP, initStores cacheset counts)
  return cacheset

/-- `load_local_record` on the contents of the file, if it could be opened. -/
def loadLocalRecord (net : InetPton) (IP : IP) (cacheset : CacheSet) (file : Option Bytes) :
    Exec (CacheSet × Bool) :=
  match file with
  | none => .ok (cacheset, false)
  | some file => do return (← loadWith setStaticCache net IP cacheset file, true)

end Records

end DnsRelay.LocalRecord
