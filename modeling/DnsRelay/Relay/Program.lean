import DnsRelay.LocalRecord.Model

/-!
# The program of `main.c`

`init` reads the command line, loads the local records and sets the caches and the address
of the upstream server. The loop then calls `select` round after round. The sockets are
taken to open and to bind, and the level of the log is left out.
-/

namespace DnsRelay.Relay

open DnsRelay.Message DnsRelay.Adapter DnsRelay.Static DnsRelay.LocalRecord DnsRelay.Lib

section CommandLine

/-- The value of the digits at the start of a text, after digits worth `n`. -/
def digits : Bytes → ℕ → ℕ
  | [], n => n
  | b :: text, n => if 48 ≤ b ∧ b ≤ 57 then digits text (10 * n + (b.toNat - 48)) else n

/-- A number as an `int`; outside of its range the behaviour is undefined. -/
def toInt (value : ℤ) : Exec ℤ :=
  if -2 ^ 31 ≤ value ∧ value < 2 ^ 31 then .ok value else .error .fault

/-- `atoi`. -/
def atoi (text : Bytes) : Exec ℤ :=
  toInt (match text.dropWhile isSpace with
    | [] => 0
    | sign :: rest =>
        if sign = 45 then -digits rest 0
        else if sign = 43 then digits rest 0
        else digits (sign :: rest) 0)

/-- The local variables of `init`: the positions of three arguments in `argv`, which are zero
when the arguments are not given, and the size of the caches. -/
structure Options where
  debugLev : ℕ
  cacheNum : ℤ
  dnsServer : ℕ
  file : ℕ
  deriving DecidableEq

/-- `-d`. -/
def optionDebug : Bytes := [45, 100]
/-- `-f`. -/
def optionFile : Bytes := [45, 102]
/-- `-s`. -/
def optionServer : Bytes := [45, 115]
/-- `-c`. -/
def optionCache : Bytes := [45, 99]

/-- The loop over the arguments from position `i` on. There are no options when it calls
`dnsExit`: a known option comes last or an option is not known. -/
def parseArguments (i : ℕ) : List Bytes → Options → Exec (Option Options)
  | [], options => .ok (some options)
  | [_], _ => .ok none
  | option :: value :: rest, options =>
      if option = optionDebug then parseArguments (i + 2) rest { options with debugLev := i + 1 }
      else if option = optionFile then parseArguments (i + 2) rest { options with file := i + 1 }
      else if option = optionServer then
        parseArguments (i + 2) rest { options with dnsServer := i + 1 }
      else if option = optionCache then do
        let cacheNum ← atoi value
        parseArguments (i + 2) rest { options with cacheNum := cacheNum }
      else .ok none

end CommandLine

section Init

/-- What `init` gets from outside: the results of `inet_pton` and of opening a file, the
truncated quotient of a length and `CACHE_FILLING_FACTOR`, and what stands in the variable
`IP` of `load_local_record`. -/
structure Environment where
  net : InetPton
  fopen : Bytes → Option Bytes
  scaled : ℤ → ℕ
  IP : IP

/-- `dnsrelay.txt`. -/
def defaultFile : Bytes := [100, 110, 115, 114, 101, 108, 97, 121, 46, 116, 120, 116]

/-- `10.3.9.4`. -/
def defaultServer : Bytes := [49, 48, 46, 51, 46, 57, 46, 52]

/-- `i == 0 ? default : argv[i]`. -/
def argument (argv : List Bytes) (i : ℕ) (default : Bytes) : Exec Bytes :=
  if i = 0 then .ok default
  else
    match argv[i]? with
    | some text => .ok text
    | none => .error .fault

/-- A cache of the zeroed `cacheset`. -/
def zeroedCache : Lru.Cache where
  records := ⟨fun _ => .null, fun _ => 0, fun _ => 0, fun _ => 0, fun _ => false⟩
  stack := fun _ => 0
  stackTop := 0
  length := 0
  maxLength := 0
  usedSize := 0
  maxSize := 0
  first := 0
  last := 0
  isInit := false
  labelHash := ⟨fun _ => ⟨none, []⟩, Lru.hashLabel, 0⟩

def zeroedSet : CacheSet := ⟨zeroed, ⟨zeroedCache, zeroed⟩, ⟨zeroedCache, zeroed⟩⟩

/-- `CACHE_INFINTE_SIZE`. -/
def cacheInfiniteSize : ℤ := 429496729

/-- `init_A_record_cache` with the size of `main.c`. The sums and conversions on the length
that leave the range of `int` are undefined behaviour. -/
def initARecordCache (scaled : ℤ → ℕ) (recordLength : ℤ) : Exec Lru.Cache :=
  let length := if recordLength ≤ 0 then Lru.lruBufferLength else recordLength
  if length + 1 < 2 ^ 31 ∧ scaled length < 2 ^ 31 then
    .ok (Lru.initCache recordLength cacheInfiniteSize (scaled length))
  else .error .fault

/-- The value of `s_addr`, whose first byte in memory is the lowest, after `inet_pton` on the
zeroed `query_server`. -/
def serverAddr (net : InetPton) (text : Bytes) : UInt32 :=
  match net.v4 text with
  | some bytes => UInt32.ofNat (bytes.toList.foldr (fun byte n => byte.toNat + 256 * n) 0)
  | none => 0

/-- `init`, from the zeroed variables on. Without a world the program has left through
`dnsExit`. -/
def init (env : Environment) (argv : List Bytes) : Exec (Option World) := do
  match ← parseArguments 1 argv.tail ⟨0, 0, 0, 0⟩ with
  | none => return none
  | some options =>
      let file ← argument argv options.file defaultFile
      let (cacheset, _) ← loadLocalRecord env.net env.IP zeroedSet (env.fopen file)
      let recordLength := if options.cacheNum = 0 then Lru.lruBufferLength else options.cacheNum
      let A ← initARecordCache env.scaled recordLength
      let AAAA ← initARecordCache env.scaled recordLength
      let server ← argument argv options.dnsServer defaultServer
      return some { booted (serverAddr env.net server) with
        cacheset := { cacheset with A.temp := A, AAAA.temp := AAAA } }

end Init

section Loop

/-- A datagram with its sender, and the clocks as its handler reads them. -/
structure Arrival where
  sender : SockaddrIn
  data : Bytes
  clock : ℤ
  now : ℤ
  time : ℤ

/-- What a socket brings in a round: it is not in the set, its `recvfrom` fails, or there is
a datagram. -/
inductive Readable
  | unset
  | failed
  | arrived (a : Arrival)

/-- One round of the loop, by what `select` returns. -/
inductive Round
  | failed
  | timeout (clock : Slot → ℤ)
  | ready (query server : Readable)

/-- The part of a round for the query socket. -/
def relayPart (w : World) : Readable → Output Datagram Stop World
  | .arrived a => handleRelay w a.sender a.data a.now a.time
  | _ => pure w

/-- The part of a round for the server socket. -/
def requestPart (w : World) : Readable → Output Datagram Stop World
  | .arrived a => handleRequest w a.sender a.data a.clock a.now a.time
  | _ => pure w

/-- The body of `while (1)`. After a timeout no socket is in the set. -/
def loopRound (w : World) : Round → Output Datagram Stop World
  | .failed => pure w
  | .timeout clock => do return { w with adapter := ← w.adapter.sweep clock }
  | .ready query server => do
      let w ← relayPart w query
      requestPart w server

/-- `main` for some number of rounds. -/
def main (env : Environment) (argv : List Bytes) (rounds : List Round) :
    Output Datagram Stop (Option World) := do
  match ← Output.lift (init env argv) with
  | none => return none
  | some w =>
      let w ← Output.run loopRound w rounds
      return some w

end Loop

end DnsRelay.Relay
