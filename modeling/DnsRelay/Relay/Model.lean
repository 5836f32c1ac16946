import DnsRelay.Adapter
import DnsRelay.StaticCache

/-!
# The main loop of `main.c`

One round of the loop either sweeps the ID adapter, when `select` has timed out, or
handles a datagram of the upstream server, a datagram of a client, or both in this
order. A run is therefore any sequence of the three handlers. Each event carries what
the handler gets from outside: the datagram with its sender, and the values returned by
`clock()` and `time(NULL)`. Every `sendto` is taken to succeed, since a failure is only
logged, and a failed `recvfrom` skips the handler and is no event.
-/

namespace DnsRelay.Relay

open DnsRelay.Message DnsRelay.Adapter DnsRelay.Static DnsRelay.Lib

/-- `struct cacheCompound`. -/
structure CacheCompound where
  temp : Lru.Cache
  localStore : StaticCache

/-- `struct cacheset`. -/
structure CacheSet where
  blacklist : StaticCache
  A : CacheCompound
  AAAA : CacheCompound

/-- The variables of `main.c` whose values survive a round of the loop. -/
structure World where
  cacheset : CacheSet
  adapter : IDAdapter
  queryServer : SockaddrIn
  recvBuffer : Bytes
  question : Question
  ans : List Answer

/-- `init_query_server` with the address that `inet_pton` stores. -/
def initQueryServer (addr : UInt32) : SockaddrIn where
  family := 2
  port := UInt16.ofNat (htons 53)
  addr := addr

/-- The world after `init` when there is no file of local records, with the address of
the upstream server. The variables that `main` does not initialise are zero. -/
def booted (addr : UInt32) : World where
  cacheset := ⟨zeroed, ⟨Lru.initCache 1000 429496729 1428, zeroed⟩,
    ⟨Lru.initCache 1000 429496729 1428, zeroed⟩⟩
  adapter := ⟨fun _ => ⟨⟨⟨0, 0, 0⟩, 0, 0⟩, false, 0, List.replicate 1024 0⟩, 0, false⟩
  queryServer := initQueryServer addr
  recvBuffer := List.replicate 1024 0
  question := ⟨List.replicate maxNameLength 0, 0, 0⟩
  ans := List.replicate 20 ⟨List.replicate maxNameLength 0, ⟨Vector.replicate 16 0, 0⟩, 0, 0, 0⟩

/-- The part of a datagram that `recvfrom` delivers. -/
def received (data : Bytes) : Bytes := data.take maxDnsSize

/-- `recvfrom` into `recv_buffer`: what the datagram does not cover stays. -/
def receive (w : World) (data : Bytes) : World :=
  { w with recvBuffer := received data ++ w.recvBuffer.drop (received data).length }

section Request

/-- The ttl of an answer from a local record: one hour. -/
def localTtl : ℕ := 3600

/-- The lookup in the stores of one record type: local records come before cached ones,
and are found with their addresses and the ttl of the reply. -/
def lookUpIn (c : CacheCompound) (label : Label) (now time : ℤ) :
    Exec (CacheCompound × List (IP × ℕ)) := do
  match ← getStaticCache c.localStore label with
  | some record => return (c, (← addresses c.localStore record).map (·, localTtl))
  | none =>
      let (temp, data) ← Lru.getCacheARecord c.temp label now
      return ({ c with temp := temp },
        (data.getD []).map fun d => (d.ip, ((d.ttl - time) % 2 ^ 32).toNat))

/-- The lookup by the type of the question. -/
def lookUp (w : World) (label : Label) (now time : ℤ) : Exec (World × List (IP × ℕ)) :=
  if w.question.qtype = rrtypeA then do
    let (compound, found) ← lookUpIn w.cacheset.A label now time
    return ({ w with cacheset.A := compound }, found)
  else if w.question.qtype = rrtypeAAAA then do
    let (compound, found) ← lookUpIn w.cacheset.AAAA label now time
    return ({ w with cacheset.AAAA := compound }, found)
  else return (w, [])

/-- The loops that fill `ans` from the entries of a store. -/
def fillAnswers (question : Question) (label : Label) :
    List (IP × ℕ) → ℕ → List Answer → Exec (List Answer)
  | [], _, ans => .ok ans
  | (ip, ttl) :: found, count, ans =>
      match ans[count]? with
      | none => .error .fault
      | some a => do
          let name ← strcpy a.name label
          fillAnswers question label found (count + 1) (ans.set count
            { a with
              name := name
              address := ip
              type := question.qtype
              class_ := question.qclass
              ttl := ttl })

/-- How the handler of requests proceeds. -/
inductive Verdict
  /-- The name is on the blacklist. -/
  | blocked
  /-- A store has answers, and this is the reply built from them. -/
  | answered (reply : Bytes)
  /-- No store has an answer. -/
  | missing

/-- The statements of `handle_request` from `read_dns_questions` up to the `sendto` of
each branch. -/
def answerQuestion (w : World) (now time : ℤ) : Exec (World × Verdict) := do
  let (question, _) ← readDnsQuestions w.question w.recvBuffer
  let w := { w with question := question }
  let label ← cString question.label
  match ← getStaticCache w.cacheset.blacklist label with
  | some _ =>
      let buffer ← setHeaderFlag w.recvBuffer flagResponseNormal
      let buffer ← setHeaderRcodeNameError buffer
      return ({ w with recvBuffer := buffer }, .blocked)
  | none =>
      let (w, found) ← lookUp w label now time
      if found = [] then return (w, .missing)
      else
        let ans ← fillAnswers question label found 0 w.ans
        let (buffer, size) ← writeDnsResponseByQuery w.recvBuffer (ans.take found.length)
        let reply ← readBytes buffer 0 size.toNat
        return ({ w with recvBuffer := buffer, ans := ans }, .answered reply)

/-- The last branch of `handle_request`: forward the query under a new id, if there is
one. -/
def relayQuery (w : World) (id : ℕ) (client : SockaddrIn) (rec : ℕ) (clock : ℤ) :
    Output Datagram Stop World := do
  let buffer ← Output.lift (writeByte w.recvBuffer rec 0)
  let (adapter, newId) ← Output.lift (w.adapter.push (UInt16.ofNat id) client
    (UInt8.ofNat w.question.qtype) clock buffer)
  let w := { w with recvBuffer := buffer, adapter := adapter }
  match newId with
  | none => return w
  | some k =>
      let buffer ← Output.lift (setHeaderId buffer k)
      Output.emit ⟨.query, w.queryServer, buffer.take rec⟩
      return { w with recvBuffer := buffer }

/-- `handle_request` from `read_dns_questions` on. -/
def serveQuestion (w : World) (id : ℕ) (client : SockaddrIn) (rec : ℕ) (clock now time : ℤ) :
    Output Datagram Stop World := do
  let (w, verdict) ← Output.lift (answerQuestion w now time)
  match verdict with
  | .blocked =>
      Output.emit ⟨.server, client, w.recvBuffer.take rec⟩
      return w
  | .answered reply =>
      Output.emit ⟨.server, client, reply⟩
      return w
  | .missing => relayQuery w id client rec clock

/-- The reply to a message that is not a query. -/
def refuse (w : World) (client : SockaddrIn) (rec : ℕ) : Output Datagram Stop World := do
  let buffer ← Output.lift (setHeaderFlag w.recvBuffer flagResponseNormal)
  let buffer ← Output.lift (setHeaderRcodeRefused buffer)
  Output.emit ⟨.server, client, buffer.take rec⟩
  return { w with recvBuffer := buffer }

/-- `handle_request`. After the refusal the handler goes on with the question. -/
def handleRequest (w : World) (client : SockaddrIn) (data : Bytes) (clock now time : ℤ) :
    Output Datagram Stop World := do
  let w := receive w data
  let header ← Output.lift (readDnsHeader w.recvBuffer)
  let w ← if header.flags ≠ htons flagQuery then refuse w client (received data).length
    else pure w
  serveQuestion w header.id client (received data).length clock now time

end Request

section Relay

/-- The length of `tmp_ans_data`. -/
def tmpAnsData : ℕ := 10

/-- The caching of the answers of a reply, by the type of the query they belong to. -/
def cacheAnswers (w : World) (type : UInt8) (now time : ℤ) : Exec World :=
  if type.toNat = rrtypeA ∨ type.toNat = rrtypeAAAA then do
    let (ans, ansNum) ← readDnsAnswers w.ans w.recvBuffer
    let w := { w with ans := ans }
    if 0 < ansNum then
      let (question, _) ← readDnsQuestion w.question w.recvBuffer dnsHeaderSize
      let w := { w with question := question }
      if tmpAnsData < ansNum then .error .fault
      else
        let label ← cString question.label
        let data := (ans.take ansNum).map fun a => ⟨label, a.address, now + a.ttl⟩
        if type.toNat = rrtypeA then
          let (temp, _) ← Lru.setCacheAMultiRecord w.cacheset.A.temp label data time
          return { w with cacheset.A.temp := temp }
        else
          let (temp, _) ← Lru.setCacheAMultiRecord w.cacheset.AAAA.temp label data time
          return { w with cacheset.AAAA.temp := temp }
    else return w
  else return w

/-- `handle_relay`. The sender's address goes to `query_server`. -/
def handleRelay (w : World) (sender : SockaddrIn) (data : Bytes) (now time : ℤ) :
    Output Datagram Stop World := do
  let w := { receive w data with queryServer := sender }
  let header ← Output.lift (readDnsHeader w.recvBuffer)
  match ← Output.lift (w.adapter.get (toShort header.id)) with
  | none => return w
  | some info =>
      let w ← Output.lift (cacheAnswers w info.type now time)
      let buffer ← Output.lift (setHeaderId w.recvBuffer info.oldId.toNat)
      Output.emit ⟨.server, info.addr, buffer.take (received data).length⟩
      let adapter ← Output.lift (w.adapter.pop (toShort header.id))
      return { w with recvBuffer := buffer, adapter := adapter }

end Relay

/-- What one round of the loop may be woken up by. -/
inductive Event
  | sweep (clock : Slot → ℤ)
  | relay (sender : SockaddrIn) (data : Bytes) (now time : ℤ)
  | request (client : SockaddrIn) (data : Bytes) (clock now time : ℤ)

def step (w : World) : Event → Output Datagram Stop World
  | .sweep clock => do return { w with adapter := ← w.adapter.sweep clock }
  | .relay sender data now time => handleRelay w sender data now time
  | .request client data clock now time => handleRequest w client data clock now time

/-- The main loop on a sequence of events; it ends early when a handler stops. -/
def mainLoop (w : World) (events : List Event) : Output Datagram Stop World :=
  Output.run step w events

end DnsRelay.Relay
