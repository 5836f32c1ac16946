import DnsRelay.Lib.LruMap
import DnsRelay.LocalRecord.Loading
import DnsRelay.Message.Answers
import DnsRelay.Relay.Caching

/-!
# The service of the relay

What the relay does for its clients, without buffers, lists and hash tables: some names it
knows from a file, the addresses of others it remembers for a while, and everything else it
passes on to an upstream server whose replies it hands back. The service does not evict, it
is not asked for what is out of date, and it understands every message that it has to read;
`Service.Proper` says so of a stimulus.
-/

namespace DnsRelay.Relay

open DnsRelay.Message DnsRelay.Adapter DnsRelay.LocalRecord DnsRelay.Lib Function

/-- What is known from a file: the names that are blocked, and the IPv4 addresses of names. -/
structure Directory where
  blocked : Label → Bool
  addresses : Label → List Bytes

/-- The directory of a file with these records. IPv6 addresses are not read from a file. -/
def directory (net : InetPton) (rs : List (Bytes × Bytes)) : Directory where
  blocked := fun name => !(given net .black rs name).isEmpty
  addresses := fun name => (given net .v4 rs name).map Address.bytes

/-- An address that has been learned, and the last second at which it is valid. -/
structure Learned where
  rdata : Bytes
  expiry : ℤ
  deriving DecidableEq

abbrev Memory := LruMap Label (List Learned)

/-- A query that has been passed on. -/
structure Pending where
  client : SockaddrIn
  id : ℕ
  qtype : ℕ
  start : ℤ

structure Service where
  memory : AddressType → Memory
  pending : Slot → Option Pending
  cursor : Slot
  upstream : SockaddrIn

/-- A question, under the id that its client has given it. -/
structure Inquiry where
  id : ℕ
  labels : List Bytes
  qtype : ℕ
  qclass : ℕ

/-- Records that the upstream server sends under the number of a query, and the name that was
asked for. -/
structure Report where
  slot : Slot
  labels : List Bytes
  records : List ResourceRecord

/-- What the service reacts to, with the message that says so and with the clocks. -/
inductive Stimulus
  | tick (clock : Slot → ℤ)
  | ask (client : SockaddrIn) (q : Inquiry) (message : Bytes) (clock now time : ℤ)
  | tell (sender : SockaddrIn) (r : Report) (message : Bytes) (now time : ℤ)

/-- What the service sends. -/
inductive Notice
  | nameError (client : SockaddrIn) (message : Bytes)
  | answer (client : SockaddrIn) (q : Inquiry) (records : List ResourceRecord)
  | forward (upstream : SockaddrIn) (k : Slot) (message : Bytes)
  | deliver (client : SockaddrIn) (id : ℕ) (message : Bytes)
  | expire (client : SockaddrIn)

namespace Inquiry

def name (q : Inquiry) : Label := dotted q.labels

/-- The record that answers the question with an address. -/
def record (q : Inquiry) (ttl : ℕ) (rdata : Bytes) : ResourceRecord :=
  ⟨[q.labels], q.qtype, q.qclass, ttl, rdata⟩

/-- The record for an address that was learned, with the time it has left. -/
def aged (q : Inquiry) (time : ℤ) (a : Learned) : ResourceRecord :=
  q.record (a.expiry - time).toNat a.rdata

end Inquiry

namespace Report

def name (r : Report) : Label := dotted r.labels

/-- The addresses of a report that are still valid when they are stored. -/
def learned (r : Report) (now time : ℤ) : List Learned :=
  ((addressRecords r.records).map fun a => ⟨a.rdata, now + a.ttl⟩).filter (time ≤ ·.expiry)

end Report

namespace AddressType

/-- The address type with a number. -/
def ofCode (n : ℕ) : Option AddressType :=
  if n = rrtypeA then some A else if n = rrtypeAAAA then some AAAA else none

theorem ofCode_eq_some {n : ℕ} {t : AddressType} : ofCode n = some t ↔ n = t.code := by
  constructor
  · intro h
    unfold ofCode at h
    split at h
    next hA =>
      cases h
      exact hA
    next =>
      split at h
      next hAAAA =>
        cases h
        exact hAAAA
      next => cases h
  · rintro rfl
    cases t <;> rfl

theorem ofCode_eq_none {n : ℕ} : ofCode n = none ↔ ∀ t : AddressType, n ≠ t.code := by
  rw [Option.eq_none_iff_forall_ne_some]
  exact forall_congr' fun t => ofCode_eq_some.not

end AddressType

namespace Service

variable (d : Directory) (s : Service)

/-- A query is passed on under the next number, if that is free, and dropped otherwise. -/
def forward (client : SockaddrIn) (q : Inquiry) (message : Bytes) (clock : ℤ) :
    Service × List Notice :=
  match s.pending s.cursor with
  | some _ => (s, [])
  | none =>
      ({ s with
        pending := update s.pending s.cursor (some ⟨client, q.id, q.qtype, clock⟩)
        cursor := s.cursor + 1 },
        [.forward s.upstream s.cursor message])

/-- A question is answered from memory or passed on. -/
def consult (t : AddressType) (client : SockaddrIn) (q : Inquiry) (message : Bytes)
    (clock time : ℤ) : Service × List Notice :=
  match (s.memory t).get q.name with
  | (m, some learned) =>
      ({ s with memory := update s.memory t m }, [.answer client q (learned.map (q.aged time))])
  | (_, none) => s.forward client q message clock

/-- A question for addresses of a type: the directory comes first, and it has IPv4 addresses
only. -/
def lookUp (t : AddressType) (client : SockaddrIn) (q : Inquiry) (message : Bytes)
    (clock time : ℤ) : Service × List Notice :=
  if t = .A ∧ d.addresses q.name ≠ [] then
    (s, [.answer client q ((d.addresses q.name).map (q.record localTtl))])
  else s.consult t client q message clock time

/-- The reaction to a question. -/
def ask (client : SockaddrIn) (q : Inquiry) (message : Bytes) (clock time : ℤ) :
    Service × List Notice :=
  if d.blocked q.name then (s, [.nameError client message])
  else
    match AddressType.ofCode q.qtype with
    | some t => s.lookUp d t client q message clock time
    | none => s.forward client q message clock

/-- Memory after a report on a query of some type. -/
def learn (qtype : ℕ) (r : Report) (now time : ℤ) : AddressType → Memory :=
  match AddressType.ofCode qtype with
  | some t =>
      if addressRecords r.records = [] then s.memory
      else update s.memory t ((s.memory t).set r.name (r.learned now time))
  | none => s.memory

/-- The reaction to a report: it is handed to the client who waits for it. -/
def tell (sender : SockaddrIn) (r : Report) (message : Bytes) (now time : ℤ) :
    Service × List Notice :=
  match s.pending r.slot with
  | some p =>
      ({ s with
        memory := s.learn p.qtype r now time
        pending := update s.pending r.slot none
        upstream := sender },
        [.deliver p.client p.id message])
  | none => ({ s with upstream := sender }, [])

/-- The query has waited for long enough. -/
def overdue (clock : Slot → ℤ) (k : Slot) : Option Pending :=
  (s.pending k).filter fun p => dnsTtl ≤ clock k - p.start

/-- Who has waited for long enough is told so. -/
def expirations (clock : Slot → ℤ) : List Notice :=
  (List.finRange idAdapterSize).filterMap fun k => (s.overdue clock k).map fun p => .expire p.client

/-- The reaction to the clock. -/
def tick (clock : Slot → ℤ) : Service × List Notice :=
  ({ s with pending := fun k => if (s.overdue clock k).isSome then none else s.pending k },
    s.expirations clock)

def step : Stimulus → Service × List Notice
  | .tick clock => s.tick clock
  | .ask client q message clock _ time => s.ask d client q message clock time
  | .tell sender r message now time => s.tell sender r message now time

end Service

section Proper

/-- The message consists of the question and nothing else. -/
structure Inquiry.In (q : Inquiry) (message : Bytes) : Prop where
  length_le : message.length ≤ maxDnsSize
  id : HasAt message 0 (u16Bytes q.id)
  flags : HasAt message 2 (u16Bytes flagQuery)
  qdcount : HasAt message 4 (u16Bytes 1)
  nscount : HasAt message 8 (u16Bytes 0)
  adcount : HasAt message 10 (u16Bytes 0)
  question : HasAt message 12 (questionBytes q.labels q.qtype q.qclass)
  id_lt : q.id < 65536
  qtype_lt : q.qtype < 256
  qclass_lt : q.qclass < 65536
  ne_nil : q.labels ≠ []
  valid : ∀ label ∈ q.labels, ValidLabel label
  name_le : q.name.length ≤ 253

/-- A reply with `n` addresses of this type has room. -/
def Inquiry.Room (q : Inquiry) (t : AddressType) (n : ℕ) : Prop :=
  n ≤ 20 ∧ 16 + (wireName q.labels).length +
    n * ((wireName q.labels).length + 10 + t.width) ≤ 1024

instance Inquiry.roomDecidable (q : Inquiry) (t : AddressType) (n : ℕ) : Decidable (q.Room t n) :=
  inferInstanceAs (Decidable (_ ∧ _))

/-- What is remembered of the name is in date, its first address is still valid, and a reply has
room for it. -/
structure Inquiry.Fresh (q : Inquiry) (t : AddressType) (now time : ℤ) (learned : List Learned) :
    Prop where
  valid : ∀ a ∈ learned.head?, now ≤ a.expiry
  near : ∀ a ∈ learned, -2 ^ 31 ≤ a.expiry - time ∧ a.expiry - time < 2 ^ 31
  room : q.Room t learned.length

/-- The message is a reply to a query for addresses of a type, and all its addresses, ten at most,
have this type. -/
structure Report.Answers (r : Report) (t : AddressType) (message : Bytes) : Prop where
  response : ∃ questions, Response message questions r.records
  name : HasAt message 12 (wireName r.labels)
  ne_nil : r.labels ≠ []
  valid : ∀ label ∈ r.labels, ValidLabel label
  name_le : r.name.length ≤ 253
  count : (addressRecords r.records).length ≤ tmpAnsData
  types : ∀ a ∈ addressRecords r.records, a.type = t.code

/-- The service, with room for fewer than `n` names of each type, is meant for this stimulus. -/
def Service.Proper (n : ℕ) (d : Directory) (s : Service) : Stimulus → Prop
  | .tick _ => True
  | .ask _ q message _ now time =>
      q.In message ∧ (q.qtype = rrtypeA → q.Room .A (d.addresses q.name).length) ∧
      ∀ t learned, q.qtype = AddressType.code t → (s.memory t).value q.name = some learned →
        q.Fresh t now time learned
  | .tell _ r message now time =>
      message.length ≤ maxDnsSize ∧ HasAt message 0 (u16Bytes r.slot) ∧
      ∀ t p, s.pending r.slot = some p → p.qtype = AddressType.code t →
        r.Answers t message ∧ (addressRecords r.records ≠ [] →
          r.learned now time ≠ [] ∧ (s.memory t).order.length + 1 < n)

end Proper

end DnsRelay.Relay
