import DnsRelay.Lru.Labels
import DnsRelay.Relay.Caching

/-!
# Where cached addresses come from

The table keeps the low byte of a question type only, and the decoder of replies takes
both kinds of addresses whatever was asked for. Besides, a reply may meet the slot of
another query. So the caches hold addresses of their own type, from replies to queries of
that type, as long as no client asks for a type that looks like an address type in its
low byte, no reply brings addresses of the other type, and the reply and the query that
was forwarded last under its id have the same type.
-/

namespace DnsRelay.Relay

open DnsRelay.Message DnsRelay.Adapter DnsRelay.Lib DnsRelay.Lib.Machine Function

/-- A query as it went upstream: the id that `IDAdapter_push` gave it and the type of its
question. -/
structure TypedQuery where
  id : Slot
  qtype : ℕ
  deriving DecidableEq

/-- An address that was handed to a cache, with the type of the answer record and of the
question of the query that its datagram replies to. -/
structure Origin where
  ip : IP
  rrtype : ℕ
  qtype : Option ℕ
  deriving DecidableEq

/-- The relay, the queries it has forwarded, oldest first, and the addresses that were
handed to each cache. -/
structure Traced where
  world : World
  queries : List TypedQuery
  origins : AddressType → List Origin

/-- A round of the loop. What arrives on the query socket replies to the forwarded query
with a given number, or to none. -/
structure Attributed where
  event : Event
  query : Option ℕ

/-- The question type of the query with a given number. -/
def Traced.typeOf (n : Traced) (query : Option ℕ) : Option ℕ :=
  query.bind fun i => n.queries[i]?.map TypedQuery.qtype

/-- The addresses that a datagram on the query socket hands to the cache of a type. -/
def newOrigins (n : Traced) (query : Option ℕ) (sender : SockaddrIn) (data : Bytes)
    (t : AddressType) : List Origin :=
  match replyTo n.world data, cacheable (relayed n.world sender data) with
  | some (_, info), some (_, answers) =>
      if info.type.toNat = t.code then answers.map fun a => ⟨a.address, a.type, n.typeOf query⟩
      else []
  | _, _ => []

/-- The trace of a round that has sent `sent` and has led to `w`. -/
def Traced.next (n : Traced) (sent : List Datagram) (w : World) : Attributed → Traced
  | ⟨.sweep _, _⟩ => { n with world := w }
  | ⟨.relay sender data _ _, query⟩ =>
      { n with
        world := w
        origins := fun t => n.origins t ++ newOrigins n query sender data t }
  | ⟨.request _ data _ _ _, _⟩ =>
      { n with
        world := w
        queries := n.queries ++ (sent.filter (·.socket = .query)).map fun _ =>
          ⟨n.world.adapter.next, requestType n.world data⟩ }

/-- A round of the loop with its trace. -/
def traceStep (n : Traced) (e : Attributed) : Output Datagram Stop Traced :=
  ⟨(step n.world e.event).sent, (step n.world e.event).result.map fun w =>
    n.next (step n.world e.event).sent w e⟩

/-- The trace does not change what the relay does. -/
theorem traceStep_world (n : Traced) (events : List Attributed) :
    (Output.run traceStep n events).sent =
        (mainLoop n.world (events.map Attributed.event)).sent ∧
      (Output.run traceStep n events).result.map Traced.world =
        (mainLoop n.world (events.map Attributed.event)).result := by
  apply Output.run_project
  · exact fun _ _ => rfl
  · intro n e
    cases hr : (step n.world e.event).result with
    | error stop => simp [traceStep, hr, Except.map]
    | ok w =>
        obtain ⟨event, query⟩ := e
        cases event <;> simp [traceStep, hr, Except.map, Traced.next]

section Step

variable {n : Traced} {w' : World} {t : AddressType}

theorem lookUpCall_elements {w : World} {now : ℤ} {op : Lru.CacheOp}
    (h : lookUpCall t w now = some op) : op.elements = [] := by
  unfold lookUpCall at h
  split at h
  next =>
    split at h
    next =>
      cases h
      rfl
    next => cases h
  next => cases h

end Step

section Runs

end Runs

end DnsRelay.Relay
