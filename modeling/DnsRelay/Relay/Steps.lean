import DnsRelay.Message.Writers
import DnsRelay.Relay.Sizes

/-!
# What a handler can do

A request is either settled between the relay and its client, and then the ID
adapter keeps its entries, or it is forwarded and takes the cursor slot. A datagram on
the query socket is either dropped, with its sender remembered as the upstream
server, or passed on to the client of its slot.
-/

namespace DnsRelay.Relay

open DnsRelay.Message DnsRelay.Adapter DnsRelay.Static DnsRelay.Lib DnsRelay.Lib.Machine Function

/-- A message with other flags. -/
def withFlags (flags : ℕ) (data : Bytes) : Bytes := data.take 2 ++ u16Bytes flags ++ data.drop 4

/-- A message with another id, in the length of the message. -/
def replaceId (id : ℕ) (data : Bytes) : Bytes := (u16Bytes id ++ data.drop 2).take data.length

section Buffer

variable {buffer buffer' : Bytes} {id n : ℕ}

theorem setHeaderId_ok (h : setHeaderId buffer id = .ok buffer') :
    buffer' = u16Bytes id ++ buffer.drop 2 := by
  match buffer with
  | [] => cases h
  | [_] => cases h
  | _ :: _ :: _ =>
      cases h
      rfl

theorem setHeaderId_of_le (h : 2 ≤ buffer.length) :
    setHeaderId buffer id = .ok (u16Bytes id ++ buffer.drop 2) := by
  match buffer, h with
  | _ :: _ :: _, _ => rfl

theorem readDnsHeader_length {header : DnsHeader} (h : readDnsHeader buffer = .ok header) :
    2 ≤ buffer.length := by
  obtain ⟨id, hid, -⟩ := bind_eq_ok.mp h
  obtain ⟨hi, -, hid⟩ := bind_eq_ok.mp hid
  obtain ⟨lo, hlo, -⟩ := bind_eq_ok.mp hid
  obtain ⟨i, hi, -, hlt⟩ := readByte_ok hlo
  omega

/-- Only the first two bytes of the part that is sent are replaced. -/
theorem take_setHeaderId (h : setHeaderId buffer id = .ok buffer') (hn : n ≤ buffer.length) :
    buffer'.take n = replaceId id (buffer.take n) := by
  rw [setHeaderId_ok h, replaceId, List.length_take, min_eq_left hn, List.drop_take,
    List.take_append, List.take_append, List.take_take]
  congr 2
  simp [u16Bytes]

@[simp] theorem receive_take (w : World) (data : Bytes) :
    (receive w data).recvBuffer.take (received data).length = received data := by
  simp [receive]

theorem received_length_le (data : Bytes) : (received data).length ≤ 520 := by
  simp only [received, List.length_take, maxDnsSize]
  omega

theorem received_eq_self_iff {data : Bytes} : received data = data ↔ data.length ≤ 520 := by
  simp [received, maxDnsSize]

end Buffer

section Request

variable {w w' : World} {client : SockaddrIn} {id rec : ℕ} {clock now time : ℤ}
  {verdict : Verdict}

/-- Until something is sent the handler keeps the adapter and the upstream address, and
a query that no store answers is still in the buffer. -/
theorem answerQuestion_frame (h : answerQuestion w now time = .ok (w', verdict)) :
    w'.adapter = w.adapter ∧ w'.queryServer = w.queryServer ∧
      (verdict = .missing → w'.recvBuffer = w.recvBuffer) := by
  obtain ⟨⟨question, n⟩, -, h⟩ := bind_eq_ok.mp h
  obtain ⟨label, -, h⟩ := bind_eq_ok.mp h
  obtain ⟨black, -, h⟩ := bind_eq_ok.mp h
  cases black with
  | some record =>
      obtain ⟨buffer₁, -, h⟩ := bind_eq_ok.mp h
      obtain ⟨buffer₂, -, h⟩ := bind_eq_ok.mp h
      cases h
      exact ⟨rfl, rfl, nofun⟩
  | none =>
      obtain ⟨⟨w₁, found⟩, hl, h⟩ := bind_eq_ok.mp h
      obtain ⟨cacheset, rfl⟩ := lookUp_frame hl
      dsimp only at h
      split at h
      · cases h
        exact ⟨rfl, rfl, fun _ => rfl⟩
      · obtain ⟨ans, -, h⟩ := bind_eq_ok.mp h
        obtain ⟨⟨buffer, size⟩, -, h⟩ := bind_eq_ok.mp h
        obtain ⟨reply, -, h⟩ := bind_eq_ok.mp h
        cases h
        exact ⟨rfl, rfl, nofun⟩

/-- The request stays between the relay and the client. -/
structure Settled (w : World) (client : SockaddrIn) (o : Output Datagram Stop World) :
    Prop where
  sent : ∀ d ∈ o.sent, d.socket = .server ∧ d.dest = client
  data_eq : ∀ w', o.result = .ok w' → w'.adapter.data = w.adapter.data
  queryServer_eq : ∀ w', o.result = .ok w' → w'.queryServer = w.queryServer

/-- The request goes upstream as `bytes`, under the id of the cursor slot, after the
datagrams `front` for the client. -/
structure Forwarded (w : World) (client : SockaddrIn) (id : ℕ) (front : List Datagram)
    (bytes : Bytes) (o : Output Datagram Stop World) (w' : World) : Prop where
  result : o.result = .ok w'
  sent : o.sent = front ++ [⟨.query, w.queryServer, bytes⟩]
  front_settled : ∀ d ∈ front, d.socket = .server ∧ d.dest = client
  free : (w.adapter.data w.adapter.next).valid = false
  entry : ∃ type start message, w'.adapter.data = update w.adapter.data w.adapter.next
    ⟨⟨client, UInt16.ofNat id, type⟩, true, start, message⟩
  queryServer_eq : w'.queryServer = w.queryServer

/-- A request that stays with the client sends nothing on the query socket. -/
theorem Settled.upstream_nil {w : World} {client : SockaddrIn} {o : Output Datagram Stop World}
    (h : Settled w client o) : o.sent.filter (·.socket = .query) = [] := by
  rw [List.filter_eq_nil_iff]
  intro d hd
  simp [(h.sent d hd).1]

/-- A request that goes upstream sends one datagram on the query socket. -/
theorem Forwarded.upstream_eq {w w' : World} {client : SockaddrIn} {id : ℕ}
    {front : List Datagram} {bytes : Bytes} {o : Output Datagram Stop World}
    (h : Forwarded w client id front bytes o w') :
    o.sent.filter (·.socket = .query) = [⟨.query, w.queryServer, bytes⟩] := by
  have hfront : front.filter (·.socket = .query) = [] := by
    rw [List.filter_eq_nil_iff]
    intro d hd
    simp [(h.front_settled d hd).1]
  rw [h.sent, List.filter_append, hfront]
  rfl

theorem relayQuery_cases (w : World) (id : ℕ) (client : SockaddrIn) (rec : ℕ) (clock : ℤ) :
    Settled w client (relayQuery w id client rec clock) ∨
    ∃ w', Forwarded w client id [] (replaceId w.adapter.next (w.recvBuffer.take rec))
      (relayQuery w id client rec clock) w' := by
  unfold relayQuery
  cases hb : writeByte w.recvBuffer rec 0 with
  | error e => exact .inl ⟨by simp, by simp, by simp⟩
  | ok buffer =>
      obtain ⟨hrec, rfl⟩ := writeByte_ok hb
      cases hp : w.adapter.push (UInt16.ofNat id) client (UInt8.ofNat w.question.qtype) clock
          (w.recvBuffer.set rec 0) with
      | error e => exact .inl ⟨by simp [hp], by simp [hp], by simp [hp]⟩
      | ok p =>
          obtain ⟨b, newId⟩ := p
          rcases IDAdapter.push_cases hp with ⟨-, rfl, rfl⟩ | ⟨hfree, rfl, message, rfl⟩
          · simp only [Output.lift_ok_bind, hp]
            refine .inl ⟨by simp, ?_, ?_⟩
            · rintro w' ⟨⟩
              rfl
            · rintro w' ⟨⟩
              rfl
          · cases hi : setHeaderId (w.recvBuffer.set rec 0) w.adapter.next with
            | error e => exact .inl ⟨by simp [hp, hi], by simp [hp, hi], by simp [hp, hi]⟩
            | ok buffer =>
                have hbytes := take_setHeaderId (n := rec) hi (by simpa using hrec.le)
                rw [List.take_set_of_le le_rfl] at hbytes
                simp only [Output.lift_ok_bind, hp, hi]
                exact .inr ⟨_, rfl, by simp [hbytes], by simp, hfree, ⟨_, _, message, rfl⟩, rfl⟩

theorem serveQuestion_cases (w : World) (id : ℕ) (client : SockaddrIn) (rec : ℕ)
    (clock now time : ℤ) :
    Settled w client (serveQuestion w id client rec clock now time) ∨
    ∃ w', Forwarded w client id [] (replaceId w.adapter.next (w.recvBuffer.take rec))
      (serveQuestion w id client rec clock now time) w' := by
  unfold serveQuestion
  cases ha : answerQuestion w now time with
  | error e => exact .inl ⟨by simp, by simp, by simp⟩
  | ok p =>
      obtain ⟨w₁, verdict⟩ := p
      obtain ⟨hadapter, hserver, hbuffer⟩ := answerQuestion_frame ha
      have hreply : ∀ bytes, Settled w client
          (Output.emit ⟨.server, client, bytes⟩ >>= fun _ => pure w₁) := by
        intro bytes
        constructor
        · simp
        · rintro w' ⟨⟩
          rw [hadapter]
        · rintro w' ⟨⟩
          exact hserver
      rw [Output.lift_ok_bind]
      cases verdict with
      | blocked => exact .inl (hreply _)
      | answered reply => exact .inl (hreply _)
      | missing =>
          rcases relayQuery_cases w₁ id client rec clock with h | ⟨w', h⟩
          · left
            constructor
            · exact h.sent
            · intro w' hw
              rw [h.data_eq w' hw, hadapter]
            · intro w' hw
              rw [h.queryServer_eq w' hw, hserver]
          · right
            have hsent := h.sent
            have hfree := h.free
            have hentry := h.entry
            rw [hadapter, hserver, hbuffer rfl] at hsent
            rw [hadapter] at hfree hentry
            exact ⟨w', h.result, hsent, h.front_settled, hfree, hentry,
              h.queryServer_eq.trans hserver⟩

theorem handleRequest_of_query {data : Bytes} {header : DnsHeader}
    (hh : readDnsHeader (receive w data).recvBuffer = .ok header)
    (hf : header.flags = htons flagQuery) :
    handleRequest w client data clock now time =
      serveQuestion (receive w data) header.id client (received data).length clock now time := by
  simp [handleRequest, hh, hf]

theorem handleRequest_of_other {data : Bytes} {header : DnsHeader}
    (hh : readDnsHeader (receive w data).recvBuffer = .ok header)
    (hf : header.flags ≠ htons flagQuery) :
    handleRequest w client data clock now time =
      refuse (receive w data) client (received data).length >>= fun w =>
        serveQuestion w header.id client (received data).length clock now time := by
  simp [handleRequest, hh, hf]

/-- The refusal is sent and the handler goes on with the rewritten buffer. -/
theorem refuse_cases (w : World) (client : SockaddrIn) (rec : ℕ) :
    (∃ e, refuse w client rec = ⟨[], .error e⟩) ∨
    ∃ buffer, refuse w client rec =
      ⟨[⟨.server, client, buffer.take rec⟩], .ok { w with recvBuffer := buffer }⟩ := by
  unfold refuse
  cases hf : setHeaderFlag w.recvBuffer flagResponseNormal with
  | error e => exact .inl ⟨e, rfl⟩
  | ok buffer =>
      cases hr : setHeaderRcodeRefused buffer with
      | error e => exact .inl ⟨e, by simp [hr]⟩
      | ok buffer' =>
          refine .inr ⟨buffer', ?_⟩
          simp only [Output.lift_ok_bind, hr]
          rfl

/-- Every request is settled with its client or forwarded under the cursor slot. -/
theorem handleRequest_cases (w : World) (client : SockaddrIn) (data : Bytes)
    (clock now time : ℤ) :
    Settled w client (handleRequest w client data clock now time) ∨
    ∃ id front bytes w', Forwarded w client id front bytes
      (handleRequest w client data clock now time) w' := by
  cases hh : readDnsHeader (receive w data).recvBuffer with
  | error e => exact .inl ⟨by simp [handleRequest, hh], by simp [handleRequest, hh],
      by simp [handleRequest, hh]⟩
  | ok header =>
      by_cases hf : header.flags = htons flagQuery
      · rw [handleRequest_of_query hh hf]
        rcases serveQuestion_cases (receive w data) header.id client (received data).length
          clock now time with h | ⟨w', h⟩
        · exact .inl ⟨h.sent, h.data_eq, h.queryServer_eq⟩
        · exact .inr ⟨header.id, [], _, w', h.result, h.sent, by simp, h.free, h.entry,
            h.queryServer_eq⟩
      · rw [handleRequest_of_other hh hf]
        rcases refuse_cases (receive w data) client (received data).length with
          ⟨e, he⟩ | ⟨buffer, hb⟩
        · rw [he, Output.bind_of_error rfl]
          exact .inl ⟨by simp, by simp, by simp⟩
        · rw [hb, Output.bind_of_ok rfl]
          rcases serveQuestion_cases { receive w data with recvBuffer := buffer } header.id
            client (received data).length clock now time with h | ⟨w', h⟩
          · left
            constructor
            · intro d hd
              rcases List.mem_append.mp hd with hd | hd
              · rw [List.mem_singleton.mp hd]
                exact ⟨rfl, rfl⟩
              · exact h.sent d hd
            · exact h.data_eq
            · exact h.queryServer_eq
          · right
            refine ⟨header.id, [⟨.server, client, buffer.take (received data).length⟩],
              replaceId w.adapter.next (buffer.take (received data).length), w', h.result, ?_,
              by simp, h.free, h.entry, h.queryServer_eq⟩
            rw [h.sent, List.nil_append]
            rfl

end Request

section Relay

variable {w w' : World} {sender : SockaddrIn} {data : Bytes} {now time : ℤ} {k : Slot}
  {info : IDtoAddr} {header : DnsHeader} {type : UInt8}

/-- The world in which the answers of a datagram on the query socket are cached. -/
def relayed (w : World) (sender : SockaddrIn) (data : Bytes) : World :=
  { receive w data with queryServer := sender }

/-- Caching touches neither the adapter nor the buffer. -/
theorem cacheAnswers_frame (h : cacheAnswers w type now time = .ok w') :
    w'.adapter = w.adapter ∧ w'.queryServer = w.queryServer ∧
      w'.recvBuffer = w.recvBuffer := by
  unfold cacheAnswers at h
  split at h
  · obtain ⟨⟨ans, ansNum⟩, -, h⟩ := bind_eq_ok.mp h
    dsimp only at h
    split at h
    · obtain ⟨⟨question, n⟩, -, h⟩ := bind_eq_ok.mp h
      dsimp only at h
      split at h
      · cases h
      · obtain ⟨label, -, h⟩ := bind_eq_ok.mp h
        split at h
        · obtain ⟨⟨temp, r⟩, -, h⟩ := bind_eq_ok.mp h
          cases h
          exact ⟨rfl, rfl, rfl⟩
        · obtain ⟨⟨temp, r⟩, -, h⟩ := bind_eq_ok.mp h
          cases h
          exact ⟨rfl, rfl, rfl⟩
    · cases h
      exact ⟨rfl, rfl, rfl⟩
  · cases h
    exact ⟨rfl, rfl, rfl⟩

/-- A datagram whose id leads to no entry only leaves its traces in the buffer and in
`query_server`. -/
theorem handleRelay_of_free
    (hh : readDnsHeader (receive w data).recvBuffer = .ok header)
    (hg : w.adapter.get (toShort header.id) = .ok none) :
    handleRelay w sender data now time = ⟨[], .ok (relayed w sender data)⟩ := by
  have hg' : (receive w data).adapter.get (toShort header.id) = .ok none := hg
  simp only [handleRelay, hh, hg', Output.lift_ok_bind]
  rfl

/-- The datagram goes to nobody. -/
structure Dropped (w : World) (sender : SockaddrIn) (o : Output Datagram Stop World) :
    Prop where
  sent : o.sent = []
  data_eq : ∀ w', o.result = .ok w' → w'.adapter.data = w.adapter.data
  queryServer_eq : ∀ w', o.result = .ok w' → w'.queryServer = sender

/-- The datagram goes to the client that waits under the id `k`, with the client's id. -/
structure Delivered (w : World) (sender : SockaddrIn) (data : Bytes) (k : Slot)
    (info : IDtoAddr) (o : Output Datagram Stop World) (w' : World) : Prop where
  outstanding : w.adapter.outstanding k = some info
  result : o.result = .ok w'
  sent : o.sent = [⟨.server, info.addr, replaceId info.oldId.toNat (received data)⟩]
  freed : w'.adapter.data = update w.adapter.data k { w.adapter.data k with valid := false }
  queryServer_eq : w'.queryServer = sender

/-- A reply to an outstanding id is passed on once its answers are cached. -/
theorem handleRelay_of_outstanding
    (hh : readDnsHeader (receive w data).recvBuffer = .ok header)
    (hk : slotOf (toShort header.id) = .ok k) (ho : w.adapter.outstanding k = some info)
    (hc : cacheAnswers (relayed w sender data) info.type now time = .ok w') :
    ∃ w'', Delivered w sender data k info (handleRelay w sender data now time) w'' ∧
      w''.cacheset = w'.cacheset := by
  obtain ⟨hadapter, hserver, hbuffer⟩ := cacheAnswers_frame hc
  have hg : (receive w data).adapter.get (toShort header.id) = .ok (some info) := by
    rw [IDAdapter.get_of_slotOf hk]
    exact congrArg Except.ok ho
  have hlen : 2 ≤ w'.recvBuffer.length := by
    rw [hbuffer]
    exact readDnsHeader_length hh
  have hset : setHeaderId w'.recvBuffer info.oldId.toNat = _ := setHeaderId_of_le hlen
  have hpop := IDAdapter.pop_of_slotOf (a := w'.adapter) hk
  have hbytes := take_setHeaderId (n := (received data).length) hset (by
    rw [hbuffer]
    simp [relayed, receive])
  simp only [relayed] at hc
  simp only [handleRelay, hh, hg, hc, hset, hpop, Output.lift_ok_bind]
  refine ⟨_, ⟨ho, rfl, ?_, ?_, hserver⟩, rfl⟩
  · rw [Output.sent_emit_bind, hbytes, hbuffer]
    simp [relayed]
  · rw [hadapter]
    rfl

theorem handleRelay_of_stop {e : Stop}
    (hh : readDnsHeader (receive w data).recvBuffer = .ok header)
    (hk : slotOf (toShort header.id) = .ok k) (ho : w.adapter.outstanding k = some info)
    (hc : cacheAnswers (relayed w sender data) info.type now time = .error e) :
    handleRelay w sender data now time = ⟨[], .error e⟩ := by
  have hg : (receive w data).adapter.get (toShort header.id) = .ok (some info) := by
    rw [IDAdapter.get_of_slotOf hk]
    exact congrArg Except.ok ho
  simp only [relayed] at hc
  simp [handleRelay, hh, hg, hc]

/-- Every datagram on the query socket is dropped or delivered to the client of its id. -/
theorem handleRelay_cases (w : World) (sender : SockaddrIn) (data : Bytes) (now time : ℤ) :
    Dropped w sender (handleRelay w sender data now time) ∨
    ∃ header k info w', readDnsHeader (receive w data).recvBuffer = .ok header ∧
      slotOf (toShort header.id) = .ok k ∧
      Delivered w sender data k info (handleRelay w sender data now time) w' := by
  cases hh : readDnsHeader (receive w data).recvBuffer with
  | error e => exact .inl ⟨by simp [handleRelay, hh], by simp [handleRelay, hh],
      by simp [handleRelay, hh]⟩
  | ok header =>
      cases hk : slotOf (toShort header.id) with
      | error e =>
          have hg : (receive w data).adapter.get (toShort header.id) = .error e :=
            IDAdapter.get_of_slotOf_error hk
          exact .inl ⟨by simp [handleRelay, hh, hg], by simp [handleRelay, hh, hg],
            by simp [handleRelay, hh, hg]⟩
      | ok k =>
          cases ho : w.adapter.outstanding k with
          | none =>
              have hg := IDAdapter.get_of_slotOf (a := w.adapter) hk
              rw [ho] at hg
              rw [handleRelay_of_free hh hg]
              refine .inl ⟨rfl, ?_, ?_⟩
              · rintro w' ⟨⟩
                rfl
              · rintro w' ⟨⟩
                rfl
          | some info =>
              cases hc : cacheAnswers (relayed w sender data) info.type now time with
              | error e =>
                  rw [handleRelay_of_stop hh hk ho hc]
                  exact .inl ⟨rfl, by simp, by simp⟩
              | ok w₁ =>
                  obtain ⟨w', hd, -⟩ := handleRelay_of_outstanding hh hk ho hc
                  exact .inr ⟨header, k, info, w', rfl, hk, hd⟩

end Relay

/-- A sweep writes to clients only and keeps the slots that have not timed out. -/
theorem step_sweep (w : World) (clock : Slot → ℤ) :
    Output.Ensures (fun d => d.socket = .server) (step w (.sweep clock)) fun w' =>
      w'.queryServer = w.queryServer ∧ IDAdapter.Swept clock w.adapter w'.adapter := by
  apply (IDAdapter.sweep_ensures w.adapter clock).bind
  intro b hb
  exact Output.ensures_pure ⟨rfl, hb⟩

/-- More events go on from where the loop has come to. -/
theorem mainLoop_append {v w : World} {events : List Event}
    (hw : (mainLoop v events).result = .ok w) (more : List Event) :
    (mainLoop v (events ++ more)).result = (mainLoop w more).result := by
  rw [mainLoop, Output.run_append hw]
  rfl

theorem mainLoop_singleton (w : World) (e : Event) :
    (mainLoop w [e]).result = (step w e).result := by
  rw [mainLoop, Output.run]
  cases hstep : (step w e).result with
  | error stop => rw [Output.bind_of_error hstep]
  | ok w₁ =>
      rw [Output.bind_of_ok hstep]
      rfl

end DnsRelay.Relay
