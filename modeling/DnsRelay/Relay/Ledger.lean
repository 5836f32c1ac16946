import DnsRelay.Lib.Ledger
import DnsRelay.Relay.Caching
import DnsRelay.Relay.Timeout

/-!
# What becomes of the queries

Every query that goes upstream is entered in the ID adapter, and its entry leaves it in one
of two ways: a reply under its id is passed on to its client, or a sweep refuses it when it
has waited for `DNS_TTL`. Over a whole run the entries that were made are therefore those
that replies and sweeps have resolved and those that still wait, neither more nor less, and
each of them stands for the datagram that went out when it was made or resolved.
-/

namespace DnsRelay.Relay

open DnsRelay.Message DnsRelay.Adapter DnsRelay.Lib DnsRelay.Lib.Machine Function

section Waiting

variable {a b : IDAdapter} {k : Slot} {clock : Slot → ℤ}

/-- The entries of the queries that wait, with their slots. -/
def waiting (a : IDAdapter) : Multiset (Slot × IDtoAddr) :=
  entries fun k => (a.outstanding k).map (k, ·)

theorem outstanding_update {e : Entry} (h : b.data = update a.data k e) :
    b.outstanding = update a.outstanding k (if e.valid then some e.info else none) := by
  funext j
  by_cases hj : j = k
  · subst hj
    simp [IDAdapter.outstanding, h]
  · simp [IDAdapter.outstanding, h, hj]

theorem waiting_congr (h : b.data = a.data) : waiting b = waiting a := by
  have hout : b.outstanding = a.outstanding := by
    funext j
    rw [IDAdapter.outstanding, h, ← IDAdapter.outstanding]
  rw [waiting, hout, waiting]

theorem waiting_update {e : Entry} (h : b.data = update a.data k e) :
    waiting b = entries (update (fun j => (a.outstanding j).map (j, ·)) k
      (if e.valid then some (k, e.info) else none)) := by
  rw [waiting, outstanding_update h]
  congr 1
  funext j
  by_cases hj : j = k
  · subst hj
    cases e.valid <;> simp
  · simp [hj]

/-- A query that is entered under a free id waits. -/
theorem waiting_enter {e : Entry} (hfree : (a.data k).valid = false) (he : e.valid = true)
    (h : b.data = update a.data k e) : waiting b = {(k, e.info)} + waiting a := by
  rw [waiting_update h, if_pos he, entries_fill]
  · rfl
  · simp [IDAdapter.outstanding_eq_none.mpr hfree]

/-- A query whose slot is freed waits no longer. -/
theorem waiting_leave {info : IDtoAddr} {e : Entry} (ho : a.outstanding k = some info)
    (he : e.valid = false) (h : b.data = update a.data k e) :
    waiting a = {(k, info)} + waiting b := by
  rw [waiting_update h, waiting, entries_free (k := k) (a := (k, info))]
  · simp [he]
  · simp [ho]

end Waiting

section Sweep

variable {a b : IDAdapter} {k : Slot} {clock : Slot → ℤ}

theorem timedOut_eq_true {e : Entry} {now : ℤ} :
    IDAdapter.timedOut e now = true ↔ e.valid = true ∧ dnsTtl ≤ now - e.start := by
  simp [IDAdapter.timedOut]

/-- The entry of a slot that has timed out. -/
def expiredAt (a : IDAdapter) (clock : Slot → ℤ) (k : Slot) : Option (Slot × IDtoAddr) :=
  if IDAdapter.timedOut (a.data k) (clock k) then some (k, (a.data k).info) else none

/-- The entries that have timed out, in the order of their slots. -/
def expired (a : IDAdapter) (clock : Slot → ℤ) : List (Slot × IDtoAddr) :=
  (List.finRange idAdapterSize).filterMap (expiredAt a clock)

/-- A slot waits after a sweep if it has waited before and has not timed out. -/
theorem sweep_outstanding (h : (a.sweep clock).result = .ok b) (k : Slot) :
    b.outstanding k =
      if IDAdapter.timedOut (a.data k) (clock k) then none else a.outstanding k := by
  split
  next ht => exact IDAdapter.outstanding_eq_none.mpr (IDAdapter.sweep_frees ht h)
  next ht =>
    have hkept := ((IDAdapter.sweep_ensures a clock).result b h).kept k (Bool.eq_false_iff.mpr ht)
    rw [IDAdapter.outstanding, hkept, ← IDAdapter.outstanding]

/-- Over a sweep that comes to its end, what has timed out waits no longer. -/
theorem sweep_balance (h : (a.sweep clock).result = .ok b) :
    waiting a = expired a clock + waiting b := by
  rw [expired, ← entries_eq_filterMap]
  apply entries_split
  intro k
  rw [sweep_outstanding h k, expiredAt]
  cases ht : IDAdapter.timedOut (a.data k) (clock k) with
  | true =>
      have ho : a.outstanding k = some (a.data k).info :=
        IDAdapter.outstanding_eq_some.mpr ⟨(timedOut_eq_true.mp ht).1, rfl⟩
      simp [ho]
  | false => simp

/-- A round of the sweep that returns at a slot that has timed out has built its reply. -/
theorem slotReply_of_sweepSlot (ht : IDAdapter.timedOut (a.data k) (clock k) = true)
    (h : (IDAdapter.sweepSlot clock a k).result = .ok b) :
    ∃ reply, slotReply (a.data k).message = .ok reply := by
  unfold IDAdapter.sweepSlot at h
  rw [if_pos ht] at h
  cases hf : setHeaderFlag (a.data k).message flagResponseNormal with
  | error e => simp [hf] at h
  | ok message =>
      cases hr : setHeaderRcodeRefused message with
      | error e => simp [hf, hr] at h
      | ok message' =>
          cases hc : cString message' with
          | error e => simp [hf, hr, hc] at h
          | ok reply => exact ⟨reply, by simp [slotReply, hf, hr, hc, bind, Except.bind]⟩

/-- A sweep that comes to its end has built the replies of all slots that have timed out. -/
theorem slotReply_of_run {ks : List Slot} (hnodup : ks.Nodup)
    (h : (Output.run (IDAdapter.sweepSlot clock) a ks).result = .ok b) (hk : k ∈ ks)
    (ht : IDAdapter.timedOut (a.data k) (clock k) = true) :
    ∃ reply, slotReply (a.data k).message = .ok reply := by
  induction ks generalizing a with
  | nil => cases hk
  | cons j ks ih =>
      obtain ⟨hj, hnodup⟩ := List.nodup_cons.mp hnodup
      cases hs : (IDAdapter.sweepSlot clock a j).result with
      | error e =>
          rw [Output.run, Output.bind_of_error hs] at h
          cases h
      | ok a₁ =>
          rw [Output.run, Output.bind_of_ok hs] at h
          rcases List.mem_cons.mp hk with rfl | hk
          · exact slotReply_of_sweepSlot ht hs
          · have hsame := IDAdapter.sweepSlot_frame hs (ne_of_mem_of_not_mem hk hj)
            rw [← hsame] at ht ⊢
            exact ih hnodup h hk ht

/-- A sweep that comes to its end sends one refusal for every slot that has timed out. -/
theorem sweep_refuses (h : (a.sweep clock).result = .ok b) :
    List.Forall₂ (fun p d => ∃ reply, slotReply (a.data p.1).message = .ok reply ∧
      d = ⟨.server, p.2.addr, reply⟩) (expired a clock) (a.sweep clock).sent := by
  have hrun : (Output.run (IDAdapter.sweepSlot clock) a (List.finRange idAdapterSize)).result =
      .ok b := h
  rw [sent_sweep h]
  apply forall₂_filterMap
  intro k hk
  unfold expiredAt
  split
  next ht =>
    obtain ⟨reply, hreply⟩ := slotReply_of_run (List.nodup_finRange _) hrun hk ht
    rw [sent_sweepSlot ht, hreply]
    exact .cons ⟨reply, hreply, rfl⟩ .nil
  next ht =>
    rw [IDAdapter.sweepSlot, if_neg ht]
    exact .nil

end Sweep

section Rounds

/-- What is remembered of a request that goes upstream: its client, its id and the low byte
of its question type. -/
def requestInfo (w : World) (client : SockaddrIn) (data : Bytes) : IDtoAddr :=
  ⟨client, UInt16.ofNat (requestId w data), UInt8.ofNat (requestType w data)⟩

/-- The request as it goes upstream under an id: as it was received if it is a query, else
with the flags of the refusal that its client has got. -/
def upstreamForm (w : World) (k : Slot) (data : Bytes) : Bytes :=
  if HasAt (receive w data).recvBuffer 2 (u16Bytes flagQuery) then replaceId k (received data)
  else replaceId k (((received data).set 2 0x80).set 3 0x05)

/-- The entries that a round has made: one in the cursor slot for a query that it has sent
upstream. -/
def entered (w : World) : Event → List Datagram → List (Slot × IDtoAddr)
  | .request client data _ _ _, sent =>
      (sent.filter (·.socket = .query)).map fun _ =>
        (w.adapter.next, requestInfo w client data)
  | .relay _ _ _ _, _ => []
  | .sweep _, _ => []

/-- The entries that a round has resolved: the one under the id of a reply that it has passed
on, or those that have timed out. -/
def resolved (w : World) : Event → List Datagram → List (Slot × IDtoAddr)
  | .request _ _ _ _ _, _ => []
  | .relay _ data _ _, sent => if sent = [] then [] else (replyTo w data).toList
  | .sweep clock, _ => expired w.adapter clock

/-- The datagrams of a round that entries stand for: all but those with which a request is
answered or refused at once. -/
def posted : Event → List Datagram → List Datagram
  | .request _ _ _ _ _, sent => sent.filter (·.socket = .query)
  | .relay _ _ _ _, sent => sent
  | .sweep _, sent => sent

/-- The datagram of an entry: the request goes upstream under the slot of its entry; a reply
goes to the client of its entry under his id; what a slot holds of a query that has timed out
goes back to its client as a refusal. -/
def Stands (w : World) : Event → Slot × IDtoAddr → Datagram → Prop
  | .request _ data _ _ _, p, d => d = ⟨.query, w.queryServer, upstreamForm w p.1 data⟩
  | .relay _ data _ _, p, d =>
      d = ⟨.server, p.2.addr, replaceId p.2.oldId.toNat (received data)⟩
  | .sweep _, p, d => ∃ reply, slotReply (w.adapter.data p.1).message = .ok reply ∧
      d = ⟨.server, p.2.addr, reply⟩

/-- What a round has made and resolved is what has changed in the table, and stands for what
the round has sent. -/
structure Accounted (w : World) (e : Event) (sent : List Datagram) (w' : World) : Prop where
  balance : waiting w.adapter + entered w e sent = resolved w e sent + waiting w'.adapter
  stands : List.Forall₂ (Stands w e) (entered w e sent ++ resolved w e sent) (posted e sent)

variable {w w' : World} {client : SockaddrIn} {data : Bytes} {clock now time : ℤ}

/-- What the buffer holds of a request when its question is read. -/
theorem asked_form (w : World) (data : Bytes) (k : Slot) :
    replaceId k ((asked w data).recvBuffer.take (received data).length) =
      upstreamForm w k data := by
  unfold asked upstreamForm
  split
  · rw [receive_take]
  · rw [refused, List.take_set, List.take_set, receive_take]

/-- What a request sends upstream. -/
theorem handleRequest_form (hs : w.Sized) {id : ℕ} {front : List Datagram} {bytes : Bytes}
    (h : Forwarded w client id front bytes (handleRequest w client data clock now time) w') :
    bytes = upstreamForm w w.adapter.next data := by
  have hmem : ⟨.query, w.queryServer, bytes⟩ ∈
      (handleRequest w client data clock now time).sent := by
    rw [h.sent]
    simp
  obtain ⟨front', hfront, heq⟩ := handleRequest_eq_asked hs client data clock now time
  rw [heq] at hmem
  rcases List.mem_append.mp hmem with hmem | hmem
  · cases (hfront _ hmem).1
  · rcases serveQuestion_cases (asked w data) (requestId w data) client (received data).length
      clock now time with hc | ⟨w₁, hc⟩
    · cases (hc.sent _ hmem).1
    · rw [hc.sent, List.nil_append] at hmem
      obtain ⟨-, -, hbytes⟩ := Datagram.mk.inj (List.mem_singleton.mp hmem)
      rw [hbytes, asked_adapter]
      exact asked_form w data _

/-- A request that goes upstream has filled the cursor slot. -/
theorem handleRequest_entry (hs : w.Sized) {id : ℕ} {front : List Datagram} {bytes : Bytes}
    (h : Forwarded w client id front bytes (handleRequest w client data clock now time) w') :
    ∃ message, w'.adapter.data = update w.adapter.data w.adapter.next
      ⟨requestInfo w client data, true, clock, message⟩ := by
  obtain ⟨type, start, message, hentry⟩ := h.entry
  refine ⟨message, ?_⟩
  rw [hentry]
  rcases (handleRequest_question hs h.result).2.2 w.adapter.next with hsame | ⟨message', hnew⟩
  · have hfree := h.free
    rw [← hsame, hentry, update_self] at hfree
    cases hfree
  · rw [hentry, update_self] at hnew
    obtain ⟨hinfo, -, hstart, -⟩ := Entry.mk.inj hnew
    rw [hinfo, hstart, requestInfo]

theorem handleRequest_accounted (hs : w.Sized)
    (h : (handleRequest w client data clock now time).result = .ok w') :
    Accounted w (.request client data clock now time)
      (handleRequest w client data clock now time).sent w' := by
  rcases handleRequest_cases w client data clock now time with hc | ⟨id, front, bytes, w₁, hc⟩
  · constructor
    · rw [entered, resolved, hc.upstream_nil, waiting_congr (hc.data_eq w' h), add_comm]
      rfl
    · rw [entered, posted, hc.upstream_nil]
      exact .nil
  · obtain rfl : w₁ = w' := Except.ok.inj (hc.result.symm.trans h)
    obtain ⟨message, hentry⟩ := handleRequest_entry hs hc
    constructor
    · rw [entered, resolved, hc.upstream_eq, waiting_enter hc.free rfl hentry,
        Multiset.coe_nil, zero_add, add_comm]
      rfl
    · rw [entered, resolved, posted, hc.upstream_eq, handleRequest_form hs hc]
      exact .cons rfl .nil

theorem handleRelay_accounted {sender : SockaddrIn}
    (h : (handleRelay w sender data now time).result = .ok w') :
    Accounted w (.relay sender data now time) (handleRelay w sender data now time).sent w' := by
  rcases handleRelay_cases w sender data now time with hc | ⟨header, k, info, w₁, hh, hk, hc⟩
  · constructor
    · rw [entered, resolved, hc.sent, if_pos rfl, waiting_congr (hc.data_eq w' h), add_comm]
    · rw [entered, resolved, posted, hc.sent, if_pos rfl]
      exact .nil
  · obtain rfl : w₁ = w' := Except.ok.inj (hc.result.symm.trans h)
    have hreply : replyTo w data = some (k, info) := by
      simp [replyTo, hh, hk, hc.outstanding]
    constructor
    · rw [entered, resolved, hc.sent, if_neg (by simp), hreply, Multiset.coe_nil, add_zero,
        waiting_leave hc.outstanding rfl hc.freed]
      rfl
    · rw [entered, resolved, posted, hc.sent, if_neg (by simp), hreply]
      exact .cons rfl .nil

/-- A sweep as a round of the loop. -/
theorem step_sweep_ok {clock : Slot → ℤ} (h : (step w (.sweep clock)).result = .ok w') :
    (w.adapter.sweep clock).result = .ok w'.adapter ∧
      (step w (.sweep clock)).sent = (w.adapter.sweep clock).sent := by
  cases hb : (w.adapter.sweep clock).result with
  | error e =>
      rw [step, Output.bind_of_error hb] at h
      cases h
  | ok b =>
      rw [step, Output.bind_of_ok hb] at h ⊢
      cases h
      exact ⟨rfl, List.append_nil _⟩

/-- Every round of the loop is accounted for. -/
theorem step_accounted (hs : w.Sized) {e : Event} (h : (step w e).result = .ok w') :
    Accounted w e (step w e).sent w' := by
  cases e with
  | sweep clock =>
      obtain ⟨hsweep, hsent⟩ := step_sweep_ok h
      rw [hsent]
      constructor
      · rw [entered, resolved, Multiset.coe_nil, add_zero, sweep_balance hsweep]
      · rw [entered, resolved, posted, List.nil_append]
        exact sweep_refuses hsweep
  | relay sender data now time => exact handleRelay_accounted h
  | request client data clock now time => exact handleRequest_accounted hs h

end Rounds

section Runs

/-- The loop with the books of the table. -/
def bookedLoop (w : World) (events : List Event) :
    Output Datagram Stop (Output.Books World (Multiset (Slot × IDtoAddr))) :=
  Output.run (Output.bookStep step (fun w e sent => entered w e sent)
    fun w e sent => resolved w e sent) ⟨w, 0, 0⟩ events

/-- In every run from an empty table, the entries that were made are those that replies and
sweeps have resolved and those that still wait, of which there are never more than the table
has slots; and in every round the entries made and resolved stand one by one for the
datagrams that were sent. -/
theorem queries_accounted (w : World) (hs : w.Sized)
    (hw : ∀ k, w.adapter.outstanding k = none) (events : List Event) (w' : World)
    (h : (mainLoop w events).result = .ok w') :
    (∃ books, bookedLoop w events = ⟨(mainLoop w events).sent, .ok books⟩ ∧
      books.state = w' ∧ books.credit = books.debit + waiting w'.adapter) ∧
    Multiset.card (waiting w'.adapter) ≤ 1024 ∧
    ∀ front e rest w₁, events = front ++ e :: rest → (mainLoop w front).result = .ok w₁ →
      List.Forall₂ (Stands w₁ e)
        (entered w₁ e (step w₁ e).sent ++ resolved w₁ e (step w₁ e).sent)
        (posted e (step w₁ e).sent) := by
  refine ⟨?_, ?_, ?_⟩
  · obtain ⟨hsent, hresult⟩ := Output.run_bookStep step
      (fun w e sent => (entered w e sent : Multiset (Slot × IDtoAddr)))
      (fun w e sent => (resolved w e sent : Multiset (Slot × IDtoAddr))) ⟨w, 0, 0⟩ events
    obtain ⟨books, hbooks, rfl⟩ := map_eq_ok.mp (hresult.trans h)
    have hbalance := Output.run_balance hbooks (fun w => waiting w.adapter) World.Sized
      (fun w e w' hw hstep =>
        ⟨(step_sized hw e).result w' hstep, (step_accounted hw hstep).balance⟩) hs
    have hempty : waiting w.adapter = 0 := entries_of_none fun k => by rw [hw k]; rfl
    rw [hempty, zero_add] at hbalance
    refine ⟨books, ?_, rfl, hbalance⟩
    exact congrArg₂ Output.mk hsent hbooks
  · calc Multiset.card (waiting w'.adapter) ≤ Fintype.card Slot := card_entries_le _
      _ = 1024 := by simp
  · rintro front e rest w₁ rfl hfront
    obtain ⟨w₂, hstep⟩ := Output.run_step_of_ok h hfront
    exact (step_accounted (mainLoop_sized hs hfront) hstep).stands

/-- Two queries of one client and one of another for the mail exchanger of `a`. The first is
answered, the second times out and the third still waits. -/
def threeQueries : List Event :=
  [.request ⟨2, 1, 1⟩ (questionMessage 7 flagQuery [[97]] 15) 0 0 0,
    .request ⟨2, 2, 2⟩ (questionMessage 8 flagQuery [[97]] 15) 0 0 0,
    .request ⟨2, 1, 1⟩ (questionMessage 9 flagQuery [[97]] 15) 900 0 0,
    .relay (initQueryServer 0) (questionMessage 0 0x8180 [[97]] 15) 0 0,
    .sweep fun _ => 1000]

theorem threeQueries_returns : ∃ w, (mainLoop (booted 0) threeQueries).result = .ok w :=
  exists_ok_of_stopOf (by decide +kernel)

theorem queries_accounted_sample :
    ∃ w' books, bookedLoop (booted 0) threeQueries =
        ⟨(mainLoop (booted 0) threeQueries).sent, .ok books⟩ ∧
      books.state = w' ∧ books.credit = books.debit + waiting w'.adapter := by
  obtain ⟨w', h⟩ := threeQueries_returns
  obtain ⟨⟨books, hbooks⟩, -⟩ := queries_accounted (booted 0) (booted_sized 0)
    (booted_initial 0).free threeQueries w' h
  exact ⟨w', books, hbooks⟩

end Runs

end DnsRelay.Relay
