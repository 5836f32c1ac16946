import DnsRelay.Relay.Translation

/-!
# Delivery of late replies

The relay together with the upstream server: every query that has been forwarded may be
answered once, at any time. A slot that was swept is handed out again when the cursor has
gone round, and then a late reply to the old query meets the new owner of its id. The
reply reaches its own client whenever the query forwarded last under the id is that
client's, or the slot is free and the reply is dropped.
-/

namespace DnsRelay.Relay

open DnsRelay.Message DnsRelay.Adapter DnsRelay.Static DnsRelay.Lib DnsRelay.Lib.Machine Function

/-- A query as it went upstream: its client and the id that `IDAdapter_push` gave it. -/
structure Query where
  client : SockaddrIn
  id : Slot
  deriving DecidableEq

/-- The relay, the queries it has forwarded, oldest first, and the numbers of those that
the upstream server has answered. -/
structure Net where
  world : World
  queries : List Query
  answered : List ℕ

/-- The upstream server may answer the query with a given number. -/
inductive NetEvent
  | sweep (clock : Slot → ℤ)
  | request (client : SockaddrIn) (data : Bytes) (clock now time : ℤ)
  | reply (number : ℕ) (sender : SockaddrIn) (body : Bytes) (now time : ℤ)

/-- A datagram that the relay sends on a reply, with the client whose query the reply
answers. -/
structure Delivery where
  owner : SockaddrIn
  datagram : Datagram
  deriving DecidableEq

/-- One step of the relay or of the upstream server. `IDAdapter_push` hands out the
cursor slot; a reply carries the id of its query; a query that does not exist or is
already answered gets no reply. -/
def netStep (n : Net) : NetEvent → Output Delivery Stop Net
  | .sweep clock => ⟨[], (step n.world (.sweep clock)).result.map fun w => { n with world := w }⟩
  | .request client data clock now time =>
      let o := step n.world (.request client data clock now time)
      ⟨[], o.result.map fun w =>
        { n with
          world := w
          queries := n.queries ++
            (o.sent.filter (·.socket = .query)).map fun _ => ⟨client, n.world.adapter.next⟩ }⟩
  | .reply number sender body now time =>
      match n.queries[number]? with
      | none => pure n
      | some q =>
          if number ∈ n.answered then pure n
          else
            let o := step n.world (.relay sender (u16Bytes q.id ++ body) now time)
            ⟨o.sent.map fun d => ⟨q.client, d⟩, o.result.map fun w =>
              { n with world := w, answered := number :: n.answered }⟩

/-- The query forwarded last under an id. -/
def latest (queries : List Query) (k : Slot) : Option Query :=
  (queries.filter (·.id = k)).getLast?

/-- A reply finds its slot free, or the query forwarded last under its id is from the same
client. -/
def timely (n : Net) : NetEvent → Bool
  | .reply number _ _ _ _ =>
      match n.queries[number]? with
      | none => true
      | some q => (n.world.adapter.data q.id).valid = false ∨
          (latest n.queries q.id).map Query.client = some q.client
  | _ => true

/-- Every slot in use belongs to the query forwarded last under its id. -/
def Routed (n : Net) : Prop :=
  ∀ k, (n.world.adapter.data k).valid = true →
    (latest n.queries k).map Query.client = some (n.world.adapter.data k).info.addr

section Steps

variable {n n' : Net} {k : Slot}

theorem latest_append_self (queries : List Query) (q : Query) :
    latest (queries ++ [q]) q.id = some q := by
  simp [latest]

theorem latest_append_of_ne (queries : List Query) {q : Query} (h : q.id ≠ k) :
    latest (queries ++ [q]) k = latest queries k := by
  simp [latest, h]

/-- A round in which the entries only lose validity and the queries stay the same. -/
theorem routed_of_freed (hr : Routed n) (hq : n'.queries = n.queries)
    (hd : ∀ k, n'.world.adapter.data k = n.world.adapter.data k ∨
      (n'.world.adapter.data k).valid = false) : Routed n' := by
  intro k hk
  rcases hd k with hsame | hfree
  · rw [hsame] at hk
    rw [hq, hsame]
    exact hr k hk
  · rw [hfree] at hk
    cases hk

theorem netStep_sweep (hr : Routed n) (clock : Slot → ℤ) :
    Output.Ensures (fun d => d.datagram.dest = d.owner) (netStep n (.sweep clock)) Routed := by
  constructor
  · intro d hd
    cases hd
  · intro n' hn'
    simp only [netStep, map_eq_ok] at hn'
    obtain ⟨w, hw, rfl⟩ := hn'
    have hswept := ((step_sweep n.world clock).result w hw).2
    exact routed_of_freed hr rfl hswept.freed

/-- A new query takes its slot over from all the older ones. -/
theorem netStep_request (hr : Routed n) (client : SockaddrIn) (data : Bytes)
    (clock now time : ℤ) :
    Output.Ensures (fun d => d.datagram.dest = d.owner)
      (netStep n (.request client data clock now time)) Routed := by
  constructor
  · intro d hd
    cases hd
  · intro n' hn'
    obtain ⟨w, hw, rfl⟩ := map_eq_ok.mp hn'
    rcases handleRequest_cases n.world client data clock now time with
      h | ⟨id, front, bytes, w', h⟩
    · -- nothing went upstream
      have hnone : (step n.world (.request client data clock now time)).sent.filter
          (·.socket = .query) = [] := h.upstream_nil
      refine routed_of_freed hr (by simp [hnone]) fun k => .inl ?_
      rw [h.data_eq w hw]
    · cases h.result.symm.trans hw
      have hone : (step n.world (.request client data clock now time)).sent.filter
          (·.socket = .query) = [⟨.query, n.world.queryServer, bytes⟩] := h.upstream_eq
      obtain ⟨type, start, message, hentry⟩ := h.entry
      intro k hk
      rw [hentry] at hk
      simp only [hone, hentry, List.map_cons, List.map_nil]
      by_cases hkn : k = n.world.adapter.next
      · subst hkn
        rw [latest_append_self _ ⟨client, n.world.adapter.next⟩]
        simp
      · rw [update_of_ne hkn] at hk ⊢
        rw [latest_append_of_ne _ (Ne.symm hkn)]
        exact hr k hk

/-- A timely reply goes to the client of its query, or to nobody. -/
theorem netStep_reply (hr : Routed n) (number : ℕ) (sender : SockaddrIn) (body : Bytes)
    (now time : ℤ) (ht : timely n (.reply number sender body now time) = true) :
    Output.Ensures (fun d => d.datagram.dest = d.owner)
      (netStep n (.reply number sender body now time)) Routed := by
  simp only [netStep, timely] at ht ⊢
  split at ht
  next => exact Output.ensures_pure hr
  next q hq =>
    split
    · exact Output.ensures_pure hr
    · rcases handleRelay_cases n.world sender (u16Bytes q.id ++ body) now time with
        h | ⟨header, k, info, w', hh, hk, h⟩
      · constructor
        · intro d hd
          rw [show (step n.world (.relay sender (u16Bytes q.id ++ body) now time)).sent = _
            from h.sent] at hd
          cases hd
        · intro n' hn'
          obtain ⟨w, hw, rfl⟩ := map_eq_ok.mp hn'
          refine routed_of_freed hr rfl fun k => .inl ?_
          rw [h.data_eq w hw]
      · have hid := readDnsHeader_id_eq hh (hasAt_receive
          ((hasAt_length_append [] _).append_right body) (by simp [u16Bytes])) (slot_lt q.id)
        rw [hid, slotOf_toShort] at hk
        cases hk
        obtain ⟨hvalid, hinfo⟩ := IDAdapter.outstanding_eq_some.mp h.outstanding
        have hlatest := hr q.id hvalid
        constructor
        · intro d hd
          rw [show (step n.world (.relay sender (u16Bytes q.id ++ body) now time)).sent = _
            from h.sent, List.map_singleton, List.mem_singleton] at hd
          subst hd
          simp only [decide_eq_true_eq, hvalid, Bool.true_eq_false, false_or] at ht
          rw [hlatest, hinfo] at ht
          exact Option.some.inj ht
        · intro n' hn'
          obtain ⟨w, hw, rfl⟩ := map_eq_ok.mp hn'
          cases h.result.symm.trans hw
          refine routed_of_freed hr rfl fun k => ?_
          rw [h.freed]
          by_cases hkq : k = q.id
          · subst hkq
            simp
          · rw [update_of_ne hkq]
            exact .inl rfl

theorem netStep_ensures (hr : Routed n) {e : NetEvent} (ht : timely n e = true) :
    Output.Ensures (fun d => d.datagram.dest = d.owner) (netStep n e) Routed := by
  cases e with
  | sweep clock => exact netStep_sweep hr clock
  | request client data clock now time => exact netStep_request hr client data clock now time
  | reply number sender body now time => exact netStep_reply hr number sender body now time ht

end Steps

/-- In every run from an empty table in which every reply is timely, each datagram that the
relay sends on a reply goes to the client whose query the reply answers. -/
theorem netRun_delivers (w : World) (hw : ∀ k, (w.adapter.data k).valid = false)
    (events : List NetEvent) (ht : Output.along netStep timely ⟨w, [], []⟩ events = true) :
    ∀ d ∈ (Output.run netStep ⟨w, [], []⟩ events).sent, d.datagram.dest = d.owner := by
  have hrun : Output.Ensures (fun d => d.datagram.dest = d.owner)
      (Output.run netStep ⟨w, [], []⟩ events) Routed := by
    refine Output.run_ensures ?_ ?_ ht
    · exact fun n e hr he => netStep_ensures hr he
    · intro k hk
      rw [hw k] at hk
      cases hk
  exact hrun.sent

/-- The queries of two clients, answered in the other order. -/
theorem netRun_delivers_sample :
    (Output.run netStep ⟨booted 0, [], []⟩
      [.request ⟨2, 1, 1⟩ (questionMessage 7 flagQuery [[97]] 15) 0 0 0,
        .request ⟨2, 2, 2⟩ (questionMessage 8 flagQuery [[98]] 15) 0 0 0,
        .reply 1 (initQueryServer 0) [0x81, 0x80] 0 0,
        .reply 0 (initQueryServer 0) [0x81, 0x80] 0 0]).sent.length = 2 ∧
    ∀ d ∈ (Output.run netStep ⟨booted 0, [], []⟩
      [.request ⟨2, 1, 1⟩ (questionMessage 7 flagQuery [[97]] 15) 0 0 0,
        .request ⟨2, 2, 2⟩ (questionMessage 8 flagQuery [[98]] 15) 0 0 0,
        .reply 1 (initQueryServer 0) [0x81, 0x80] 0 0,
        .reply 0 (initQueryServer 0) [0x81, 0x80] 0 0]).sent, d.datagram.dest = d.owner :=
  ⟨by decide +kernel, netRun_delivers (booted 0) (fun _ => rfl) _ (by decide +kernel)⟩

section LateReply

variable {w : World} {id qtype : ℕ} {labels : List Bytes}

/-- A query that no store can answer is forwarded when the cursor slot is free. -/
theorem handleRequest_unanswered (client : SockaddrIn) (clock now time : ℤ) (hs : w.Sized)
    (hq : Unanswered w labels qtype)
    (hid : id < 65536) (hfree : (w.adapter.data w.adapter.next).valid = false) :
    ∃ w' message, (handleRequest w client (questionMessage id flagQuery labels qtype) clock now
        time).result = .ok w' ∧
      (handleRequest w client (questionMessage id flagQuery labels qtype) clock now time).sent =
        [⟨.query, w.queryServer, replaceId w.adapter.next
          (questionMessage id flagQuery labels qtype)⟩] ∧
      w'.cacheset = w.cacheset ∧ w'.adapter.next = w.adapter.next + 1 ∧
      w'.adapter.data = update w.adapter.data w.adapter.next
        ⟨⟨client, UInt16.ofNat id, UInt8.ofNat qtype⟩, true, clock, message⟩ := by
  obtain ⟨hat₀, hat₂, hat₄, hat₁₂⟩ := hasAt_questionMessage id flagQuery labels qtype
  have hlen : (questionMessage id flagQuery labels qtype).length = _ :=
    questionMessage_length id flagQuery hq.ne_nil
  have hle := hq.length_le
  have hsize := hat₁₂.le_length (by simp [questionBytes, u16Bytes])
  generalize questionMessage id flagQuery labels qtype = data at *
  have hreceived : received data = data := received_eq_self_iff.mpr (by omega)
  have hh : readDnsHeader (receive w data).recvBuffer = .ok ⟨id, htons flagQuery⟩ :=
    readDnsHeader_of_hasAt (hasAt_receive hat₀ (by simp [u16Bytes])) hid
      (hasAt_receive hat₂ (by simp [u16Bytes])) (by decide)
  have hr := receive_sized hs data
  obtain ⟨label, ha⟩ := answerQuestion_unanswered hr
    ⟨hq.ne_nil, hq.valid, hq.length_le, hq.not_black, hq.qtype_lt, hq.ne_A, hq.ne_AAAA⟩ now time
    (by decide : 1 < 65536) (by decide : 1 < 65536) (hasAt_receive hat₄ (by simp [u16Bytes]))
    (hasAt_receive hat₁₂ (by omega))
  have hw₁ := answerQuestion_sized hr ha
  have hrec : (received data).length < 1024 := by
    rw [hreceived]
    omega
  obtain ⟨message, -, hrelay⟩ := relayQuery_of_unused id client clock hw₁ hrec hfree
  rw [handleRequest_of_query hh rfl, serveQuestion, ha, Output.lift_ok_bind]
  change ∃ w' message, (relayQuery _ id client (received data).length clock).result = .ok w' ∧
    (relayQuery _ id client (received data).length clock).sent = _ ∧ _
  rw [hrelay]
  refine ⟨_, message, rfl, ?_, rfl, rfl, rfl⟩
  rw [show ({ receive w data with question := ⟨label, qtype, 1⟩ } : World).recvBuffer.take
    (received data).length = received data from receive_take w data, hreceived]
  rfl

/-- A query for the mail exchanger of `a`. -/
def mxQuery : Bytes := questionMessage 7 flagQuery [[97]] 15

/-- A reply to it from its flags on. -/
def mxReplyBody : Bytes := (questionMessage 0 0x8180 [[97]] 15).drop 2

theorem unanswered_mx (h : w.cacheset.blacklist.isInit = false) : Unanswered w [[97]] 15 where
  ne_nil := by decide
  valid := by
    intro label hlabel
    rw [List.mem_singleton.mp hlabel]
    exact ⟨by decide, by decide, by decide, by decide⟩
  length_le := by decide
  not_black := getStaticCache_of_not_init h _
  qtype_lt := by decide
  ne_A := by decide
  ne_AAAA := by decide

/-- The client whose query times out, and the one whose queries go round the table. -/
def lateClient : SockaddrIn := ⟨2, 1, 1⟩
def floodClient : SockaddrIn := ⟨2, 2, 2⟩

/-- The slot that the cursor has reached after `j` queries from slot 1 on. -/
def slotAfter (j : ℕ) : Slot := Fin.ofNat idAdapterSize (1 + j)

theorem slotAfter_succ (j : ℕ) : slotAfter j + 1 = slotAfter (j + 1) := by
  apply Fin.ext
  simp [slotAfter, Fin.val_add, Nat.add_assoc]

theorem slotAfter_ne {i j : ℕ} (hi : i < 1024) (hj : j < i) : slotAfter i ≠ slotAfter j := by
  intro h
  have hval := congrArg Fin.val h
  simp only [slotAfter, Fin.val_ofNat, idAdapterSize] at hval
  omega

/-- The table after `j` queries of the flooding client. -/
structure Flooded (j : ℕ) (n : Net) : Prop where
  sized : n.world.Sized
  black : n.world.cacheset.blacklist.isInit = false
  next_eq : n.world.adapter.next = slotAfter j
  free : ∀ i, j ≤ i → i < 1024 → (n.world.adapter.data (slotAfter i)).valid = false
  used : ∀ i < j, n.world.adapter.outstanding (slotAfter i) = some ⟨floodClient, 7, 15⟩
  first : n.queries[0]? = some ⟨lateClient, 0⟩
  answered : n.answered = []

theorem flooded_request {n : Net} {j : ℕ} (h : Flooded j n) (hj : j < 1024) :
    ∃ n', (netStep n (.request floodClient mxQuery 1000 0 0)).result = .ok n' ∧
      Flooded (j + 1) n' := by
  have hfree : (n.world.adapter.data n.world.adapter.next).valid = false := by
    rw [h.next_eq]
    exact h.free j le_rfl hj
  obtain ⟨w, message, hw, -, hcache, hnext, hdata⟩ := handleRequest_unanswered floodClient
    1000 0 0 h.sized (unanswered_mx h.black) (by decide : 7 < 65536) hfree
  rw [h.next_eq] at hnext hdata
  refine ⟨_, map_eq_ok.mpr ⟨w, hw, rfl⟩, ?_⟩
  constructor
  · exact (handleRequest_sized h.sized mxQuery).result w hw
  · exact (congrArg (fun c => c.blacklist.isInit) hcache).trans h.black
  · exact hnext.trans (slotAfter_succ j)
  · intro i hi hi'
    change (w.adapter.data (slotAfter i)).valid = false
    rw [hdata, update_of_ne (slotAfter_ne hi' (by omega))]
    exact h.free i (by omega) hi'
  · intro i hi
    change w.adapter.outstanding (slotAfter i) = _
    rcases Nat.lt_succ_iff_lt_or_eq.mp hi with hlt | rfl
    · have hold := IDAdapter.outstanding_eq_some.mp (h.used i hlt)
      rw [IDAdapter.outstanding_eq_some, hdata, update_of_ne (slotAfter_ne hj hlt).symm]
      exact hold
    · rw [IDAdapter.outstanding_eq_some, hdata, update_self]
      exact ⟨rfl, rfl⟩
  · have hlen := (List.getElem?_eq_some_iff.mp h.first).1
    change (n.queries ++ _)[0]? = _
    rw [List.getElem?_append_left hlen]
    exact h.first
  · exact h.answered

/-- What is sent after the flood is sent by the run that begins with it. -/
theorem mem_sent_flood {d : Delivery} {rest : List NetEvent}
    (hrest : ∀ n, Flooded 1024 n → d ∈ (Output.run netStep n rest).sent) {m j : ℕ}
    (hj : j + m = 1024) {n : Net} (h : Flooded j n) :
    d ∈ (Output.run netStep n
      (List.replicate m (.request floodClient mxQuery 1000 0 0) ++ rest)).sent := by
  induction m generalizing j n with
  | zero =>
      cases hj
      exact hrest n h
  | succ m ih =>
      obtain ⟨n', hn', h'⟩ := flooded_request h (by omega)
      rw [List.replicate_succ, List.cons_append, Output.sent_run_cons hn']
      exact List.mem_append_right _ (ih (by omega) h')

/-- The late reply goes to the client that now owns the slot. -/
theorem flooded_reply {n : Net} (h : Flooded 1024 n) (body : Bytes) :
    ⟨lateClient, ⟨.server, floodClient, replaceId 7 (received (u16Bytes 0 ++ body))⟩⟩ ∈
      (Output.run netStep n [.reply 0 (initQueryServer 0) body 0 0]).sent := by
  have ho : n.world.adapter.outstanding 0 = some ⟨floodClient, 7, 15⟩ := h.used 1023 (by omega)
  have hk : HasAt (u16Bytes 0 ++ body) 0 (u16Bytes (0 : Slot)) :=
    (hasAt_length_append [] _).append_right body
  obtain ⟨header, hh, hslot⟩ := slotOf_of_hasAt h.sized hk
  have hc : cacheAnswers (relayed n.world (initQueryServer 0) (u16Bytes 0 ++ body)) 15 0 0 =
    .ok _ := rfl
  obtain ⟨w', hd, -⟩ := handleRelay_of_outstanding hh hslot ho hc
  have hstep : netStep n (.reply 0 (initQueryServer 0) body 0 0) =
      ⟨(handleRelay n.world (initQueryServer 0) (u16Bytes 0 ++ body) 0 0).sent.map
        fun d => ⟨lateClient, d⟩,
      .ok { n with world := w', answered := [0] }⟩ := by
    simp only [netStep, h.first, h.answered, List.not_mem_nil, if_false]
    exact congrArg _ (congrArg _ hd.result)
  have hok : (netStep n (.reply 0 (initQueryServer 0) body 0 0)).result =
      .ok { n with world := w', answered := [0] } := by rw [hstep]
  rw [Output.sent_run_cons hok, hstep, hd.sent]
  simp [Output.run]

theorem netStep_sized {n : Net} (hs : n.world.Sized) (e : NetEvent) :
    Output.Ensures (fun _ => True) (netStep n e) fun n => n.world.Sized := by
  refine ⟨fun _ _ => trivial, fun n' hn' => ?_⟩
  cases e with
  | sweep clock =>
      simp only [netStep, map_eq_ok] at hn'
      obtain ⟨w, hw, rfl⟩ := hn'
      exact (step_sized hs (.sweep clock)).result w hw
  | request client data clock now time =>
      simp only [netStep, map_eq_ok] at hn'
      obtain ⟨w, hw, rfl⟩ := hn'
      exact (step_sized hs (.request client data clock now time)).result w hw
  | reply number sender body now time =>
      simp only [netStep] at hn'
      split at hn'
      · cases hn'
        exact hs
      · split at hn'
        · cases hn'
          exact hs
        · obtain ⟨w, hw, rfl⟩ := map_eq_ok.mp hn'
          exact (step_sized hs _).result w hw

/-- The sweep has freed the only slot in use, and the cursor is behind it. -/
theorem flooded_start : ∃ n, (Output.run netStep ⟨booted 0, [], []⟩
    [.request lateClient mxQuery 0 0 0, .sweep fun _ => 1000]).result = .ok n ∧ Flooded 0 n := by
  have hsized : Output.Ensures (fun _ => True) (Output.run netStep ⟨booted 0, [], []⟩
      [.request lateClient mxQuery 0 0 0, .sweep fun _ => 1000]) fun n => n.world.Sized := by
    apply Output.run_ensures_of_mem
    · exact fun e _ n hn => netStep_sized hn e
    · exact booted_sized 0
  have hfacts : (Output.run netStep ⟨booted 0, [], []⟩
      [.request lateClient mxQuery 0 0 0, .sweep fun _ => 1000]).result.map (fun n =>
        (n.queries, n.answered, n.world.adapter.next, n.world.cacheset.blacklist.isInit,
          decide (∀ k, (n.world.adapter.data k).valid = false))) =
      .ok ([⟨lateClient, 0⟩], [], 1, false, true) := by
    decide +kernel
  obtain ⟨n, hn, hfacts⟩ := map_eq_ok.mp hfacts
  simp only [Prod.mk.injEq, decide_eq_true_eq] at hfacts
  obtain ⟨hqueries, hanswered, hnext, hblack, hfree⟩ := hfacts
  refine ⟨n, hn, hsized.result n hn, hblack, hnext, fun i _ _ => hfree _, ?_, ?_, hanswered⟩
  · intro i hi
    omega
  · rw [hqueries]
    rfl

/-- A query, the sweep that gives it up, 1024 queries of another client, and the reply to
the first query. -/
def lateReplyRun : List NetEvent :=
  [.request lateClient mxQuery 0 0 0, .sweep fun _ => 1000] ++
    (List.replicate 1024 (.request floodClient mxQuery 1000 0 0) ++
      [.reply 0 (initQueryServer 0) mxReplyBody 0 0])

theorem lateReply_misdelivered :
    ¬ ∀ d ∈ (Output.run netStep ⟨booted 0, [], []⟩ lateReplyRun).sent,
      d.datagram.dest = d.owner := by
  intro h
  obtain ⟨n, hn, hstart⟩ := flooded_start
  have hmem := mem_sent_flood (fun n hn => flooded_reply hn mxReplyBody)
    (by rfl : 0 + 1024 = _) hstart
  have hdest := h _ (by
    rw [lateReplyRun, Output.run_append hn]
    exact List.mem_append_right _ hmem)
  revert hdest
  decide

end LateReply

end DnsRelay.Relay
