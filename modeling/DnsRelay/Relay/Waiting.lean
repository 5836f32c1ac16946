import DnsRelay.Message.Replies
import DnsRelay.Relay.Ledger
import DnsRelay.Relay.Service

/-!
# The table of the service

The slots in use are the pending queries of the service. A sweep finds a C string in every
slot, because a message that is saved never reaches the last byte of its array, so it always
comes to its end.
-/

namespace DnsRelay.Relay

open DnsRelay.Message DnsRelay.Adapter DnsRelay.Lib DnsRelay.Lib.Machine Function

variable {a b : IDAdapter} {k : Slot} {clock : Slot → ℤ}

/-- The query that waits in a slot. -/
def pendingOf (e : Entry) : Option Pending :=
  if e.valid then some ⟨e.info.addr, e.info.oldId.toNat, e.info.type.toNat, e.start⟩ else none

theorem pendingOf_eq_none {e : Entry} : pendingOf e = none ↔ e.valid = false := by
  simp [pendingOf]

theorem pendingOf_of_valid {e : Entry} (h : e.valid = true) :
    pendingOf e = some ⟨e.info.addr, e.info.oldId.toNat, e.info.type.toNat, e.start⟩ := if_pos h

/-- The last byte of every message is zero. -/
def Terminated (a : IDAdapter) : Prop := ∀ k, (a.data k).message[1023]? = some 0

/-- The table holds the pending queries of the service. -/
structure Waits (a : IDAdapter) (s : Service) : Prop where
  terminated : Terminated a
  pending : ∀ k, s.pending k = pendingOf (a.data k)
  cursor : s.cursor = a.next

theorem Terminated.set {e : Entry} (h : Terminated a) (he : e.message[1023]? = some 0) :
    Terminated (a.set k e) := by
  intro j
  by_cases hj : j = k
  · subst hj
    simpa [IDAdapter.set] using he
  · simpa [IDAdapter.set, hj] using h j

/-- The flags and the code that a refusal writes. -/
theorem setHeader_refused {buffer : Bytes} (h : 4 ≤ buffer.length) :
    ∃ buffer₁, setHeaderFlag buffer flagResponseNormal = .ok buffer₁ ∧
      setHeaderRcodeRefused buffer₁ = .ok ((buffer.set 2 0x80).set 3 0x05) := by
  match buffer, h with
  | b₀ :: b₁ :: b₂ :: b₃ :: rest, _ => exact ⟨b₀ :: b₁ :: 0x80 :: 0 :: rest, rfl, rfl⟩

section Sweep

/-- A slot that has timed out gets its reply. -/
theorem sweepSlot_returns (h : Terminated a) (clock : Slot → ℤ) (k : Slot) :
    ∃ b, (IDAdapter.sweepSlot clock a k).result = .ok b ∧ Terminated b ∧
      (IDAdapter.timedOut (a.data k) (clock k) = true → ∃ reply,
        (IDAdapter.sweepSlot clock a k).sent = [⟨.server, (a.data k).info.addr, reply⟩]) := by
  unfold IDAdapter.sweepSlot
  split
  next ht =>
    obtain ⟨hlt, hlast⟩ := List.getElem?_eq_some_iff.mp (h k)
    obtain ⟨message, hflag, hcode⟩ :=
      setHeader_refused (show 4 ≤ (a.data k).message.length by omega)
    have hend : (((a.data k).message.set 2 0x80).set 3 0x05)[1023]? = some 0 := by
      rw [List.getElem?_set_ne (by omega), List.getElem?_set_ne (by omega)]
      exact h k
    have htext : cString (((a.data k).message.set 2 0x80).set 3 0x05) = .ok _ :=
      if_pos (List.mem_of_getElem? hend)
    simp only [hflag, hcode, htext, Output.lift_ok_bind, Output.result_emit_bind,
      Output.result_pure, Output.sent_emit_bind, Output.sent_pure]
    exact ⟨_, rfl, h.set hend, fun _ => ⟨_, rfl⟩⟩
  next ht => exact ⟨a, rfl, h, fun ht' => absurd ht' ht⟩

theorem run_sweepSlot_returns (h : Terminated a) (clock : Slot → ℤ) (ks : List Slot) :
    ∃ b, (Output.run (IDAdapter.sweepSlot clock) a ks).result = .ok b ∧ Terminated b := by
  induction ks generalizing a with
  | nil => exact ⟨a, rfl, h⟩
  | cons k ks ih =>
      obtain ⟨a₁, hfirst, h₁, -⟩ := sweepSlot_returns h clock k
      obtain ⟨b, hrest, hb⟩ := ih h₁
      refine ⟨b, ?_, hb⟩
      rw [Output.run, Output.bind_of_ok hfirst]
      exact hrest

end Sweep

/-- A datagram of the relay says what the service has to say. What stands in the reply to a query
that has waited for too long is left open. -/
def Notice.Says : Notice → Datagram → Prop
  | .nameError client message, d => d = ⟨.server, client, withFlags 0x8003 message⟩
  | .answer client q records, d => d.socket = .server ∧ d.dest = client ∧
      HasAt d.bytes 0 (u16Bytes q.id) ∧
      Decodes d.bytes [⟨[q.labels], q.qtype, q.qclass⟩] records [] []
  | .forward upstream k message, d => d = ⟨.query, upstream, replaceId k message⟩
  | .deliver client id message, d => d = ⟨.server, client, replaceId id message⟩
  | .expire client, d => d.socket = .server ∧ d.dest = client

theorem Notice.Says.single {notice : Notice} {sent : List Datagram}
    (h : List.Forall₂ Notice.Says [notice] sent) : ∃ d, sent = [d] ∧ notice.Says d := by
  obtain ⟨d, rest, hd, hrest, hsent⟩ := List.forall₂_cons_left_iff.mp h
  obtain rfl := List.forall₂_nil_left_iff.mp hrest
  exact ⟨d, hsent, hd⟩

section Tick

variable {s : Service}

theorem Waits.overdue_eq (h : Waits a s) (clock : Slot → ℤ) (k : Slot) :
    s.overdue clock k = if IDAdapter.timedOut (a.data k) (clock k) = true
      then pendingOf (a.data k) else none := by
  rw [Service.overdue, h.pending]
  by_cases hv : (a.data k).valid = true
  · rw [pendingOf_of_valid hv, Option.filter_some]
    by_cases hage : dnsTtl ≤ clock k - (a.data k).start
    · rw [if_pos (decide_eq_true hage), if_pos (timedOut_eq_true.mpr ⟨hv, hage⟩)]
    · rw [if_neg (by simpa using hage), if_neg fun ht => hage (timedOut_eq_true.mp ht).2]
  · rw [if_neg fun ht => hv (timedOut_eq_true.mp ht).1,
      pendingOf_eq_none.mpr (Bool.eq_false_iff.mpr hv), Option.filter_none]

/-- Whose query has timed out is told so, and nobody else is. -/
theorem Waits.sweepSlot_says (h : Waits a s) (clock : Slot → ℤ) (k : Slot) :
    List.Forall₂ Notice.Says ((s.overdue clock k).map fun p => .expire p.client).toList
      (IDAdapter.sweepSlot clock a k).sent := by
  rw [h.overdue_eq]
  by_cases ht : IDAdapter.timedOut (a.data k) (clock k) = true
  · obtain ⟨-, -, -, hsent⟩ := sweepSlot_returns h.terminated clock k
    obtain ⟨reply, hsent⟩ := hsent ht
    rw [if_pos ht, pendingOf_of_valid (timedOut_eq_true.mp ht).1, hsent]
    exact .cons ⟨rfl, rfl⟩ .nil
  · have hsent : (IDAdapter.sweepSlot clock a k).sent = [] := by
      rw [IDAdapter.sweepSlot, if_neg ht]
      rfl
    rw [if_neg ht, hsent]
    exact .nil

/-- A sweep does on the table what the clock does to the pending queries. -/
theorem Waits.sweep (h : Waits a s) (clock : Slot → ℤ) :
    ∃ b, (a.sweep clock).result = .ok b ∧ Waits b (s.tick clock).1 ∧
      List.Forall₂ Notice.Says (s.expirations clock) (a.sweep clock).sent := by
  obtain ⟨b, hsweep, hb⟩ :=
    run_sweepSlot_returns h.terminated clock (List.finRange idAdapterSize)
  have hresult : (a.sweep clock).result = .ok b := hsweep
  have hswept := (IDAdapter.sweep_ensures a clock).result b hresult
  refine ⟨b, hresult, ⟨hb, fun k => ?_, h.cursor.trans hswept.next_eq.symm⟩, ?_⟩
  · change (if (s.overdue clock k).isSome then none else s.pending k) = _
    rw [h.overdue_eq]
    by_cases ht : IDAdapter.timedOut (a.data k) (clock k) = true
    · rw [if_pos ht, pendingOf_of_valid (timedOut_eq_true.mp ht).1,
        pendingOf_eq_none.mpr (IDAdapter.sweep_frees ht hresult)]
      rfl
    · rw [if_neg ht, hswept.kept k (Bool.eq_false_iff.mpr ht)]
      exact h.pending k
  · rw [sent_sweep hresult]
    exact forall₂_filterMap fun k _ => h.sweepSlot_says clock k

end Tick

section Forward

variable {w : World} {s : Service} {q : Inquiry} {message : Bytes} {client : SockaddrIn}

/-- A text that is copied ends before the last byte of the array. -/
theorem Terminated.push {id : UInt16} {type : UInt8} {time : ℤ} {buffer text : Bytes}
    {r : Option Slot} (h : Terminated a) (htext : cString buffer = .ok text)
    (hlen : text.length < 1023) (hp : a.push id client type time buffer = .ok (b, r)) :
    Terminated b := by
  cases hv : (a.data a.next).valid with
  | true =>
      rw [IDAdapter.push_of_used hv] at hp
      cases hp
      exact h
  | false =>
      obtain ⟨hlt, -⟩ := List.getElem?_eq_some_iff.mp (h a.next)
      rw [IDAdapter.push_of_free hv htext (by omega)] at hp
      cases hp
      refine h.set ?_
      rw [List.getElem?_append_right (by omega),
        show 1023 - text.length = 1022 - text.length + 1 by omega, List.getElem?_cons_succ,
        List.getElem?_drop, show text.length + 1 + (1022 - text.length) = 1023 by omega]
      exact h a.next

theorem relayQuery_terminated (id : ℕ) (client : SockaddrIn) (clock : ℤ) {rec : ℕ}
    (h : Terminated w.adapter) (hs : w.Sized) (hrec : rec ≤ 520) :
    Output.Ensures (fun _ => True) (relayQuery w id client rec clock) fun w' =>
      Terminated w'.adapter := by
  have hlt : rec < w.recvBuffer.length := by
    rw [hs.recvBuffer]
    omega
  obtain ⟨text, htext, hlen⟩ := cString_set_zero hlt
  rw [relayQuery, writeByte_of_lt hlt, Output.lift_ok_bind]
  apply (Output.ensures_lift (P := fun p => Terminated p.1)
    fun p hp => h.push htext (by omega) hp).bind
  rintro ⟨adapter, newId⟩ hadapter
  cases newId with
  | none => exact Output.ensures_pure hadapter
  | some k =>
      apply (Output.ensures_true _).bind
      intro buffer _
      apply (Output.ensures_emit trivial).bind
      exact fun _ _ => Output.ensures_pure hadapter

/-- A query that no store has answered is passed on as the service passes it on. -/
theorem relayQuery_forwards (hs : w.Sized) (h : Waits w.adapter s)
    (hup : s.upstream = w.queryServer) (hlen : message.length ≤ 520)
    (htake : w.recvBuffer.take message.length = message) (hqtype : w.question.qtype = q.qtype)
    (hlt : q.qtype < 256) (hid : q.id < 65536) (clock : ℤ) :
    ∃ w', (relayQuery w q.id client message.length clock).result = .ok w' ∧
      w'.cacheset = w.cacheset ∧ w'.queryServer = w.queryServer ∧
      Waits w'.adapter (s.forward client q message clock).1 ∧
      List.Forall₂ Notice.Says (s.forward client q message clock).2
        (relayQuery w q.id client message.length clock).sent := by
  have hrec : message.length < w.recvBuffer.length := by
    rw [hs.recvBuffer]
    omega
  have hkeep := relayQuery_terminated q.id client clock h.terminated hs hlen
  cases hv : (w.adapter.data w.adapter.next).valid with
  | true =>
      have hfull : s.forward client q message clock = (s, []) := by
        rw [Service.forward, h.cursor, h.pending, pendingOf_of_valid hv]
      have hquery : relayQuery w q.id client message.length clock = ⟨[], .ok
          { w with
            recvBuffer := w.recvBuffer.set message.length 0
            adapter := { w.adapter with lock := true } }⟩ := by
        simp only [relayQuery, writeByte_of_lt hrec, IDAdapter.push_of_used hv,
          Output.lift_ok_bind]
        rfl
      rw [hfull, hquery]
      exact ⟨_, rfl, rfl, rfl, ⟨h.terminated, h.pending, h.cursor⟩, .nil⟩
  | false =>
      obtain ⟨saved, -, hquery⟩ := relayQuery_of_unused q.id client clock hs
        (show message.length < 1024 by omega) hv
      have hroom : s.forward client q message clock =
          ({ s with
            pending := update s.pending s.cursor (some ⟨client, q.id, q.qtype, clock⟩)
            cursor := s.cursor + 1 }, [.forward s.upstream s.cursor message]) := by
        rw [Service.forward, h.cursor, h.pending, pendingOf_eq_none.mpr hv]
      have hterm := hkeep.result _ (by rw [hquery])
      rw [hroom, hquery, htake]
      refine ⟨_, rfl, rfl, rfl, ⟨hterm, fun k => ?_, ?_⟩, .cons ?_ .nil⟩
      · simp only [IDAdapter.set, h.cursor]
        by_cases hk : k = w.adapter.next
        · rw [hk, update_self, update_self, pendingOf_of_valid rfl, hqtype]
          simp only [UInt16.toNat_ofNat', UInt8.toNat_ofNat', Nat.reducePow,
            Nat.mod_eq_of_lt hid, Nat.mod_eq_of_lt hlt]
        · rw [update_of_ne hk, update_of_ne hk]
          exact h.pending k
      · rw [h.cursor]
      · rw [hup, h.cursor]
        rfl

end Forward

section Deliver

variable {w w' : World} {s : Service} {sender : SockaddrIn} {data : Bytes} {now time : ℤ}

/-- The cursor moves with queries only. -/
theorem handleRelay_next (w : World) (sender : SockaddrIn) (data : Bytes) (now time : ℤ) :
    Output.Ensures (fun _ => True) (handleRelay w sender data now time) fun w' =>
      w'.adapter.next = w.adapter.next := by
  apply (Output.ensures_true _).bind
  intro header _
  apply (Output.ensures_true _).bind
  intro found _
  cases found with
  | none => exact Output.ensures_pure rfl
  | some info =>
      apply (Output.ensures_lift (P := fun w₁ => w₁.adapter.next = w.adapter.next)
        fun w₁ h => by rw [(cacheAnswers_frame h).1]; rfl).bind
      intro w₁ hw₁
      apply (Output.ensures_true _).bind
      intro buffer _
      apply (Output.ensures_emit trivial).bind
      intro _ _
      apply (Output.ensures_lift (P := fun b => b.next = w.adapter.next) _).bind
      · exact fun b hb => Output.ensures_pure hb
      · intro b hb
        obtain ⟨k, -, rfl⟩ := IDAdapter.pop_cases hb
        exact hw₁

/-- A query whose reply has been handed on waits no longer. -/
theorem Waits.deliver {info : IDtoAddr} (h : Waits w.adapter s)
    (hd : Delivered w sender data k info (handleRelay w sender data now time) w')
    {s' : Service} (hpending : s'.pending = update s.pending k none)
    (hcursor : s'.cursor = s.cursor) : Waits w'.adapter s' where
  terminated := by
    intro j
    rw [hd.freed]
    by_cases hj : j = k
    · rw [hj, update_self]
      exact h.terminated k
    · rw [update_of_ne hj]
      exact h.terminated j
  pending := by
    intro j
    rw [hd.freed, hpending]
    by_cases hj : j = k
    · rw [hj, update_self, update_self, pendingOf_eq_none.mpr rfl]
    · rw [update_of_ne hj, update_of_ne hj]
      exact h.pending j
  cursor := by
    rw [hcursor, h.cursor]
    exact ((handleRelay_next w sender data now time).result w' hd.result).symm

end Deliver

end DnsRelay.Relay
