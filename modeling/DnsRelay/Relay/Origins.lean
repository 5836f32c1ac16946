import DnsRelay.Relay.Ledger

/-!
# Where the datagrams come from

The relay writes to nobody of its own accord. A datagram to a client goes to the sender of a
request, and what goes upstream is the request of the round, under the id of the slot that
has been filled for it in the same round. So the age of a waiting query is counted from its
request, and a sweep refuses the waiting queries by their age.
-/

namespace DnsRelay.Relay

open DnsRelay.Message DnsRelay.Adapter DnsRelay.Lib DnsRelay.Lib.Machine Function

variable {w w' : World} {events front : List Event} {client : SockaddrIn}
  {clock now time : ℤ} {data : Bytes} {d : Datagram} {a : IDAdapter} {k : Slot}

/-- A request of the events is from this client. -/
def Requests (events : List Event) (client : SockaddrIn) : Prop :=
  ∃ data clock now time, Event.request client data clock now time ∈ events

/-- A slot in use was filled for a request, by its client and at its time. -/
def EntryOrigin (events : List Event) (e : Entry) : Prop :=
  ∃ data now time, Event.request e.info.addr data e.start now time ∈ events

theorem EntryOrigin.requests {e : Entry} (h : EntryOrigin events e) :
    Requests events e.info.addr := by
  obtain ⟨data, now, time, he⟩ := h
  exact ⟨data, _, now, time, he⟩

theorem Requests.append {more : List Event} (h : Requests events client) :
    Requests (events ++ more) client := by
  obtain ⟨data, clock, now, time, he⟩ := h
  exact ⟨data, clock, now, time, List.mem_append_left _ he⟩

/-- What the loop keeps: every slot in use was filled for a request of the run. -/
structure Rooted (events : List Event) (w : World) : Prop where
  sized : w.Sized
  origin : ∀ k, (w.adapter.data k).valid = true → EntryOrigin events (w.adapter.data k)

section Steps

/-- Freeing slots keeps what is known of the others. -/
theorem Rooted.freed (hr : Rooted events w) (hs : w'.Sized)
    (h : ∀ k, w'.adapter.data k = w.adapter.data k ∨ (w'.adapter.data k).valid = false) :
    Rooted events w' := by
  refine ⟨hs, fun k hk => ?_⟩
  rcases h k with h | h
  · rw [h] at hk ⊢
    exact hr.origin k hk
  · rw [h] at hk
    cases hk

/-- One round of the loop on an event of the run. -/
theorem step_rooted {e : Event} (he : e ∈ events) (hr : Rooted events w)
    (h : (step w e).result = .ok w') : Rooted events w' := by
  have hs := (step_sized hr.sized e).result w' h
  cases e with
  | sweep clock => exact hr.freed hs ((step_sweep w clock).result w' h).2.freed
  | relay sender data now time =>
      apply hr.freed hs
      rcases handleRelay_cases w sender data now time with hc | ⟨header, k, info, w₁, -, -, hc⟩
      · exact fun k => .inl (by rw [hc.data_eq w' h])
      · obtain rfl : w₁ = w' := Except.ok.inj (hc.result.symm.trans h)
        intro j
        rw [hc.freed]
        by_cases hj : j = k
        · subst hj
          exact .inr (by simp)
        · exact .inl (update_of_ne hj _ _)
  | request client data clock now time =>
      refine ⟨hs, fun k hk => ?_⟩
      rcases (handleRequest_question hr.sized h).2.2 k with hsame | ⟨message, hnew⟩
      · rw [hsame] at hk ⊢
        exact hr.origin k hk
      · rw [hnew]
        exact ⟨data, now, time, he⟩

theorem mainLoop_rooted (hs : w.Sized) (hw : ∀ k, w.adapter.outstanding k = none)
    (h : (mainLoop w events).result = .ok w') : Rooted events w' := by
  have hroot : Rooted events w := by
    refine ⟨hs, fun k hk => ?_⟩
    rw [IDAdapter.outstanding_eq_none.mp (hw k)] at hk
    cases hk
  have hrun : Output.Ensures (fun _ => True) (mainLoop w events) (Rooted events) :=
    Output.run_ensures_of_mem (fun e he v hv =>
      ⟨fun _ _ => trivial, fun _ => step_rooted he hv⟩) hroot
  exact hrun.result w' h

/-- A round of the sweep writes to the client of a slot in use only. -/
theorem sweepSlot_dest {clock : Slot → ℤ} (hd : d ∈ (IDAdapter.sweepSlot clock a k).sent) :
    (a.data k).valid = true ∧ d.socket = .server ∧ d.dest = (a.data k).info.addr := by
  cases ht : IDAdapter.timedOut (a.data k) (clock k) with
  | true =>
      rw [sent_sweepSlot ht] at hd
      split at hd
      · rw [List.mem_singleton.mp hd]
        exact ⟨(timedOut_eq_true.mp ht).1, rfl, rfl⟩
      · cases hd
  | false => simp [IDAdapter.sweepSlot, ht] at hd

/-- A sweep writes to clients of slots in use, whether or not it comes to its end. -/
theorem sweep_dest {clock : Slot → ℤ}
    (ha : ∀ k, (a.data k).valid = true → Requests events (a.data k).info.addr) :
    ∀ d ∈ (a.sweep clock).sent, d.socket = .server ∧ Requests events d.dest := by
  have hrun : Output.Ensures (fun d => d.socket = .server ∧ Requests events d.dest)
      (a.sweep clock) fun b =>
        ∀ k, (b.data k).valid = true → Requests events (b.data k).info.addr := by
    apply Output.run_ensures_of_mem
    · intro k _ a ha
      constructor
      · intro d hd
        obtain ⟨hvalid, hsocket, hdest⟩ := sweepSlot_dest hd
        exact ⟨hsocket, hdest ▸ ha k hvalid⟩
      · intro b hb j hj
        rcases IDAdapter.sweepSlot_cases hb with ⟨-, rfl⟩ | ⟨-, message, rfl⟩
        · exact ha j hj
        · by_cases hjk : j = k
          · subst hjk
            simp [IDAdapter.set] at hj
          · simp only [IDAdapter.set, update_of_ne hjk] at hj ⊢
            exact ha j hj
    · exact ha
  exact hrun.sent

/-- A datagram of a round goes to a client that has made a request before or in the round; or
it goes upstream as the request of the round, under the id of a slot that was free and is
filled in the round for this client, his id and his question type. -/
def DatagramOrigin (front : List Event) (w : World) (e : Event) (d : Datagram) : Prop :=
  (d.socket = .server ∧ Requests (front ++ [e]) d.dest) ∨
  ∃ client data clock now time message w', e = .request client data clock now time ∧
    d = ⟨.query, w.queryServer, upstreamForm w w.adapter.next data⟩ ∧
    w.adapter.outstanding w.adapter.next = none ∧ (step w e).result = .ok w' ∧
    w'.adapter.data = update w.adapter.data w.adapter.next
      ⟨requestInfo w client data, true, clock, message⟩

theorem handleRequest_origin (hs : w.Sized)
    (hd : d ∈ (handleRequest w client data clock now time).sent) :
    DatagramOrigin front w (.request client data clock now time) d := by
  have hclient : ∀ d : Datagram, d.socket = .server ∧ d.dest = client →
      DatagramOrigin front w (.request client data clock now time) d := by
    rintro d ⟨hsocket, rfl⟩
    exact .inl ⟨hsocket, data, clock, now, time, by simp⟩
  rcases handleRequest_cases w client data clock now time with hc | ⟨id, front', bytes, w₁, hc⟩
  · exact hclient d (hc.sent d hd)
  · rw [hc.sent] at hd
    rcases List.mem_append.mp hd with hfront | hlast
    · exact hclient d (hc.front_settled d hfront)
    · obtain rfl := List.mem_singleton.mp hlast
      obtain ⟨message, hentry⟩ := handleRequest_entry hs hc
      refine .inr ⟨client, data, clock, now, time, message, w₁, rfl, ?_,
        IDAdapter.outstanding_eq_none.mpr hc.free, hc.result, hentry⟩
      rw [handleRequest_form hs hc]

/-- What one round sends after a run has its origin in the run and the round. -/
theorem step_origin {e : Event} (hr : Rooted front w) (hd : d ∈ (step w e).sent) :
    DatagramOrigin front w e d := by
  cases e with
  | sweep clock =>
      have hsent : d ∈ (w.adapter.sweep clock).sent := by
        rwa [step, Output.sent_bind_of_nil _ fun _ => Output.sent_pure _] at hd
      obtain ⟨hsocket, hrequests⟩ := sweep_dest (fun k hk => (hr.origin k hk).requests) d hsent
      exact .inl ⟨hsocket, hrequests.append⟩
  | relay sender data now time =>
      have hsent : d ∈ (handleRelay w sender data now time).sent := hd
      rcases handleRelay_cases w sender data now time with hc | ⟨header, k, info, w₁, -, -, hc⟩
      · rw [hc.sent] at hsent
        cases hsent
      · rw [hc.sent] at hsent
        obtain rfl := List.mem_singleton.mp hsent
        obtain ⟨hvalid, rfl⟩ := IDAdapter.outstanding_eq_some.mp hc.outstanding
        exact .inl ⟨rfl, (hr.origin k hvalid).requests.append⟩
  | request client data clock now time => exact handleRequest_origin hr.sized hd

end Steps

section Runs

/-- In every run from an empty table, whether or not it comes to its end, every datagram is
sent in one of its rounds and has its origin in this round and those before. -/
theorem datagrams_have_origin (w : World) (hs : w.Sized)
    (hw : ∀ k, w.adapter.outstanding k = none) (events : List Event) :
    ∀ d ∈ (mainLoop w events).sent, ∃ front e rest w₁, events = front ++ e :: rest ∧
      (mainLoop w front).result = .ok w₁ ∧ d ∈ (step w₁ e).sent ∧
        DatagramOrigin front w₁ e d := by
  intro d hd
  obtain ⟨front, e, rest, w₁, hsplit, hfront, hd⟩ := Output.mem_sent_run hd
  exact ⟨front, e, rest, w₁, hsplit, hfront, hd, step_origin (mainLoop_rooted hs hw hfront) hd⟩

theorem datagrams_have_origin_sample :
    (mainLoop (booted 0) threeQueries).sent.length = 5 ∧
      ∀ d ∈ (mainLoop (booted 0) threeQueries).sent, ∃ front e rest w₁,
        threeQueries = front ++ e :: rest ∧ (mainLoop (booted 0) front).result = .ok w₁ ∧
          d ∈ (step w₁ e).sent ∧ DatagramOrigin front w₁ e d :=
  ⟨by decide +kernel, datagrams_have_origin (booted 0) (booted_sized 0)
    (booted_initial 0).free threeQueries⟩

end Runs

end DnsRelay.Relay
