import DnsRelay.Relay.Request

/-!
# The address of the upstream server

`recvfrom` on the query socket stores the sender in `query_server`, which is also where
queries go. So the address is the configured one as long as everything that arrives on
the query socket comes from there, and any other sender takes over the queries.
-/

namespace DnsRelay.Relay

open DnsRelay.Message DnsRelay.Adapter DnsRelay.Lib

variable {w : World} {addr : SockaddrIn}

/-- The event is no datagram on the query socket, or one that `addr` has sent. -/
def Event.sentBy (addr : SockaddrIn) : Event → Prop
  | .relay sender _ _ _ => sender = addr
  | _ => True

/-- The datagram is no query, or one for `addr`. -/
def UpstreamAt (addr : SockaddrIn) (d : Datagram) : Prop := d.socket = .query → d.dest = addr

theorem upstreamAt_of_server {d : Datagram} (h : d.socket = .server) : UpstreamAt addr d := by
  intro hq
  rw [h] at hq
  cases hq

theorem handleRequest_upstream (hw : w.queryServer = addr) (client : SockaddrIn) (data : Bytes)
    (clock now time : ℤ) :
    Output.Ensures (UpstreamAt addr) (handleRequest w client data clock now time) fun w' =>
      w'.queryServer = addr := by
  rcases handleRequest_cases w client data clock now time with h | ⟨id, front, bytes, w', h⟩
  · constructor
    · intro d hd
      exact upstreamAt_of_server (h.sent d hd).1
    · intro w' hw'
      exact (h.queryServer_eq w' hw').trans hw
  · constructor
    · intro d hd
      rw [h.sent] at hd
      rcases List.mem_append.mp hd with hd | hd
      · exact upstreamAt_of_server (h.front_settled d hd).1
      · rw [List.mem_singleton.mp hd]
        intro _
        exact hw
    · intro w'' hw''
      rw [h.result] at hw''
      cases hw''
      exact h.queryServer_eq.trans hw

theorem handleRelay_upstream (w : World) (addr : SockaddrIn) (data : Bytes) (now time : ℤ) :
    Output.Ensures (UpstreamAt addr) (handleRelay w addr data now time) fun w' =>
      w'.queryServer = addr := by
  rcases handleRelay_cases w addr data now time with h | ⟨header, k, info, w', -, -, h⟩
  · constructor
    · intro d hd
      rw [h.sent] at hd
      cases hd
    · exact h.queryServer_eq
  · constructor
    · intro d hd
      rw [h.sent, List.mem_singleton] at hd
      rw [hd]
      exact upstreamAt_of_server rfl
    · intro w'' hw''
      rw [h.result] at hw''
      cases hw''
      exact h.queryServer_eq

/-- While only the upstream server writes to the query socket, a round keeps its address
and sends queries nowhere else. -/
theorem step_upstream {e : Event} (he : e.sentBy addr) (hw : w.queryServer = addr) :
    Output.Ensures (UpstreamAt addr) (step w e) fun w' => w'.queryServer = addr := by
  cases e with
  | sweep clock =>
      have hs := step_sweep w clock
      constructor
      · intro d hd
        exact upstreamAt_of_server (hs.sent d hd)
      · intro w' hw'
        exact (hs.result w' hw').1.trans hw
  | relay sender data now time =>
      cases he
      exact handleRelay_upstream w addr data now time
  | request client data clock now time => exact handleRequest_upstream hw client data clock now time

/-- In every run in which only the configured server writes to the query socket, every
query goes to the configured server, and `query_server` still holds it at the end. -/
theorem mainLoop_upstream (w : World) (addr : UInt32) (hw : w.queryServer = initQueryServer addr)
    (events : List Event) (he : ∀ e ∈ events, e.sentBy (initQueryServer addr)) :
    (∀ d ∈ (mainLoop w events).sent, d.socket = .query → d.dest = initQueryServer addr) ∧
      ∀ w', (mainLoop w events).result = .ok w' → w'.queryServer = initQueryServer addr := by
  have hrun : Output.Ensures (UpstreamAt (initQueryServer addr)) (mainLoop w events) fun w' =>
      w'.queryServer = initQueryServer addr := by
    apply Output.run_ensures_of_mem
    · intro e hmem s hs
      exact step_upstream (he e hmem) hs
    · exact hw
  exact ⟨hrun.sent, hrun.result⟩

/-- A query, a datagram on the query socket from `sender`, and another query. -/
private def queriesAround (sender : SockaddrIn) : List Event :=
  [.request ⟨2, 1, 1⟩ (questionMessage 7 flagQuery [[97]] 15) 0 0 0,
    .relay sender (questionMessage 5 0x8180 [[97]] 15) 0 0,
    .request ⟨2, 1, 1⟩ (questionMessage 8 flagQuery [[98]] 15) 0 0 0]

/-- Around a datagram of the server, both queries go to the server. -/
theorem mainLoop_upstream_sample :
    (mainLoop (booted 0x0100007f) (queriesAround (initQueryServer 0x0100007f))).sent.length = 2 ∧
    ∀ d ∈ (mainLoop (booted 0x0100007f) (queriesAround (initQueryServer 0x0100007f))).sent,
      d.socket = .query → d.dest = initQueryServer 0x0100007f :=
  ⟨by decide +kernel,
    (mainLoop_upstream (booted 0x0100007f) 0x0100007f rfl _
      (by simp [queriesAround, Event.sentBy])).1⟩

/-- A datagram from elsewhere, which answers nothing, redirects the query behind it. -/
theorem mainLoop_redirected :
    ¬ ∀ d ∈ (mainLoop (booted 0x0100007f) (queriesAround ⟨2, 53, 0xff⟩)).sent,
      d.socket = .query → d.dest = initQueryServer 0x0100007f := by
  decide +kernel

end DnsRelay.Relay
