import DnsRelay.Message.Sizes
import DnsRelay.Relay.Model

/-!
# The arrays of `main.c`

Every array keeps the size it is declared with, whatever arrives.
-/

namespace DnsRelay.Relay

open DnsRelay.Message DnsRelay.Adapter DnsRelay.Static DnsRelay.Lib DnsRelay.Lib.Machine Function

/-- The arrays have the sizes they are declared with. -/
structure World.Sized (w : World) : Prop where
  recvBuffer : w.recvBuffer.length = 1024
  message : ∀ k, (w.adapter.data k).message.length = 1024
  label : w.question.label.length = maxNameLength
  ans : AnswersSized w.ans

theorem booted_sized (addr : UInt32) : (booted addr).Sized where
  recvBuffer := List.length_replicate
  message := fun _ => List.length_replicate
  label := List.length_replicate
  ans := ⟨List.length_replicate, fun a ha => by
    rw [List.eq_of_mem_replicate ha]
    exact List.length_replicate⟩

section Request

variable {w w' : World} {client : SockaddrIn} {id rec : ℕ} {clock now time : ℤ}

theorem receive_sized (h : w.Sized) (data : Bytes) : (receive w data).Sized := by
  have hle : (received data).length ≤ 520 := by
    simp only [received, List.length_take, maxDnsSize]
    omega
  refine ⟨?_, h.message, h.label, h.ans⟩
  have := h.recvBuffer
  simp only [receive, List.length_append, List.length_drop]
  omega

/-- A lookup changes nothing but the stores. -/
theorem lookUp_frame {label : Label} {found : List (IP × ℕ)}
    (h : lookUp w label now time = .ok (w', found)) :
    ∃ cacheset, w' = { w with cacheset := cacheset } := by
  unfold lookUp at h
  split at h
  · obtain ⟨⟨compound, l⟩, -, h⟩ := bind_eq_ok.mp h
    cases h
    exact ⟨_, rfl⟩
  · split at h
    · obtain ⟨⟨compound, l⟩, -, h⟩ := bind_eq_ok.mp h
      cases h
      exact ⟨_, rfl⟩
    · cases h
      exact ⟨_, rfl⟩

theorem lookUp_sized {label : Label} {found : List (IP × ℕ)} (hs : w.Sized)
    (h : lookUp w label now time = .ok (w', found)) : w'.Sized := by
  obtain ⟨cacheset, rfl⟩ := lookUp_frame h
  exact ⟨hs.recvBuffer, hs.message, hs.label, hs.ans⟩

theorem fillAnswers_sized {question : Question} {label : Label} {found : List (IP × ℕ)}
    {count : ℕ} {ans ans' : List Answer} (hs : AnswersSized ans)
    (h : fillAnswers question label found count ans = .ok ans') : AnswersSized ans' := by
  induction found generalizing count ans with
  | nil =>
      cases h
      exact hs
  | cons p found ih =>
      obtain ⟨ip, ttl⟩ := p
      rw [fillAnswers] at h
      split at h
      · cases h
      next a ha =>
        obtain ⟨name, hn, h⟩ := bind_eq_ok.mp h
        apply ih _ h
        apply hs.set
        rw [strcpy_length hn]
        exact hs.name a (List.mem_of_getElem? ha)

theorem answerQuestion_sized {verdict : Verdict} (hs : w.Sized)
    (h : answerQuestion w now time = .ok (w', verdict)) : w'.Sized := by
  obtain ⟨⟨question, n⟩, hq, h⟩ := bind_eq_ok.mp h
  have hlabel := (readDnsQuestions_length hq).trans hs.label
  obtain ⟨label, -, h⟩ := bind_eq_ok.mp h
  obtain ⟨black, -, h⟩ := bind_eq_ok.mp h
  cases black with
  | some record =>
      obtain ⟨buffer₁, h₁, h⟩ := bind_eq_ok.mp h
      obtain ⟨buffer₂, h₂, h⟩ := bind_eq_ok.mp h
      cases h
      refine ⟨?_, hs.message, hlabel, hs.ans⟩
      exact (setHeaderRcode_length h₂).trans ((writeBytes_length h₁).trans hs.recvBuffer)
  | none =>
      obtain ⟨⟨w₁, found⟩, hl, h⟩ := bind_eq_ok.mp h
      have hw : ({ w with question := question } : World).Sized :=
        ⟨hs.recvBuffer, hs.message, hlabel, hs.ans⟩
      have hw₁ := lookUp_sized hw hl
      dsimp only at h
      split at h
      · cases h
        exact hw₁
      · obtain ⟨ans, ha, h⟩ := bind_eq_ok.mp h
        obtain ⟨⟨buffer, size⟩, hb, h⟩ := bind_eq_ok.mp h
        obtain ⟨reply, -, h⟩ := bind_eq_ok.mp h
        cases h
        exact ⟨(writeDnsResponseByQuery_length hb).trans hw₁.recvBuffer, hw₁.message, hw₁.label,
          fillAnswers_sized hw₁.ans ha⟩

theorem relayQuery_sized (hs : w.Sized) :
    Output.Ensures (fun _ => True) (relayQuery w id client rec clock) World.Sized := by
  apply (Output.ensures_lift fun b hb => (writeByte_length hb).trans hs.recvBuffer).bind
  intro buffer hbuffer
  apply (Output.ensures_lift (P := fun p => ∀ k, (p.1.data k).message.length = 1024)
    fun p hp => push_message_length hs.message hp).bind
  rintro ⟨adapter, newId⟩ hadapter
  cases newId with
  | none => exact Output.ensures_pure ⟨hbuffer, hadapter, hs.label, hs.ans⟩
  | some k =>
      apply (Output.ensures_lift fun b hb => (writeBytes_length hb).trans hbuffer).bind
      intro buffer' hbuffer'
      apply (Output.ensures_emit trivial).bind
      intro _ _
      exact Output.ensures_pure ⟨hbuffer', hadapter, hs.label, hs.ans⟩

theorem serveQuestion_sized (hs : w.Sized) :
    Output.Ensures (fun _ => True) (serveQuestion w id client rec clock now time) World.Sized := by
  apply (Output.ensures_lift (P := fun p => p.1.Sized) fun p hp => answerQuestion_sized hs hp).bind
  rintro ⟨w₁, verdict⟩ hw₁
  cases verdict with
  | blocked =>
      apply (Output.ensures_emit trivial).bind
      exact fun _ _ => Output.ensures_pure hw₁
  | answered reply =>
      apply (Output.ensures_emit trivial).bind
      exact fun _ _ => Output.ensures_pure hw₁
  | missing => exact relayQuery_sized hw₁

theorem refuse_sized (hs : w.Sized) :
    Output.Ensures (fun _ => True) (refuse w client rec) World.Sized := by
  apply (Output.ensures_lift fun b hb => (writeBytes_length hb).trans hs.recvBuffer).bind
  intro buffer₁ h₁
  apply (Output.ensures_lift fun b hb => (setHeaderRcode_length hb).trans h₁).bind
  intro buffer₂ h₂
  apply (Output.ensures_emit trivial).bind
  intro _ _
  exact Output.ensures_pure ⟨h₂, hs.message, hs.label, hs.ans⟩

theorem handleRequest_sized (hs : w.Sized) (data : Bytes) :
    Output.Ensures (fun _ => True) (handleRequest w client data clock now time) World.Sized := by
  have hr := receive_sized hs data
  apply (Output.ensures_true _).bind
  intro header _
  dsimp only
  split
  · apply (refuse_sized hr).bind
    exact fun w₁ hw₁ => serveQuestion_sized hw₁
  · exact serveQuestion_sized hr

end Request

section Relay

variable {w w' : World} {now time : ℤ}

theorem cacheAnswers_sized {type : UInt8} (hs : w.Sized)
    (h : cacheAnswers w type now time = .ok w') : w'.Sized := by
  unfold cacheAnswers at h
  split at h
  · obtain ⟨⟨ans, ansNum⟩, ha, h⟩ := bind_eq_ok.mp h
    have hans := readDnsAnswers_sized hs.ans ha
    dsimp only at h
    split at h
    · obtain ⟨⟨question, n⟩, hq, h⟩ := bind_eq_ok.mp h
      have hlabel := (readDnsQuestion_length hq).trans hs.label
      dsimp only at h
      split at h
      · cases h
      · obtain ⟨label, -, h⟩ := bind_eq_ok.mp h
        split at h
        · obtain ⟨⟨temp, r⟩, -, h⟩ := bind_eq_ok.mp h
          cases h
          exact ⟨hs.recvBuffer, hs.message, hlabel, hans⟩
        · obtain ⟨⟨temp, r⟩, -, h⟩ := bind_eq_ok.mp h
          cases h
          exact ⟨hs.recvBuffer, hs.message, hlabel, hans⟩
    · cases h
      exact ⟨hs.recvBuffer, hs.message, hs.label, hans⟩
  · cases h
    exact hs

theorem receive_from_sized (hs : w.Sized) (sender : SockaddrIn) (data : Bytes) :
    ({ receive w data with queryServer := sender } : World).Sized :=
  let hr := receive_sized hs data
  ⟨hr.recvBuffer, hr.message, hr.label, hr.ans⟩

theorem handleRelay_sized (hs : w.Sized) (sender : SockaddrIn) (data : Bytes) :
    Output.Ensures (fun _ => True) (handleRelay w sender data now time) World.Sized := by
  have hr := receive_from_sized hs sender data
  apply (Output.ensures_true _).bind
  intro header _
  apply (Output.ensures_true _).bind
  intro found _
  cases found with
  | none => exact Output.ensures_pure hr
  | some info =>
      apply (Output.ensures_lift fun w₁ h => cacheAnswers_sized hr h).bind
      intro w₁ hw₁
      apply (Output.ensures_lift fun b hb => (writeBytes_length hb).trans hw₁.recvBuffer).bind
      intro buffer hbuffer
      apply (Output.ensures_emit trivial).bind
      intro _ _
      apply (Output.ensures_lift (P := fun b => ∀ k, (b.data k).message.length = 1024) _).bind
      · intro adapter hadapter
        exact Output.ensures_pure ⟨hbuffer, hadapter, hw₁.label, hw₁.ans⟩
      · intro b hb
        obtain ⟨k, -, rfl⟩ := IDAdapter.pop_cases hb
        exact message_length_set hw₁.message (hw₁.message k)

end Relay

/-- One round of the loop keeps the sizes. -/
theorem step_sized {w : World} (hs : w.Sized) (e : Event) :
    Output.Ensures (fun _ => True) (step w e) World.Sized := by
  cases e with
  | sweep clock =>
      apply Output.Ensures.bind
      · apply Output.run_ensures_of_mem
        · intro k _ a ha
          exact sweepSlot_message_length ha
        · exact hs.message
      · intro b hb
        exact Output.ensures_pure ⟨hs.recvBuffer, hb, hs.label, hs.ans⟩
  | relay sender data now time => exact handleRelay_sized hs sender data
  | request client data clock now time => exact handleRequest_sized hs data

/-- In every state that the loop reaches the arrays have their declared sizes. -/
theorem mainLoop_sized {w w' : World} (hs : w.Sized) {events : List Event}
    (h : (mainLoop w events).result = .ok w') : w'.Sized := by
  have hrun : Output.Ensures (fun _ => True) (mainLoop w events) World.Sized := by
    apply Output.run_ensures_of_mem
    · exact fun e _ s hs => step_sized hs e
    · exact hs
  exact hrun.result w' h

end DnsRelay.Relay
