import DnsRelay.Message.Datagram
import DnsRelay.Relay.Caching

/-!
# What the handlers see of a datagram

`recv_buffer`, `question` and `ans` are never cleared, and the decoders get no length. A
datagram that can be decoded from its own bytes is decoded to the same whatever came
before it. On any other one the decoders go on with what earlier datagrams have left.
-/

namespace DnsRelay.Relay

open DnsRelay.Message DnsRelay.Adapter DnsRelay.Lib DnsRelay.Lib.Machine

section Used

/-- The label and the answers with which the handler of replies goes on, if there are any
answers. A later reply takes `width` bytes of each address. -/
def answersUsed (width : ℕ) (w : World) : Exec (Option (Bytes × List DecodedAnswer)) := do
  let (ans, ansNum) ← readDnsAnswers w.ans w.recvBuffer
  if 0 < ansNum then
    let (question, _) ← readDnsQuestion w.question w.recvBuffer dnsHeaderSize
    return some (← cString question.label, ← (ans.take ansNum).mapM (viewAnswer width))
  else return none

/-- The bytes of a request, with the flags of the refusal if it is no query. -/
def requestBytes (data : Bytes) : Bytes :=
  if HasAt (received data) 2 (u16Bytes flagQuery) then received data
  else withFlags 0x8005 (received data)

/-- The label and the answers of a reply, from its bytes alone. -/
def replyAlone (width : ℕ) (data : Bytes) : Exec (Option (Bytes × List DecodedAnswer)) := do
  let answers ← answersAlone data width
  if answers = [] then return none else return some (← labelAlone data, answers)

variable {w w' : World} {data : Bytes} {now time : ℤ}

/-- The request handler reads the bytes of the request in front of older ones. -/
theorem asked_recvBuffer (hlen : 4 ≤ (received data).length) :
    (asked w data).recvBuffer =
      requestBytes data ++ w.recvBuffer.drop (received data).length := by
  have hiff : HasAt (receive w data).recvBuffer 2 (u16Bytes flagQuery) ↔
      HasAt (received data) 2 (u16Bytes flagQuery) :=
    hasAt_append_left hlen
  by_cases hq : HasAt (received data) 2 (u16Bytes flagQuery)
  · rw [asked, requestBytes, if_pos (hiff.mpr hq), if_pos hq]
    rfl
  · rw [asked, requestBytes, if_neg fun h => hq (hiff.mp h), if_neg hq]
    exact set_flags_append hlen _ 0x05

theorem requestBytes_length (hlen : 4 ≤ (received data).length) :
    (requestBytes data).length = (received data).length := by
  unfold requestBytes
  split
  · rfl
  · exact withFlags_length hlen

theorem mapM_viewAnswer {width : ℕ} {label : Bytes} {entries : List Answer}
    {answers : List DecodedAnswer} (h : entries.mapM (viewAnswer width) = .ok answers) :
    (cacheData label now entries).map (fun d => (d.label, d.ip.addr.toList.take width, d.ttl)) =
      answers.map fun a => (label, a.address, now + a.ttl) := by
  induction entries generalizing answers with
  | nil =>
      cases h
      rfl
  | cons a entries ih =>
      rw [List.mapM_cons] at h
      obtain ⟨d, hd, h⟩ := bind_eq_ok.mp h
      obtain ⟨rest, hrest, h⟩ := bind_eq_ok.mp h
      obtain ⟨name, -, hd⟩ := bind_eq_ok.mp hd
      cases h
      cases hd
      simp only [cacheData, List.map_cons, List.cons.injEq, true_and]
      exact ih hrest

/-- The answers that can be cached are the answers used. -/
theorem answersUsed_eq {width : ℕ} {used : Option (Bytes × List DecodedAnswer)}
    (hused : answersUsed width w = .ok used) :
    (used = none ∧ cacheable w = none) ∨
    ∃ label entries answers, used = some (label, answers) ∧ cacheable w = some (label, entries) ∧
      entries.mapM (viewAnswer width) = .ok answers := by
  obtain ⟨⟨ans, ansNum⟩, hans, hused⟩ := bind_eq_ok.mp hused
  dsimp only at hused
  split at hused
  next hpos =>
    obtain ⟨⟨question, size⟩, hquestion, hused⟩ := bind_eq_ok.mp hused
    obtain ⟨label, hlabel, hused⟩ := bind_eq_ok.mp hused
    obtain ⟨answers, hview, hused⟩ := bind_eq_ok.mp hused
    cases hused
    refine .inr ⟨label, ans.take ansNum, answers, rfl, ?_, hview⟩
    simp only [cacheable, hans, hpos, if_true, hquestion, hlabel]
    rfl
  next hpos =>
    cases hused
    exact .inl ⟨rfl, by simp [cacheable, hans, hpos]⟩

/-- What goes into the cache are the addresses of the answers used, under the label used. -/
theorem cacheAnswers_used {type : UInt8} {width : ℕ} {used : Option (Bytes × List DecodedAnswer)}
    (h : cacheAnswers w type now time = .ok w') (hused : answersUsed width w = .ok used) :
    w'.cacheset = w.cacheset ∨
    ∃ t label answers temp ret, ∃ data : List Lru.RecordData, used = some (label, answers) ∧
      data.map (fun d => (d.label, d.ip.addr.toList.take width, d.ttl)) =
        answers.map (fun a => (label, a.address, now + a.ttl)) ∧
      Lru.setCacheAMultiRecord (w.cacheset.temp t) label data time = .ok (temp, ret) ∧
      w'.cacheset = w.cacheset.setTemp t temp := by
  rcases cacheAnswers_cases h with
    ⟨hsame, -⟩ | ⟨t, label, entries, temp, ret, -, hcacheable, -, hset, hcs⟩
  · exact .inl hsame
  · rcases answersUsed_eq hused with ⟨-, hnone⟩ | ⟨label', entries', answers, rfl, hsome, hview⟩
    · rw [hnone] at hcacheable
      cases hcacheable
    · rw [hsome] at hcacheable
      cases hcacheable
      exact .inr ⟨t, label, answers, temp, ret, _, rfl, mapM_viewAnswer hview, hset, hcs⟩

end Used

section Runs

variable {w : World} {data : Bytes}

/-- A request that can be decoded from its own bytes is used as it was sent. -/
theorem questionUsed_alone (hs : w.Sized) (hlen : 12 ≤ data.length) {question : Bytes × ℕ}
    (h : questionAlone (requestBytes data) = .ok question) :
    questionUsed (asked w data) = .ok question := by
  obtain ⟨label, qtype⟩ := question
  have hle := received_length_le data
  have hrec : 12 ≤ (received data).length := by
    simp only [received, List.length_take, maxDnsSize]
    omega
  have hbuffer := asked_recvBuffer (w := w) (show 4 ≤ (received data).length by omega)
  have htotal := (asked_sized hs data).recvBuffer
  have hfront : (requestBytes data).length = (received data).length :=
    requestBytes_length (by omega)
  rw [hbuffer] at htotal
  obtain ⟨question, n, hread, hlabel, hqtype⟩ := readDnsQuestions_alone
    (w.recvBuffer.drop (received data).length) h
    (asked_sized hs data).label (by omega) (by omega)
  rw [← hbuffer] at hread
  simp only [questionUsed, hread, hlabel, hqtype, bind, Except.bind]
  rfl

/-- A reply that can be decoded from its own bytes is used as it was sent. -/
theorem answersUsed_alone (hs : w.Sized) (sender : SockaddrIn) {width : ℕ}
    {used : Option (Bytes × List DecodedAnswer)} (h : replyAlone width (received data) = .ok used) :
    answersUsed width (relayed w sender data) = .ok used := by
  have hle := received_length_le data
  have htotal := (receive_sized hs data).recvBuffer
  obtain ⟨answers, hanswers, h⟩ := bind_eq_ok.mp h
  obtain ⟨ans, hread, hshows⟩ := readDnsAnswers_alone hanswers
    (w.recvBuffer.drop (received data).length) hs.ans
  have hread' : readDnsAnswers (relayed w sender data).ans (relayed w sender data).recvBuffer =
      .ok (ans, answers.length) := hread
  simp only [answersUsed, hread', bind, Except.bind]
  split at h
  next hnil =>
    cases h
    simp [hnil]
    rfl
  next hne =>
    obtain ⟨label, hlabel, h⟩ := bind_eq_ok.mp h
    obtain ⟨f, hf, hname⟩ := bind_eq_ok.mp hlabel
    cases h
    obtain ⟨question, hquestion, hstring⟩ := readDnsQuestion_alone
      (w.recvBuffer.drop (received data).length) hf hname hs.label (by
        change _ ≤ (receive w data).recvBuffer.length
        omega)
    have hquestion' : readDnsQuestion (relayed w sender data).question
        (relayed w sender data).recvBuffer dnsHeaderSize = .ok (question, _) := hquestion
    rw [if_pos (List.length_pos_iff.mpr hne)]
    simp only [hquestion', hstring, hshows.mapM_take]
    rfl

/-- Two runs that receive the same datagram use the same question, and the same label and
answers, as soon as the datagram can be decoded from its own bytes. -/
theorem parsing_of_received (v₁ v₂ : World) (hv₁ : v₁.Sized) (hv₂ : v₂.Sized)
    (events₁ events₂ : List Event) (w₁ w₂ : World) (h₁ : (mainLoop v₁ events₁).result = .ok w₁)
    (h₂ : (mainLoop v₂ events₂).result = .ok w₂) (data : Bytes) (hlen : 12 ≤ data.length) :
    (∀ question, questionAlone (requestBytes data) = .ok question →
      questionUsed (asked w₁ data) = .ok question ∧
      questionUsed (asked w₂ data) = .ok question) ∧
    ∀ (t : AddressType) (sender : SockaddrIn) (used : Option (Bytes × List DecodedAnswer)),
      replyAlone t.width (received data) = .ok used →
      answersUsed t.width (relayed w₁ sender data) = .ok used ∧
      answersUsed t.width (relayed w₂ sender data) = .ok used := by
  have hs₁ := mainLoop_sized hv₁ h₁
  have hs₂ := mainLoop_sized hv₂ h₂
  constructor
  · intro question h
    exact ⟨questionUsed_alone hs₁ hlen h, questionUsed_alone hs₂ hlen h⟩
  · intro t sender used h
    exact ⟨answersUsed_alone hs₁ sender h, answersUsed_alone hs₂ sender h⟩

/-- A query that goes upstream. -/
private def earlierQuery : Event := .request ⟨2, 1, 1⟩ (questionMessage 7 flagQuery [[99]] 15) 0 0 0

private def queried : World := (mainLoop (booted 0) [earlierQuery]).result.toOption.getD (booted 0)

private theorem queried_eq : (mainLoop (booted 0) [earlierQuery]).result = .ok queried := by
  have hok : ((mainLoop (booted 0) [earlierQuery]).result.map fun _ => true) = .ok true := by
    decide +kernel
  obtain ⟨w, hw, -⟩ := map_eq_ok.mp hok
  rw [queried, hw]
  rfl

/-- A datagram of the upstream server that answers nothing. -/
private def strayReply (name : UInt8) (qtype : ℕ) : Bytes :=
  questionMessage 5 0x8180 [[name]] qtype

/-- A query, and then a datagram that answers nothing. -/
private def strayEvents (name : UInt8) (qtype : ℕ) : List Event :=
  [earlierQuery, .relay ⟨2, 53, 0⟩ (strayReply name qtype) 0 0]

private theorem strayReply_dropped {name : UInt8} {qtype : ℕ}
    (hheader : readDnsHeader (receive queried (strayReply name qtype)).recvBuffer =
      .ok ⟨5, 0x8081⟩) :
    (mainLoop (booted 0) (strayEvents name qtype)).result =
      .ok (relayed queried ⟨2, 53, 0⟩ (strayReply name qtype)) := by
  have hfree : queried.adapter.get (toShort 5) = .ok none := by decide +kernel
  have hstep : step queried (.relay ⟨2, 53, 0⟩ (strayReply name qtype) 0 0) =
      ⟨[], .ok (relayed queried ⟨2, 53, 0⟩ (strayReply name qtype))⟩ :=
    handleRelay_of_free hheader hfree
  have hfirst := queried_eq
  rw [mainLoop] at hfirst
  have hsecond : (Output.run step queried
      [.relay ⟨2, 53, 0⟩ (strayReply name qtype) 0 0]).result =
        .ok (relayed queried ⟨2, 53, 0⟩ (strayReply name qtype)) := by
    rw [Output.run, hstep]
    rfl
  have hrun : Output.run step (booted 0) ([earlierQuery] ++
      [.relay ⟨2, 53, 0⟩ (strayReply name qtype) 0 0]) = _ := Output.run_append hfirst
  rw [List.singleton_append] at hrun
  rw [mainLoop, strayEvents, hrun]
  dsimp only
  rw [hsecond]

/-- A reply with the address of `a`, whose owner is a pointer to the question. -/
private def addressReply : Bytes :=
  [0, 0, 0x81, 0x80, 0, 1, 0, 1, 0, 0, 0, 0, 1, 97, 0, 0, 1, 0, 1,
    0xc0, 12, 0, 1, 0, 1, 0, 0, 0, 60, 0, 4, 1, 2, 3, 4]

/-- A complete query and a complete reply are read as they are, whatever stray reply came
before. -/
theorem parsing_of_received_sample :
    (questionUsed (asked (relayed queried ⟨2, 53, 0⟩ (strayReply 97 1))
        (questionMessage 7 flagQuery [[98]] 15)) = .ok ([98], 15) ∧
      questionUsed (asked (relayed queried ⟨2, 53, 0⟩ (strayReply 100 28))
        (questionMessage 7 flagQuery [[98]] 15)) = .ok ([98], 15)) ∧
    answersUsed 4 (relayed (relayed queried ⟨2, 53, 0⟩ (strayReply 97 1)) ⟨2, 53, 0⟩
        addressReply) = .ok (some ([97], [⟨[97], 1, 1, 60, [1, 2, 3, 4]⟩])) ∧
      answersUsed 4 (relayed (relayed queried ⟨2, 53, 0⟩ (strayReply 100 28)) ⟨2, 53, 0⟩
        addressReply) = .ok (some ([97], [⟨[97], 1, 1, 60, [1, 2, 3, 4]⟩])) :=
  ⟨(parsing_of_received (booted 0) (booted 0) (booted_sized 0) (booted_sized 0)
      (strayEvents 97 1) (strayEvents 100 28) _ _ (strayReply_dropped (by decide +kernel))
      (strayReply_dropped (by decide +kernel))
      (questionMessage 7 flagQuery [[98]] 15) (by decide)).1 ([98], 15) (by decide +kernel),
    (parsing_of_received (booted 0) (booted 0) (booted_sized 0) (booted_sized 0)
      (strayEvents 97 1) (strayEvents 100 28) _ _ (strayReply_dropped (by decide +kernel))
      (strayReply_dropped (by decide +kernel)) addressReply
      (by decide)).2 .A ⟨2, 53, 0⟩ _ (by decide +kernel)⟩

/-- A request that ends with its header asks for what the datagram before it has left in the
buffer, although the stores and the table are the same. -/
theorem parsing_reads_leftovers :
    ¬ ∀ (events₁ events₂ : List Event) (w₁ w₂ : World) (data : Bytes),
      (mainLoop (booted 0) events₁).result = .ok w₁ →
      (mainLoop (booted 0) events₂).result = .ok w₂ →
      w₁.cacheset = w₂.cacheset → w₁.adapter = w₂.adapter → 12 ≤ data.length →
      questionUsed (asked w₁ data) = questionUsed (asked w₂ data) := by
  intro h
  have hsame := h (strayEvents 97 1) (strayEvents 100 28) _ _
    [0, 7, 1, 0, 0, 1, 0, 0, 0, 0, 0, 0] (strayReply_dropped (by decide +kernel))
    (strayReply_dropped (by decide +kernel)) rfl rfl (by decide)
  revert hsame
  decide +kernel

end Runs

end DnsRelay.Relay
