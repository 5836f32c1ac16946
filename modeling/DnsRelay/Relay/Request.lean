import DnsRelay.Message.Questions
import DnsRelay.Relay.Sizes
import DnsRelay.Relay.Steps
import Mathlib.Data.List.TakeWhile

/-!
# What the handler of requests sends

The message is received into a buffer of its own size and more, a message that is not a query is
refused in place, and behind the question the handler goes one of four ways: a name error, a
reply from a store, a query to the upstream server or nothing.
-/

namespace DnsRelay.Relay

open DnsRelay.Message DnsRelay.Adapter DnsRelay.Static DnsRelay.Lib DnsRelay.Lib.Machine Function

section Buffer

variable {buffer : Bytes} {rec : ℕ}

/-- With the terminator written behind it the message is a string of at most its length. -/
theorem cString_set_zero (h : rec < buffer.length) :
    ∃ text, cString (buffer.set rec 0) = .ok text ∧ text.length ≤ rec := by
  have hmem : 0 ∈ buffer.set rec 0 := List.mem_set h 0
  refine ⟨_, if_pos hmem, ?_⟩
  by_contra hlong
  rw [not_le] at hlong
  have hcell := List.mem_takeWhile_imp (List.getElem_mem hlong)
  have hsame := (List.takeWhile_prefix (l := buffer.set rec 0) (· != 0)).getElem hlong
  rw [hsame, List.getElem_set_self] at hcell
  simp at hcell

/-- The header check compares the two bytes of the flags. -/
theorem readDnsHeader_flags (h : 4 ≤ buffer.length) :
    ∃ header, readDnsHeader buffer = .ok header ∧
      (header.flags = htons flagQuery ↔ HasAt buffer 2 (u16Bytes flagQuery)) := by
  match buffer, h with
  | b₀ :: b₁ :: b₂ :: b₃ :: rest, _ =>
      refine ⟨⟨b₀.toNat * 256 + b₁.toNat, htons (b₂.toNat * 256 + b₃.toNat)⟩, rfl, ?_⟩
      have h₂ := b₂.toNat_lt
      have h₃ := b₃.toNat_lt
      simp only [htons, flagQuery, u16Bytes, hasAt_cons, hasAt_nil, and_true,
        List.getElem?_cons_succ, List.getElem?_cons_zero, Option.some.injEq,
        ← UInt8.toNat_inj, UInt8.toNat_ofNat']
      omega

/-- Response flags with a code, written in front of older bytes. -/
theorem set_flags_append {data : Bytes} (h : 4 ≤ data.length) (rest : Bytes) (code : UInt8) :
    ((data ++ rest).set 2 0x80).set 3 code = withFlags (0x8000 + code.toNat) data ++ rest := by
  match data, h with
  | b₀ :: b₁ :: b₂ :: b₃ :: data, _ =>
      have hcode := code.toNat_lt
      have hhi : UInt8.ofNat ((0x8000 + code.toNat) / 256) = 0x80 := by
        rw [show (0x8000 + code.toNat) / 256 = 0x80 by omega]
        rfl
      have hlo : UInt8.ofNat (0x8000 + code.toNat) = code := by
        apply UInt8.toNat_inj.mp
        simp only [UInt8.toNat_ofNat']
        omega
      simp [withFlags, u16Bytes, hhi, hlo]

/-- The flags and the code that the blacklist branch writes. -/
theorem setHeader_nameError (h : 4 ≤ buffer.length) :
    ∃ buffer₁, setHeaderFlag buffer flagResponseNormal = .ok buffer₁ ∧
      setHeaderRcodeNameError buffer₁ = .ok ((buffer.set 2 0x80).set 3 0x03) := by
  match buffer, h with
  | b₀ :: b₁ :: b₂ :: b₃ :: rest, _ => exact ⟨b₀ :: b₁ :: 0x80 :: 0 :: rest, rfl, rfl⟩

theorem withFlags_length {flags : ℕ} {data : Bytes} (h : 4 ≤ data.length) :
    (withFlags flags data).length = data.length := by
  simp only [withFlags, List.length_append, List.length_take, u16Bytes_length, List.length_drop]
  omega

theorem take_set_flags {data : Bytes} (h : 4 ≤ data.length) (rest : Bytes) (code : UInt8) :
    (((data ++ rest).set 2 0x80).set 3 code).take data.length =
      withFlags (0x8000 + code.toNat) data := by
  rw [set_flags_append h, ← withFlags_length h, List.take_left]

end Buffer

section Serve

variable {w : World} {client : SockaddrIn} {id rec : ℕ} {clock now time : ℤ}

theorem relayQuery_of_used (hrec : rec < w.recvBuffer.length)
    (hused : (w.adapter.data w.adapter.next).valid = true) :
    (relayQuery w id client rec clock).sent = [] := by
  simp [relayQuery, writeByte_of_lt hrec, IDAdapter.push_of_used hused]

/-- A free cursor slot takes the query. -/
theorem relayQuery_of_unused (id : ℕ) (client : SockaddrIn) (clock : ℤ) (hs : w.Sized)
    (hrec : rec < 1024)
    (hfree : (w.adapter.data w.adapter.next).valid = false) :
    ∃ message, message.length = 1024 ∧ relayQuery w id client rec clock =
      ⟨[⟨.query, w.queryServer, replaceId w.adapter.next (w.recvBuffer.take rec)⟩],
        .ok { w with
          recvBuffer := u16Bytes w.adapter.next ++ (w.recvBuffer.set rec 0).drop 2
          adapter :=
            { w.adapter.set w.adapter.next ⟨⟨client, UInt16.ofNat id,
                UInt8.ofNat w.question.qtype⟩, true, clock, message⟩ with
              next := w.adapter.next + 1, lock := false } }⟩ := by
  have hlt : rec < w.recvBuffer.length := by
    rw [hs.recvBuffer]
    exact hrec
  have hmessage := hs.message w.adapter.next
  obtain ⟨text, htext, hlen⟩ := cString_set_zero hlt
  have hset : setHeaderId (w.recvBuffer.set rec 0) w.adapter.next = _ :=
    setHeaderId_of_le (by simp [hs.recvBuffer])
  have hbytes := take_setHeaderId (n := rec) hset (by simpa using hlt.le)
  rw [List.take_set_of_le le_rfl] at hbytes
  refine ⟨text ++ 0 :: (w.adapter.data w.adapter.next).message.drop (text.length + 1), ?_, ?_⟩
  · simp only [List.length_append, List.length_cons, List.length_drop, hmessage]
    omega
  · simp only [relayQuery, writeByte_of_lt hlt, IDAdapter.push_of_free hfree htext (by omega),
      hset, Output.lift_ok_bind]
    rw [← hbytes]
    rfl

/-- A question that no store can answer: its name is not on the blacklist and its type is
neither that of an IPv4 nor of an IPv6 address. -/
structure Unanswered (w : World) (labels : List Bytes) (qtype : ℕ) : Prop where
  ne_nil : labels ≠ []
  valid : ∀ label ∈ labels, ValidLabel label
  length_le : (dotted labels).length ≤ 253
  not_black : getStaticCache w.cacheset.blacklist (dotted labels) = .ok none
  qtype_lt : qtype < 65536
  ne_A : qtype ≠ rrtypeA
  ne_AAAA : qtype ≠ rrtypeAAAA

theorem answerQuestion_unanswered {labels : List Bytes} {qtype qclass n : ℕ} (hs : w.Sized)
    (hq : Unanswered w labels qtype) (now time : ℤ) (hn : n < 65536) (hqclass : qclass < 65536)
    (hcount : HasAt w.recvBuffer 4 (u16Bytes n))
    (hat : HasAt w.recvBuffer 12 (questionBytes labels qtype qclass)) :
    ∃ label, answerQuestion w now time =
      .ok ({ w with question := ⟨label, qtype, qclass⟩ }, .missing) := by
  have hlen : (dotted labels).length < w.question.label.length := by
    have := hq.length_le
    rw [hs.label, maxNameLength]
    omega
  obtain ⟨label, hread, -, hlabel⟩ := readDnsQuestions_wireName hq.ne_nil hq.valid hlen hn
    hq.qtype_lt hqclass hcount hat
  refine ⟨label, ?_⟩
  simp [answerQuestion, hread, hlabel, hq.not_black, lookUp, hq.ne_A, hq.ne_AAAA, bind,
    Except.bind, pure, Except.pure]

variable {question : Question} {label : Label} {k record : ℕ} {w₁ : World}
  {found : List (IP × ℕ)}

/-- The message for a name on the blacklist is sent back with a name error. -/
theorem serveQuestion_black (hs : w.Sized)
    (hread : readDnsQuestions w.question w.recvBuffer = .ok (question, k))
    (hlabel : cString question.label = .ok label)
    (hblack : getStaticCache w.cacheset.blacklist label = .ok (some record)) :
    serveQuestion w id client rec clock now time =
      ⟨[⟨.server, client, ((w.recvBuffer.set 2 0x80).set 3 0x03).take rec⟩],
        .ok { w with
          question := question
          recvBuffer := (w.recvBuffer.set 2 0x80).set 3 0x03 }⟩ := by
  have hlen : 4 ≤ w.recvBuffer.length := by
    rw [hs.recvBuffer]
    omega
  obtain ⟨buffer₁, hflag, hcode⟩ := setHeader_nameError hlen
  have hanswer : answerQuestion w now time =
      .ok ({ w with question := question, recvBuffer := (w.recvBuffer.set 2 0x80).set 3 0x03 },
        .blocked) := by
    simp only [answerQuestion, hread, hlabel, hblack, hflag, hcode, bind, Except.bind, pure,
      Except.pure]
  rw [serveQuestion, hanswer]
  rfl

/-- A question on which the stores are silent goes on to be passed on. -/
theorem serveQuestion_missing
    (hread : readDnsQuestions w.question w.recvBuffer = .ok (question, k))
    (hlabel : cString question.label = .ok label)
    (hblack : getStaticCache w.cacheset.blacklist label = .ok none)
    (hlook : lookUp { w with question := question } label now time = .ok (w₁, [])) :
    serveQuestion w id client rec clock now time = relayQuery w₁ id client rec clock := by
  have hanswer : answerQuestion w now time = .ok (w₁, .missing) := by
    simp only [answerQuestion, hread, hlabel, hblack, hlook, if_true, bind, Except.bind]
    rfl
  rw [serveQuestion, hanswer]
  rfl

/-- One that a store answers is answered with the reply that is built over it. -/
theorem serveQuestion_found {ans : List Answer} {buffer reply : Bytes} {size : ℤ}
    (hread : readDnsQuestions w.question w.recvBuffer = .ok (question, k))
    (hlabel : cString question.label = .ok label)
    (hblack : getStaticCache w.cacheset.blacklist label = .ok none)
    (hlook : lookUp { w with question := question } label now time = .ok (w₁, found))
    (hne : found ≠ []) (hfill : fillAnswers question label found 0 w₁.ans = .ok ans)
    (hwrite : writeDnsResponseByQuery w₁.recvBuffer (ans.take found.length) = .ok (buffer, size))
    (hreply : readBytes buffer 0 size.toNat = .ok reply) :
    serveQuestion w id client rec clock now time =
      ⟨[⟨.server, client, reply⟩], .ok { w₁ with recvBuffer := buffer, ans := ans }⟩ := by
  have hanswer : answerQuestion w now time =
      .ok ({ w₁ with recvBuffer := buffer, ans := ans }, .answered reply) := by
    simp only [answerQuestion, hread, hlabel, hblack, hlook, hne, if_false, hfill, hwrite, hreply,
      bind, Except.bind]
    rfl
  rw [serveQuestion, hanswer]
  rfl

end Serve

/-- The buffer after the refusal of a message: response flags and the code for refused. -/
def refused (w : World) : World :=
  { w with recvBuffer := (w.recvBuffer.set 2 0x80).set 3 0x05 }

theorem refuse_of_le {w : World} (h : 4 ≤ w.recvBuffer.length) (client : SockaddrIn)
    (rec : ℕ) : refuse w client rec =
      ⟨[⟨.server, client, (refused w).recvBuffer.take rec⟩], .ok (refused w)⟩ := by
  unfold refuse refused
  generalize w.recvBuffer = buffer at h ⊢
  match buffer, h with
  | b₀ :: b₁ :: b₂ :: b₃ :: rest, _ => rfl

theorem refused_sized {w : World} (h : w.Sized) : (refused w).Sized :=
  ⟨by simp [refused, h.recvBuffer], h.message, h.label, h.ans⟩

end DnsRelay.Relay
