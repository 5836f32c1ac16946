import DnsRelay.Lru.Rejection
import DnsRelay.Message.NameRoom
import DnsRelay.Relay.ReplyRoom

/-!
# One outcome per request

`handle_request` refuses a message that is not a query and goes on to its question all the same.
So the client of such a message gets a second reply, or the message is forwarded as well, unless
nobody knows the name and the table has no place for the query.
-/

namespace DnsRelay.Relay

open DnsRelay.Message DnsRelay.Adapter DnsRelay.Static DnsRelay.LocalRecord DnsRelay.Lib
open DnsRelay.Lib.Machine

section Unknown

variable {c c' : CacheCompound} {cs : CacheSet} {w w' : World} {label : Label} {now time : ℤ}
  {found : List (IP × ℕ)} {net : InetPton} {rs : List (Bytes × Bytes)} {t : AddressType}

/-- The stores of a type have an answer: a local record, or a cached one that has not expired. -/
def HasAnswer (c : CacheCompound) (label : Label) (now : ℤ) : Prop :=
  getStaticCache c.localStore label ≠ .ok none ∨
    ∃ slot d ds, Lru.get c.temp label = .ok (some slot) ∧
      c.temp.records.data slot = .live d ds ∧ Lru.expired d now = false

/-- The name is not on the blacklist, and the stores of the type have no answer. -/
structure Unknown (cs : CacheSet) (label : Label) (qtype : ℕ) (now : ℤ) : Prop where
  not_black : getStaticCache cs.blacklist label = .ok none
  no_answer : ∀ t, qtype = AddressType.code t → ¬ HasAnswer (cs.compound t) label now

/-- Without an answer a lookup that returns finds nothing. -/
theorem lookUpIn_eq_nil (hno : ¬ HasAnswer c label now)
    (h : lookUpIn c label now time = .ok (c', found)) : found = [] := by
  obtain ⟨hlocal, hcached⟩ := not_or.mp hno
  rw [not_not] at hlocal
  simp only [lookUpIn, hlocal, bind, Except.bind] at h
  obtain ⟨⟨temp, data⟩, hget, h⟩ := bind_eq_ok.mp h
  cases h
  rw [Lru.getCacheARecord] at hget
  split at hget
  · cases hget
    rfl
  · obtain ⟨slot, hslot, hget⟩ := bind_eq_ok.mp hget
    cases slot with
    | none =>
        cases hget
        rfl
    | some slot =>
        obtain ⟨old, hcheck, hget⟩ := bind_eq_ok.mp hget
        unfold Lru.checkARecord at hcheck
        split at hcheck
        next d ds hd =>
          have hold : Lru.expired d now = true := by
            by_contra hnew
            exact hcached ⟨slot, d, ds, hslot, hd, by simpa using hnew⟩
          rw [hold] at hcheck
          cases hcheck
          obtain ⟨c₁, -, hget⟩ := bind_eq_ok.mp hget
          cases hget
          rfl
        next => cases hcheck

/-- A lookup that finds nothing had no answer to find. -/
theorem not_hasAnswer_of_nil {l : List ℤ} (hinv : Lru.Inv c.temp l)
    (h : lookUpIn c label now time = .ok (c', [])) : ¬ HasAnswer c label now := by
  have hlocal := lookUpIn_nil h
  rintro (hsome | ⟨slot, d, ds, hslot, hd, hx⟩)
  · exact hsome hlocal
  · simp only [lookUpIn, hlocal, bind, Except.bind] at h
    obtain ⟨⟨temp, data⟩, hget, h⟩ := bind_eq_ok.mp h
    rcases Lru.getCacheARecord_cases hinv hget with ⟨hmiss, -, -⟩ |
      ⟨s, d', ds', hfound, -, hd', hold, -, -⟩ | ⟨s, d', ds', n, p, e, -, -, -, -, -, -, rfl⟩
    · cases hslot.symm.trans hmiss
    · cases hslot.symm.trans hfound
      cases hd.symm.trans hd'
      cases hx.symm.trans hold
    · cases h

/-- What a lookup by the type of the question finds is an answer of that type. -/
theorem hasAnswer_of_lookUp (h : lookUp w label now time = .ok (w', found)) (hne : found ≠ []) :
    ∃ t, w.question.qtype = AddressType.code t ∧ HasAnswer (w.cacheset.compound t) label now := by
  rcases lookUp_cases h with hnil | ⟨t, c, ht, hin⟩
  · exact absurd hnil hne
  · refine ⟨t, ht, ?_⟩
    by_contra hno
    exact hne (lookUpIn_eq_nil hno hin)

/-- The stores are as a file has filled them, and the caches represent maps, with chains that
`tmp_ans_data` has room for. -/
structure Coherent (net : InetPton) (rs : List (Bytes × Bytes)) (cs : CacheSet) : Prop where
  file : FromFile net rs cs
  caches : ∀ t, ∃ l m, Lru.Represents (cs.temp t) l m
  heads : ∀ t, (cs.temp t).records.data 0 ≠ .freed
  small : ∀ t, SmallChains (cs.temp t)

/-- The loop starts with coherent stores, whatever file has been loaded. -/
theorem loaded_coherent {IP : DnsRelay.IP} {addr : UInt32} {file : Option Bytes} {done : Bool}
    (h : loadLocalRecord net IP (booted addr).cacheset file = .ok (cs, done)) :
    ∃ rs, scannedFrom file = .ok rs ∧ Coherent net rs cs := by
  obtain ⟨rs, hrs, hfile⟩ := fromFile_of_loaded ⟨rfl, rfl, rfl⟩ h
  obtain ⟨hA, hAAAA⟩ := loadLocalRecord_temps h
  have htemp : ∀ t, cs.temp t = Lru.initCache 1000 429496729 1428 := by
    intro t
    cases t with
    | A => exact hA
    | AAAA => exact hAAAA
  refine ⟨rs, hrs, hfile, fun t => ?_, fun t => ?_, fun t s => ?_⟩
  · rw [htemp]
    exact ⟨[], _, Lru.initCache_represents (by decide) (by decide)⟩
  · rw [htemp]
    exact Lru.DataPtr.noConfusion
  · rw [htemp]
    exact Nat.zero_le _

theorem Coherent.lookUpIn_total (h : Coherent net rs cs) (t : AddressType) (label : Label)
    (now time : ℤ) : ∃ c found, lookUpIn (cs.compound t) label now time = .ok (c, found) := by
  obtain ⟨ips, hlisted, -, -⟩ := h.file.exact t label
  obtain ⟨record, hrecord, hips⟩ := bind_eq_ok.mp hlisted
  cases record with
  | some record =>
      have hips' : addresses (cs.compound t).localStore record = .ok ips := hips
      exact ⟨_, _, bind_eq_ok.mpr ⟨_, hrecord, bind_eq_ok.mpr ⟨ips, hips', rfl⟩⟩⟩
  | none =>
      obtain ⟨l, m, hrep⟩ := h.caches t
      obtain ⟨temp, data, hget⟩ := hrep.getCacheARecord_total (h.heads t) label now
      exact ⟨_, _, bind_eq_ok.mpr ⟨_, hrecord, bind_eq_ok.mpr ⟨_, hget, rfl⟩⟩⟩

theorem Coherent.lookUp_total (h : Coherent net rs w.cacheset) (label : Label) (now time : ℤ) :
    ∃ w' found, lookUp w label now time = .ok (w', found) := by
  unfold lookUp
  split
  · obtain ⟨c, found, hin⟩ := h.lookUpIn_total .A label now time
    exact ⟨_, _, bind_eq_ok.mpr ⟨_, hin, rfl⟩⟩
  · split
    · obtain ⟨c, found, hin⟩ := h.lookUpIn_total .AAAA label now time
      exact ⟨_, _, bind_eq_ok.mpr ⟨_, hin, rfl⟩⟩
    · exact ⟨w, [], rfl⟩

/-- A lookup that finds nothing leaves the stores of the type of the question without an
answer. -/
theorem Coherent.no_answer (h : Coherent net rs w.cacheset)
    (hlook : lookUp w label now time = .ok (w', [])) (ht : w.question.qtype = t.code) :
    ¬ HasAnswer (w.cacheset.compound t) label now := by
  obtain ⟨l, m, hrep⟩ := h.caches t
  obtain ⟨c, found, hin⟩ := h.lookUpIn_total t label now time
  have hfound : found = [] := by
    cases t with
    | A =>
        have hin' : lookUpIn w.cacheset.A label now time = .ok (c, found) := hin
        simp only [lookUp, ht, AddressType.code, if_true, hin', bind, Except.bind, pure,
          Except.pure, Except.ok.injEq, Prod.mk.injEq] at hlook
        exact hlook.2
    | AAAA =>
        have hin' : lookUpIn w.cacheset.AAAA label now time = .ok (c, found) := hin
        have hne : rrtypeAAAA ≠ rrtypeA := by decide
        simp only [lookUp, ht, AddressType.code, hne, if_false, if_true, hin', bind, Except.bind,
          pure, Except.pure, Except.ok.injEq, Prod.mk.injEq] at hlook
        exact hlook.2
  subst hfound
  exact not_hasAnswer_of_nil hrep.inv hin

end Unknown

section Outcome

variable {w : World} {client : SockaddrIn} {id rec : ℕ} {clock now time : ℤ} {label : Label}
  {qtype : ℕ} {net : InetPton} {rs : List (Bytes × Bytes)}

/-- At most one datagram: a reply to the client or a query to the upstream server. -/
def OneOutcome (w : World) (client : SockaddrIn) (sent : List Datagram) : Prop :=
  sent = [] ∨ (∃ bytes, sent = [⟨.server, client, bytes⟩]) ∨
    ∃ bytes, sent = [⟨.query, w.queryServer, bytes⟩]

theorem OneOutcome.length_le {sent : List Datagram} (h : OneOutcome w client sent) :
    sent.length ≤ 1 := by
  rcases h with rfl | ⟨bytes, rfl⟩ | ⟨bytes, rfl⟩ <;> simp

/-- Behind the test of the flags there is one outcome at most. -/
theorem serveQuestion_oneOutcome (hs : w.Sized) (hrec : rec < 1024) :
    OneOutcome w client (serveQuestion w id client rec clock now time).sent := by
  unfold serveQuestion
  cases ha : answerQuestion w now time with
  | error e => exact .inl rfl
  | ok p =>
      obtain ⟨w₁, verdict⟩ := p
      rw [Output.lift_ok_bind]
      cases verdict with
      | blocked => exact .inr (.inl ⟨_, rfl⟩)
      | answered reply => exact .inr (.inl ⟨_, rfl⟩)
      | missing =>
          obtain ⟨hadapter, hserver, -⟩ := answerQuestion_frame ha
          have hw₁ := answerQuestion_sized hs ha
          change OneOutcome w client (relayQuery w₁ id client rec clock).sent
          cases hv : (w.adapter.data w.adapter.next).valid with
          | true =>
              rw [← hadapter] at hv
              rw [relayQuery_of_used (by rw [hw₁.recvBuffer]; exact hrec) hv]
              exact .inl rfl
          | false =>
              rw [← hadapter] at hv
              obtain ⟨message, -, hrelay⟩ := relayQuery_of_unused id client clock hw₁ hrec hv
              rw [hrelay, hserver]
              exact .inr (.inr ⟨_, rfl⟩)

/-- Nothing is sent for an unknown name when the cursor slot is in use. -/
theorem serveQuestion_silent (hs : w.Sized) (hrec : rec < 1024)
    (hused : questionUsed w = .ok (label, qtype)) (hunknown : Unknown w.cacheset label qtype now)
    (hcursor : (w.adapter.data w.adapter.next).valid = true) :
    (serveQuestion w id client rec clock now time).sent = [] := by
  obtain ⟨⟨question, k⟩, hread, hused⟩ := bind_eq_ok.mp hused
  obtain ⟨text, hlabel, hused⟩ := bind_eq_ok.mp hused
  cases hused
  cases hlook : lookUp { w with question := question } label now time with
  | error e =>
      have hanswer : answerQuestion w now time = .error e := by
        simp only [answerQuestion, hread, hlabel, hunknown.not_black, hlook, bind, Except.bind]
      rw [serveQuestion, hanswer]
      rfl
  | ok p =>
      obtain ⟨w₁, found⟩ := p
      have hnil : found = [] := by
        by_contra hne
        obtain ⟨t, ht, hanswer⟩ := hasAnswer_of_lookUp hlook hne
        exact hunknown.no_answer t ht hanswer
      subst hnil
      rw [serveQuestion_missing hread hlabel hunknown.not_black hlook]
      obtain ⟨cacheset, rfl⟩ := lookUp_frame hlook
      exact relayQuery_of_used (by rw [hs.recvBuffer]; exact hrec) hcursor

/-- In coherent stores a question is silent for no other reason, when a reply to it fits. -/
theorem serveQuestion_not_silent (hs : w.Sized) (hc : Coherent net rs w.cacheset)
    (hrec : rec < 1024) (hused : questionUsed w = .ok (label, qtype))
    (hroom : getStaticCache w.cacheset.blacklist label = .ok none → ∀ t, qtype = t.code →
      HasAnswer (w.cacheset.compound t) label now → StoreReplySmall net rs w t label)
    (h : (serveQuestion w id client rec clock now time).sent = []) :
    Unknown w.cacheset label qtype now ∧ (w.adapter.data w.adapter.next).valid = true := by
  obtain ⟨⟨question, k⟩, hread, hused⟩ := bind_eq_ok.mp hused
  obtain ⟨text, hlabel, hused⟩ := bind_eq_ok.mp hused
  cases hused
  obtain ⟨ips, hlisted, -, -⟩ := hc.file.black label
  obtain ⟨record, hblack, -⟩ := bind_eq_ok.mp hlisted
  cases record with
  | some record =>
      rw [serveQuestion_black hs hread hlabel hblack] at h
      cases h
  | none =>
      have hc' : Coherent net rs ({ w with question := question } : World).cacheset := hc
      obtain ⟨w₁, found, hlook⟩ := hc'.lookUp_total label now time
      by_cases hnil : found = []
      · subst hnil
        refine ⟨⟨hblack, fun t ht => hc'.no_answer hlook ht⟩, ?_⟩
        rw [serveQuestion_missing hread hlabel hblack hlook] at h
        obtain ⟨cacheset, rfl⟩ := lookUp_frame hlook
        by_contra hfree
        rw [Bool.not_eq_true] at hfree
        have hs' : ({ w with question := question, cacheset := cacheset } : World).Sized :=
          ⟨hs.recvBuffer, hs.message, (readDnsQuestions_length hread).trans hs.label, hs.ans⟩
        obtain ⟨message, -, hrelay⟩ := relayQuery_of_unused id client clock hs' hrec hfree
        rw [hrelay] at h
        cases h
      · exfalso
        have hentries : storeEntries w now time = .ok (question, label, found) := by
          simp only [storeEntries, hread, hlabel, hblack, hlook, bind, Except.bind]
          rfl
        have hcaches : ∀ t, (∃ l, Lru.Inv (w.cacheset.temp t) l) ∧
            SmallChains (w.cacheset.temp t) := by
          intro t
          obtain ⟨l, m, hrep⟩ := hc.caches t
          exact ⟨⟨l, hrep.inv⟩, hc.small t⟩
        obtain ⟨t, hserved⟩ := storeEntries_served hs hc.file hcaches hentries hnil
        obtain ⟨t', ht', hanswer⟩ := hasAnswer_of_lookUp hlook hnil
        cases AddressType.code_inj (hserved.type.symm.trans ht')
        obtain ⟨-, ans, buffer, size, hfill, hwrite, hle⟩ :=
          (hserved.fits_iff hs).mpr (hroom hblack t hserved.type hanswer)
        have hlen := (writeDnsResponseByQuery_length hwrite).trans hs.recvBuffer
        have hsize : 0 + size.toNat ≤ buffer.length := by omega
        obtain ⟨reply, hreply⟩ := readBytes_of_le hsize
        obtain ⟨cacheset, rfl⟩ := lookUp_frame hlook
        rw [serveQuestion_found hread hlabel hblack hlook hnil hfill hwrite hreply] at h
        cases h

end Outcome

/-- The message is a query, or nobody knows its name and the cursor slot of the table is in
use. -/
def SpokenOnce (w : World) (data : Bytes) (now : ℤ) : Prop :=
  HasAt (receive w data).recvBuffer 2 (u16Bytes flagQuery) ∨
    ∃ label qtype, questionUsed (asked w data) = .ok (label, qtype) ∧
      Unknown w.cacheset label qtype now ∧ (w.adapter.data w.adapter.next).valid = true

/-- A message that is no query has been refused when its question comes up. -/
theorem handleRequest_refused {w : World} (hs : w.Sized) {data : Bytes}
    (hf : ¬ HasAt (receive w data).recvBuffer 2 (u16Bytes flagQuery)) (client : SockaddrIn)
    (clock now time : ℤ) :
    ∃ id bytes, (handleRequest w client data clock now time).sent = ⟨.server, client, bytes⟩ ::
      (serveQuestion (asked w data) id client (received data).length clock now time).sent := by
  have hr := receive_sized hs data
  have hlen : 4 ≤ (receive w data).recvBuffer.length := by
    rw [hr.recvBuffer]
    omega
  obtain ⟨header, hh, hflags⟩ := readDnsHeader_flags hlen
  refine ⟨header.id, (refused (receive w data)).recvBuffer.take (received data).length, ?_⟩
  rw [handleRequest_of_other hh (fun h => hf (hflags.mp h)), refuse_of_le hlen,
    Output.bind_of_ok rfl, asked, if_neg hf]
  rfl

/-- A message has one outcome if it is a query, or if nobody knows its name and the table has no
place. In coherent stores, and where a reply from them fits, these are the only messages with a
readable question that have. -/
theorem handleRequest_oneOutcome_iff (w : World) (hs : w.Sized) (client : SockaddrIn)
    (data : Bytes) (clock now time : ℤ) :
    (SpokenOnce w data now →
      OneOutcome w client (handleRequest w client data clock now time).sent) ∧
    ∀ net rs label qtype, Coherent net rs w.cacheset →
      questionUsed (asked w data) = .ok (label, qtype) →
      (getStaticCache w.cacheset.blacklist label = .ok none → ∀ t, qtype = AddressType.code t →
        HasAnswer (w.cacheset.compound t) label now →
        StoreReplySmall net rs (asked w data) t label) →
      OneOutcome w client (handleRequest w client data clock now time).sent →
      SpokenOnce w data now := by
  have hr := receive_sized hs data
  have ha := asked_sized hs data
  have hlen : 4 ≤ (receive w data).recvBuffer.length := by
    rw [hr.recvBuffer]
    omega
  have hrec : (received data).length < 1024 := by
    have := received_length_le data
    omega
  by_cases hf : HasAt (receive w data).recvBuffer 2 (u16Bytes flagQuery)
  · refine ⟨fun _ => ?_, fun _ _ _ _ _ _ _ _ => .inl hf⟩
    obtain ⟨header, hh, hflags⟩ := readDnsHeader_flags hlen
    rw [handleRequest_of_query hh (hflags.mpr hf)]
    exact serveQuestion_oneOutcome hr hrec
  · obtain ⟨id, bytes, hsent⟩ := handleRequest_refused hs hf client clock now time
    rw [hsent]
    constructor
    · rintro (hquery | ⟨label, qtype, hused, hunknown, hcursor⟩)
      · exact absurd hquery hf
      · rw [serveQuestion_silent ha hrec hused (by rwa [asked_cacheset])
          (by rwa [asked_adapter])]
        exact .inr (.inl ⟨bytes, rfl⟩)
    · intro net rs label qtype hc hused hroom hone
      have hle := hone.length_le
      rw [List.length_cons] at hle
      have hnil : (serveQuestion (asked w data) id client (received data).length clock now
          time).sent = [] := List.eq_nil_of_length_eq_zero (by omega)
      have hsilent := serveQuestion_not_silent ha (by rwa [asked_cacheset]) hrec hused
        (by rwa [asked_cacheset]) hnil
      rw [asked_cacheset, asked_adapter] at hsilent
      exact .inr ⟨label, qtype, hused, hsilent⟩

/-- A query for the mail exchanger of `a` goes to the upstream server only. With other flags a
relay that has just started could not keep to one outcome. -/
theorem handleRequest_oneOutcome_sample :
    OneOutcome (booted 0) ⟨2, 1, 1⟩ (handleRequest (booted 0) ⟨2, 1, 1⟩
      (questionMessage 7 flagQuery [[97]] 15) 0 0 0).sent ∧
    (OneOutcome (booted 0) ⟨2, 1, 1⟩ (handleRequest (booted 0) ⟨2, 1, 1⟩
      (questionMessage 7 0x8180 [[97]] 15) 0 0 0).sent →
        SpokenOnce (booted 0) (questionMessage 7 0x8180 [[97]] 15) 0) := by
  constructor
  · exact (handleRequest_oneOutcome_iff (booted 0) (booted_sized 0) ⟨2, 1, 1⟩
      (questionMessage 7 flagQuery [[97]] 15) 0 0 0).1 (.inl (by decide +kernel))
  · have hload : loadLocalRecord sampleNet ⟨Vector.replicate 16 0, 0⟩ (booted 0).cacheset none =
        .ok ((booted 0).cacheset, false) := rfl
    obtain ⟨rs, -, hcoherent⟩ := loaded_coherent hload
    have hused : questionUsed (asked (booted 0) (questionMessage 7 0x8180 [[97]] 15)) =
        .ok ([97], 15) := by
      decide +kernel
    refine (handleRequest_oneOutcome_iff (booted 0) (booted_sized 0) ⟨2, 1, 1⟩
      (questionMessage 7 0x8180 [[97]] 15) 0 0 0).2 sampleNet rs [97] 15 hcoherent hused ?_
    rintro - (_ | _) ht <;> cases ht

/-- The same message with the flags of a response is refused and forwarded. -/
theorem handleRequest_sends_two :
    ¬ OneOutcome (booted 0) ⟨2, 1, 1⟩ (handleRequest (booted 0) ⟨2, 1, 1⟩
      (questionMessage 7 0x8180 [[97]] 15) 0 0 0).sent := by
  intro h
  have hlen := h.length_le
  revert hlen
  decide +kernel

end DnsRelay.Relay
