import DnsRelay.Lru.Labels
import DnsRelay.Relay.Request

/-!
# What reaches the caches

The main loop works on the cache of a record type in two places: a request for that type
looks its name up, and a reply to a query of that type stores its addresses. Both are said
once for the two types.
-/

namespace DnsRelay.Relay

open DnsRelay.Message DnsRelay.Adapter DnsRelay.Static DnsRelay.Lib DnsRelay.Lib.Machine

/-- The record types that have stores of their own. -/
inductive AddressType
  | A
  | AAAA
  deriving DecidableEq

namespace AddressType

/-- The number of the type in a message. -/
def code : AddressType → ℕ
  | A => rrtypeA
  | AAAA => rrtypeAAAA

/-- The size of an address. -/
def width : AddressType → ℕ
  | A => 4
  | AAAA => 16

theorem code_inj {t t' : AddressType} (h : t.code = t'.code) : t = t' := by
  cases t <;> cases t' <;> first | rfl | cases h

end AddressType

namespace CacheSet

/-- The stores of a record type. -/
def compound (cs : CacheSet) : AddressType → CacheCompound
  | .A => cs.A
  | .AAAA => cs.AAAA

/-- The cache of a record type. -/
def temp (cs : CacheSet) (t : AddressType) : Lru.Cache := (cs.compound t).temp

def setTemp (cs : CacheSet) (t : AddressType) (temp : Lru.Cache) : CacheSet :=
  match t with
  | .A => { cs with A.temp := temp }
  | .AAAA => { cs with AAAA.temp := temp }

variable {cs : CacheSet} {t t' : AddressType} {c : Lru.Cache}

@[simp] theorem temp_setTemp_self : (cs.setTemp t c).temp t = c := by
  cases t <;> rfl

theorem temp_setTemp_of_ne (h : t' ≠ t) : (cs.setTemp t c).temp t' = cs.temp t' := by
  cases t <;> cases t' <;> first | rfl | exact absurd rfl h

end CacheSet

section Request

variable {w w' : World} {label : Label} {now time : ℤ} {t : AddressType}

/-- The world in which the question of a request is read: the refusal writes its flags into
the buffer first. -/
def asked (w : World) (data : Bytes) : World :=
  if HasAt (receive w data).recvBuffer 2 (u16Bytes flagQuery) then receive w data
  else refused (receive w data)

/-- The label and the type with which the request handler goes on. -/
def questionUsed (w : World) : Exec (Bytes × ℕ) := do
  let (question, _) ← readDnsQuestions w.question w.recvBuffer
  return (← cString question.label, question.qtype)

/-- The id of a request. -/
def requestId (w : World) (data : Bytes) : ℕ :=
  match readDnsHeader (receive w data).recvBuffer with
  | .ok header => header.id
  | .error _ => 0

/-- The question type of a request. -/
def requestType (w : World) (data : Bytes) : ℕ :=
  match questionUsed (asked w data) with
  | .ok (_, qtype) => qtype
  | .error _ => 0

/-- The call that the request handler makes on the cache of a type: the name is asked for
with that type, and neither the blacklist nor the local records have it. -/
def lookUpCall (t : AddressType) (w : World) (now : ℤ) : Option Lru.CacheOp :=
  match questionUsed w with
  | .ok (label, qtype) =>
      if qtype = t.code ∧ getStaticCache w.cacheset.blacklist label = .ok none ∧
          getStaticCache (w.cacheset.compound t).localStore label = .ok none then
        some (.get label now)
      else none
  | .error _ => none

/-- The cache of a type after the call, or as before if there is none. -/
def Called (t : AddressType) (call : Option Lru.CacheOp) (w w' : World) : Prop :=
  match call with
  | none => w'.cacheset.temp t = w.cacheset.temp t
  | some op => ∃ r, op.exec (w.cacheset.temp t) = .ok (w'.cacheset.temp t, r)

theorem asked_sized (hs : w.Sized) (data : Bytes) : (asked w data).Sized := by
  unfold asked
  split
  · exact receive_sized hs data
  · exact refused_sized (receive_sized hs data)

@[simp] theorem asked_cacheset (w : World) (data : Bytes) :
    (asked w data).cacheset = w.cacheset := by
  unfold asked
  split <;> rfl

@[simp] theorem asked_adapter (w : World) (data : Bytes) :
    (asked w data).adapter = w.adapter := by
  unfold asked
  split <;> rfl

/-- The handler goes on from the world in which the question is read, after the refusal of a
message that is no query. -/
theorem handleRequest_eq_asked (hs : w.Sized) (client : SockaddrIn) (data : Bytes)
    (clock now time : ℤ) :
    ∃ front, (∀ d ∈ front, d.socket = .server ∧ d.dest = client) ∧
      handleRequest w client data clock now time =
        ⟨front ++ (serveQuestion (asked w data) (requestId w data) client
            (received data).length clock now time).sent,
          (serveQuestion (asked w data) (requestId w data) client (received data).length clock
            now time).result⟩ := by
  have hlen : 4 ≤ (receive w data).recvBuffer.length := by
    rw [(receive_sized hs data).recvBuffer]
    omega
  obtain ⟨header, hh, hflags⟩ := readDnsHeader_flags hlen
  simp only [requestId, hh]
  by_cases hf : header.flags = htons flagQuery
  · refine ⟨[], by simp, ?_⟩
    rw [handleRequest_of_query hh hf, asked, if_pos (hflags.mp hf)]
    rfl
  · refine ⟨[⟨.server, client, (refused (receive w data)).recvBuffer.take
      (received data).length⟩], by simp, ?_⟩
    rw [handleRequest_of_other hh hf, refuse_of_le hlen, Output.bind_of_ok rfl, asked,
      if_neg fun h => hf (hflags.mpr h)]

theorem handleRequest_asked (hs : w.Sized) (client : SockaddrIn) (data : Bytes)
    (clock now time : ℤ) : (handleRequest w client data clock now time).result =
      (serveQuestion (asked w data) (requestId w data) client (received data).length clock now
        time).result := by
  obtain ⟨front, -, heq⟩ := handleRequest_eq_asked hs client data clock now time
  rw [heq]

theorem lookUpIn_temp {c c' : CacheCompound} {found : List (IP × ℕ)}
    (h : lookUpIn c label now time = .ok (c', found)) :
    (getStaticCache c.localStore label ≠ .ok none ∧ c'.temp = c.temp) ∨
    (getStaticCache c.localStore label = .ok none ∧
      ∃ data, Lru.getCacheARecord c.temp label now = .ok (c'.temp, data)) := by
  obtain ⟨record, hrecord, h⟩ := bind_eq_ok.mp h
  cases record with
  | some record =>
      obtain ⟨ips, -, h⟩ := bind_eq_ok.mp h
      cases h
      exact .inl ⟨by simp [hrecord], rfl⟩
  | none =>
      obtain ⟨⟨temp, data⟩, hget, h⟩ := bind_eq_ok.mp h
      cases h
      exact .inr ⟨hrecord, data, hget⟩

/-- A lookup makes a call on the cache of its type, when there is no local record, and
leaves the other cache alone. -/
theorem lookUp_temp {found : List (IP × ℕ)} (h : lookUp w label now time = .ok (w', found))
    (t : AddressType) :
    (¬ (w.question.qtype = t.code ∧
        getStaticCache (w.cacheset.compound t).localStore label = .ok none) ∧
      w'.cacheset.temp t = w.cacheset.temp t) ∨
    ((w.question.qtype = t.code ∧
        getStaticCache (w.cacheset.compound t).localStore label = .ok none) ∧
      ∃ data, Lru.getCacheARecord (w.cacheset.temp t) label now =
        .ok (w'.cacheset.temp t, data)) := by
  unfold lookUp at h
  split at h
  next hA =>
    obtain ⟨⟨compound, l⟩, hl, h⟩ := bind_eq_ok.mp h
    cases h
    cases t with
    | A =>
        rcases lookUpIn_temp hl with ⟨hlocal, htemp⟩ | ⟨hlocal, hget⟩
        · exact .inl ⟨fun h => hlocal h.2, htemp⟩
        · exact .inr ⟨⟨hA, hlocal⟩, hget⟩
    | AAAA => exact .inl ⟨fun h => absurd (hA.symm.trans h.1) (by decide), rfl⟩
  next hA =>
    split at h
    next hAAAA =>
      obtain ⟨⟨compound, l⟩, hl, h⟩ := bind_eq_ok.mp h
      cases h
      cases t with
      | A => exact .inl ⟨fun h => hA h.1, rfl⟩
      | AAAA =>
          rcases lookUpIn_temp hl with ⟨hlocal, htemp⟩ | ⟨hlocal, hget⟩
          · exact .inl ⟨fun h => hlocal h.2, htemp⟩
          · exact .inr ⟨⟨hAAAA, hlocal⟩, hget⟩
    next hAAAA =>
      cases h
      cases t with
      | A => exact .inl ⟨fun h => hA h.1, rfl⟩
      | AAAA => exact .inl ⟨fun h => hAAAA h.1, rfl⟩

/-- What is looked up is what the question was read as. -/
theorem answerQuestion_question {verdict : Verdict}
    (h : answerQuestion w now time = .ok (w', verdict)) :
    (∃ label, questionUsed w = .ok (label, w'.question.qtype) ∧
      cString w'.question.label = .ok label) ∧
    ∀ t, Called t (lookUpCall t w now) w w' := by
  obtain ⟨⟨question, n⟩, hread, h⟩ := bind_eq_ok.mp h
  obtain ⟨label, hlabel, h⟩ := bind_eq_ok.mp h
  obtain ⟨black, hblack, h⟩ := bind_eq_ok.mp h
  have hused : questionUsed w = .ok (label, question.qtype) := by
    simp only [questionUsed, hread, bind, Except.bind, hlabel]
    rfl
  change getStaticCache w.cacheset.blacklist label = .ok black at hblack
  cases black with
  | some record =>
      obtain ⟨buffer₁, -, h⟩ := bind_eq_ok.mp h
      obtain ⟨buffer₂, -, h⟩ := bind_eq_ok.mp h
      cases h
      refine ⟨⟨label, hused, hlabel⟩, fun t => ?_⟩
      simp [lookUpCall, hused, hblack, Called]
  | none =>
      obtain ⟨⟨w₁, found⟩, hl, h⟩ := bind_eq_ok.mp h
      have hcalled : ∀ t, Called t (lookUpCall t w now) w w₁ := by
        intro t
        rcases lookUp_temp hl t with ⟨hno, htemp⟩ | ⟨hyes, data, hget⟩
        · simp only [lookUpCall, hused, hblack, true_and]
          rw [if_neg hno]
          exact htemp
        · simp only [lookUpCall, hused, hblack, true_and]
          rw [if_pos hyes]
          refine ⟨.got data, ?_⟩
          simp only [Lru.CacheOp.exec]
          rw [show Lru.getCacheARecord (w.cacheset.temp t) label now = _ from hget]
          rfl
      obtain ⟨cacheset, rfl⟩ := lookUp_frame hl
      dsimp only at h
      split at h
      · cases h
        exact ⟨⟨label, hused, hlabel⟩, hcalled⟩
      · obtain ⟨ans, -, h⟩ := bind_eq_ok.mp h
        obtain ⟨⟨buffer, size⟩, -, h⟩ := bind_eq_ok.mp h
        obtain ⟨reply, -, h⟩ := bind_eq_ok.mp h
        cases h
        exact ⟨⟨label, hused, hlabel⟩, hcalled⟩

/-- The slots keep their entries, or have got that of a query. -/
def Enters (info : IDtoAddr) (clock : ℤ) (a b : IDAdapter) : Prop :=
  ∀ k, b.data k = a.data k ∨ ∃ message, b.data k = ⟨info, true, clock, message⟩

/-- What is kept when a query is forwarded, and the entry that the cursor slot gets. -/
structure Relayed (w : World) (id : ℕ) (client : SockaddrIn) (clock : ℤ) (w' : World) :
    Prop where
  question : w'.question = w.question
  cacheset : w'.cacheset = w.cacheset
  entry : Enters ⟨client, UInt16.ofNat id, UInt8.ofNat w.question.qtype⟩ clock w.adapter
    w'.adapter

theorem relayQuery_relayed (w : World) (id : ℕ) (client : SockaddrIn) (rec : ℕ) (clock : ℤ) :
    Output.Ensures (fun _ => True) (relayQuery w id client rec clock)
      (Relayed w id client clock) := by
  apply (Output.ensures_true _).bind
  intro buffer _
  apply (Output.ensures_lift (P := fun p => Enters _ clock w.adapter p.1) _).bind
  · rintro ⟨adapter, newId⟩ hentry
    cases newId with
    | none => exact Output.ensures_pure ⟨rfl, rfl, hentry⟩
    | some k =>
        apply (Output.ensures_true _).bind
        intro buffer' _
        apply (Output.ensures_emit trivial).bind
        exact fun _ _ => Output.ensures_pure ⟨rfl, rfl, hentry⟩
  · rintro ⟨b, newId⟩ hpush k
    rcases IDAdapter.push_cases hpush with ⟨-, rfl, rfl⟩ | ⟨-, rfl, message, rfl⟩
    · exact .inl rfl
    · by_cases hk : k = w.adapter.next
      · subst hk
        exact .inr ⟨message, by simp [IDAdapter.set]⟩
      · exact .inl (by simp [IDAdapter.set, hk])

/-- What a request that returns has done: the question it has used is in `question`, each
cache has got its call, and a slot that has been taken has the entry of the request. -/
theorem handleRequest_question {client : SockaddrIn} {data : Bytes} {clock : ℤ} (hs : w.Sized)
    (h : (handleRequest w client data clock now time).result = .ok w') :
    (∃ label, questionUsed (asked w data) = .ok (label, w'.question.qtype) ∧
      cString w'.question.label = .ok label) ∧
    (∀ t, Called t (lookUpCall t (asked w data) now) w w') ∧
    Enters ⟨client, UInt16.ofNat (requestId w data), UInt8.ofNat (requestType w data)⟩ clock
      w.adapter w'.adapter := by
  rw [handleRequest_asked hs, serveQuestion] at h
  cases ha : answerQuestion (asked w data) now time with
  | error e =>
      rw [ha] at h
      cases h
  | ok p =>
      obtain ⟨w₁, verdict⟩ := p
      obtain ⟨hused, hcalled⟩ := answerQuestion_question ha
      have hadapter := (answerQuestion_frame ha).1
      simp only [Called, asked_cacheset] at hcalled
      rw [asked_adapter] at hadapter
      rw [ha, Output.lift_ok_bind] at h
      cases verdict with
      | blocked =>
          cases h
          exact ⟨hused, hcalled, fun k => .inl (by rw [hadapter])⟩
      | answered reply =>
          cases h
          exact ⟨hused, hcalled, fun k => .inl (by rw [hadapter])⟩
      | missing =>
          have hrel := (relayQuery_relayed w₁ _ client _ clock).result w' h
          obtain ⟨label, hquestion, hlabel⟩ := hused
          have htype : requestType w data = w₁.question.qtype := by
            rw [requestType, hquestion]
          rw [← hrel.cacheset] at hcalled
          rw [htype, ← hadapter]
          refine ⟨⟨label, ?_, ?_⟩, hcalled, hrel.entry⟩
          · rw [hrel.question, hquestion]
          · rw [hrel.question, hlabel]

end Request

section Reply

variable {w w' : World} {type : UInt8} {now time : ℤ}

/-- The answers of a reply that can be cached, with the label they are stored under. -/
def cacheable (w : World) : Option (Label × List Answer) :=
  match readDnsAnswers w.ans w.recvBuffer with
  | .ok (ans, ansNum) =>
      if 0 < ansNum then
        match readDnsQuestion w.question w.recvBuffer dnsHeaderSize with
        | .ok (question, _) => (cString question.label).toOption.map (·, ans.take ansNum)
        | .error _ => none
      else none
  | .error _ => none

/-- The elements that are made of decoded answers. -/
def cacheData (label : Label) (now : ℤ) (answers : List Answer) : List Lru.RecordData :=
  answers.map fun a => ⟨label, a.address, now + a.ttl⟩

/-- The call that a reply makes on the cache of a type, when it answers a query of the
type `type`. -/
def storeCall (t : AddressType) (w : World) (type : UInt8) (now time : ℤ) :
    Option Lru.CacheOp :=
  if type.toNat = t.code then
    (cacheable w).map fun p => .setMulti p.1 (cacheData p.1 now p.2) time
  else none

/-- Caching leaves the stores as they are or is one call for the type of the query, with as many
elements as `tmp_ans_data` has room for. -/
theorem cacheAnswers_cases (h : cacheAnswers w type now time = .ok w') :
    (w'.cacheset = w.cacheset ∧ ∀ t, storeCall t w type now time = none) ∨
    ∃ t label answers temp ret, type.toNat = t.code ∧ cacheable w = some (label, answers) ∧
      answers.length ≤ tmpAnsData ∧
      Lru.setCacheAMultiRecord (w.cacheset.temp t) label (cacheData label now answers) time =
        .ok (temp, ret) ∧
      w'.cacheset = w.cacheset.setTemp t temp := by
  unfold cacheAnswers at h
  split at h
  next ht =>
    obtain ⟨⟨ans, ansNum⟩, hans, h⟩ := bind_eq_ok.mp h
    dsimp only at h
    split at h
    next hpos =>
      obtain ⟨⟨question, size⟩, hq, h⟩ := bind_eq_ok.mp h
      dsimp only at h
      split at h
      next => cases h
      next hle =>
        obtain ⟨label, hlabel, h⟩ := bind_eq_ok.mp h
        have hcacheable : cacheable w = some (label, ans.take ansNum) := by
          simp only [cacheable, hans, hpos, if_true, hq, hlabel]
          rfl
        have hcount : (ans.take ansNum).length ≤ tmpAnsData := by
          rw [List.length_take]
          omega
        right
        split at h
        next hA =>
          obtain ⟨⟨temp, ret⟩, hset, h⟩ := bind_eq_ok.mp h
          cases h
          exact ⟨.A, label, _, temp, ret, hA, hcacheable, hcount, hset, rfl⟩
        next hA =>
          obtain ⟨⟨temp, ret⟩, hset, h⟩ := bind_eq_ok.mp h
          cases h
          exact ⟨.AAAA, label, _, temp, ret, ht.resolve_left hA, hcacheable, hcount, hset, rfl⟩
    next hpos =>
      cases h
      refine .inl ⟨rfl, fun t => ?_⟩
      simp [storeCall, cacheable, hans, hpos]
  next ht =>
    cases h
    refine .inl ⟨rfl, fun t => if_neg fun hcode => ht ?_⟩
    cases t with
    | A => exact .inl hcode
    | AAAA => exact .inr hcode

/-- A reply to a query for anything else is not cached. -/
theorem cacheAnswers_of_other (h : ∀ t : AddressType, type.toNat ≠ t.code)
    (now time : ℤ) : cacheAnswers w type now time = .ok w := by
  have hno : ¬ (type.toNat = rrtypeA ∨ type.toNat = rrtypeAAAA) := by
    rintro (hA | hAAAA)
    · exact h .A hA
    · exact h .AAAA hAAAA
  exact if_neg hno

/-- A reply without addresses is read, and nothing is cached. -/
theorem cacheAnswers_of_none {t : AddressType} {ans : List Answer} (ht : type.toNat = t.code)
    (hans : readDnsAnswers w.ans w.recvBuffer = .ok (ans, 0)) (now time : ℤ) :
    cacheAnswers w type now time = .ok { w with ans := ans } := by
  have haddress : type.toNat = rrtypeA ∨ type.toNat = rrtypeAAAA := by
    cases t with
    | A => exact .inl ht
    | AAAA => exact .inr ht
  simp only [cacheAnswers, haddress, if_true, hans, bind, Except.bind, lt_irrefl, if_false]
  rfl

/-- Caching returns when the call does. -/
theorem cacheAnswers_of_set {t : AddressType} {ans : List Answer} {ansNum : ℕ}
    {question : Question} {size ret : ℤ} {label : Label} {temp : Lru.Cache}
    (ht : type.toNat = t.code) (hans : readDnsAnswers w.ans w.recvBuffer = .ok (ans, ansNum))
    (hpos : 0 < ansNum) (hle : ansNum ≤ tmpAnsData)
    (hq : readDnsQuestion w.question w.recvBuffer dnsHeaderSize = .ok (question, size))
    (hlabel : cString question.label = .ok label)
    (hset : Lru.setCacheAMultiRecord (w.cacheset.temp t) label
      (cacheData label now (ans.take ansNum)) time = .ok (temp, ret)) :
    ∃ w', cacheAnswers w type now time = .ok w' ∧ w'.cacheset.temp t = temp := by
  have hle' : ¬ tmpAnsData < ansNum := not_lt.mpr hle
  cases t with
  | A =>
      have hA : type.toNat = rrtypeA := ht
      change Lru.setCacheAMultiRecord w.cacheset.A.temp label
        ((ans.take ansNum).map fun a => ⟨label, a.address, now + a.ttl⟩) time = _ at hset
      simp only [cacheAnswers, hA, true_or, if_true, hans, hpos, hq, hle', if_false, hlabel, hset,
        bind, Except.bind]
      exact ⟨_, rfl, rfl⟩
  | AAAA =>
      have hAAAA : type.toNat = rrtypeAAAA := ht
      have hA : ¬ rrtypeAAAA = rrtypeA := by decide
      change Lru.setCacheAMultiRecord w.cacheset.AAAA.temp label
        ((ans.take ansNum).map fun a => ⟨label, a.address, now + a.ttl⟩) time = _ at hset
      simp only [cacheAnswers, hAAAA, or_true, if_true, hans, hpos, hq, hle', if_false, hlabel, hA,
        hset, bind, Except.bind]
      exact ⟨_, rfl, rfl⟩

theorem cacheAnswers_called (h : cacheAnswers w type now time = .ok w') (t : AddressType) :
    Called t (storeCall t w type now time) w w' := by
  rcases cacheAnswers_cases h with
    ⟨hsame, hnone⟩ | ⟨t', label, answers, temp, ret, htype, hcacheable, -, hset, hcs⟩
  · rw [hnone t, Called, hsame]
  · by_cases ht : t = t'
    · subst ht
      simp only [storeCall, if_pos htype, hcacheable, Option.map_some, Called, hcs,
        CacheSet.temp_setTemp_self]
      exact ⟨.stored ret, by simp only [Lru.CacheOp.exec, hset, bind, Except.bind]; rfl⟩
    · have hcode : ¬ type.toNat = t.code := fun h => ht (AddressType.code_inj (h.symm.trans htype))
      simp only [storeCall, if_neg hcode, Called, hcs, CacheSet.temp_setTemp_of_ne ht]

/-- The slot and the entry that a datagram on the query socket belongs to. -/
def replyTo (w : World) (data : Bytes) : Option (Slot × IDtoAddr) :=
  match readDnsHeader (receive w data).recvBuffer with
  | .ok header =>
      match slotOf (toShort header.id) with
      | .ok k => (w.adapter.outstanding k).map (k, ·)
      | .error _ => none
  | .error _ => none

theorem replyTo_eq_some {data : Bytes} {k : Slot} {info : IDtoAddr}
    (h : replyTo w data = some (k, info)) :
    (∃ header, readDnsHeader (receive w data).recvBuffer = .ok header ∧
      slotOf (toShort header.id) = .ok k) ∧
    w.adapter.outstanding k = some info := by
  unfold replyTo at h
  split at h
  next header hh =>
    split at h
    next k' hk =>
      obtain ⟨info', ho, hp⟩ := Option.map_eq_some_iff.mp h
      cases hp
      exact ⟨⟨header, hh, hk⟩, ho⟩
    next => cases h
  next => cases h

/-- A datagram that belongs to no entry finds none in the table. -/
theorem replyTo_eq_none {data : Bytes} (h : replyTo w data = none) :
    (∃ e, readDnsHeader (receive w data).recvBuffer = .error e) ∨
    ∃ header, readDnsHeader (receive w data).recvBuffer = .ok header ∧
      ∀ info, w.adapter.get (toShort header.id) ≠ .ok (some info) := by
  unfold replyTo at h
  split at h
  next header hh =>
    refine .inr ⟨header, hh, fun info hget => ?_⟩
    split at h
    next k hk =>
      rw [IDAdapter.get_of_slotOf hk, Option.map_eq_none_iff.mp h] at hget
      cases hget
    next e hk =>
      rw [IDAdapter.get_of_slotOf_error hk] at hget
      cases hget
  next e hh => exact .inl ⟨e, hh⟩

/-- It changes no store. -/
theorem handleRelay_dropped {sender : SockaddrIn} {data : Bytes} (hr : replyTo w data = none)
    (h : (handleRelay w sender data now time).result = .ok w') : w'.cacheset = w.cacheset := by
  rcases replyTo_eq_none hr with ⟨e, hh⟩ | ⟨header, hh, hno⟩
  · rw [handleRelay, hh] at h
    cases h
  · cases hg : w.adapter.get (toShort header.id) with
    | error e =>
        have hg' : (receive w data).adapter.get (toShort header.id) = .error e := hg
        rw [handleRelay, hh, Output.lift_ok_bind, hg'] at h
        cases h
    | ok found =>
        cases found with
        | none =>
            rw [handleRelay_of_free hh hg] at h
            cases h
            rfl
        | some info => exact absurd hg (hno info)

/-- A handler that returns has returned from the caching. -/
theorem handleRelay_cached {sender : SockaddrIn} {data : Bytes} {k : Slot} {info : IDtoAddr}
    (hr : replyTo w data = some (k, info))
    (h : (handleRelay w sender data now time).result = .ok w') :
    ∃ w₁, cacheAnswers (relayed w sender data) info.type now time = .ok w₁ := by
  obtain ⟨⟨header, hh, hk⟩, ho⟩ := replyTo_eq_some hr
  cases hc : cacheAnswers (relayed w sender data) info.type now time with
  | error e =>
      rw [handleRelay_of_stop hh hk ho hc] at h
      cases h
  | ok w₁ => exact ⟨w₁, rfl⟩

/-- The call that a datagram on the query socket makes on the cache of a type. -/
def relayCall (t : AddressType) (w : World) (sender : SockaddrIn) (data : Bytes)
    (now time : ℤ) : Option Lru.CacheOp :=
  (replyTo w data).bind fun p => storeCall t (relayed w sender data) p.2.type now time

/-- What a datagram on the query socket has done when the handler returns. -/
theorem handleRelay_called {sender : SockaddrIn} {data : Bytes}
    (h : (handleRelay w sender data now time).result = .ok w') (t : AddressType) :
    Called t (relayCall t w sender data now time) w w' := by
  cases hr : replyTo w data with
  | none =>
      simp only [relayCall, hr, Option.bind_none, Called, CacheSet.temp, handleRelay_dropped hr h]
  | some p =>
      obtain ⟨k, info⟩ := p
      obtain ⟨w₁, hc⟩ := handleRelay_cached hr h
      obtain ⟨⟨header, hh, hk⟩, ho⟩ := replyTo_eq_some hr
      obtain ⟨w₂, hdelivered, hcacheset⟩ := handleRelay_of_outstanding hh hk ho hc
      rw [hdelivered.result] at h
      cases h
      have hcalled : Called t (relayCall t w sender data now time) w w₁ := by
        simp only [relayCall, hr, Option.bind_some]
        exact cacheAnswers_called hc t
      unfold Called at hcalled ⊢
      rwa [hcacheset]

end Reply

section Step

variable {w w' : World}

/-- The call that a round of the loop makes on the cache of a type, if it makes one. -/
def cacheCall (t : AddressType) (w : World) : Event → Option Lru.CacheOp
  | .sweep _ => none
  | .relay sender data now time => relayCall t w sender data now time
  | .request _ data _ now _ => lookUpCall t (asked w data) now

/-- What a reply stores carries the label it is stored under. -/
theorem cacheCall_labelled {t : AddressType} {e : Event} {op : Lru.CacheOp}
    (h : cacheCall t w e = some op) : op.Labelled := by
  cases e with
  | sweep clock => cases h
  | relay sender data now time =>
      obtain ⟨⟨k, info⟩, -, h⟩ := Option.bind_eq_some_iff.mp h
      unfold storeCall at h
      split at h
      next =>
        obtain ⟨⟨label, answers⟩, -, rfl⟩ := Option.map_eq_some_iff.mp h
        intro d hd
        obtain ⟨a, -, rfl⟩ := List.mem_map.mp hd
        rfl
      next => cases h
  | request client data clock now time =>
      simp only [cacheCall, lookUpCall] at h
      split at h
      next =>
        split at h
        next =>
          cases h
          trivial
        next => cases h
      next => cases h

/-- A round of the loop changes a cache by its call only. -/
theorem step_called (hs : w.Sized) {e : Event} (h : (step w e).result = .ok w')
    (t : AddressType) : Called t (cacheCall t w e) w w' := by
  cases e with
  | sweep clock =>
      have hkeep : Output.Ensures (fun _ => True) (step w (.sweep clock)) fun w' =>
          w'.cacheset = w.cacheset := by
        apply (Output.ensures_true _).bind
        exact fun b _ => Output.ensures_pure rfl
      change w'.cacheset.temp t = w.cacheset.temp t
      rw [hkeep.result w' h]
  | relay sender data now time => exact handleRelay_called h t
  | request client data clock now time => exact (handleRequest_question hs h).2.1 t

/-- A call that returns keeps the list and slot invariant. -/
theorem Called.inv {t : AddressType} {call : Option Lru.CacheOp} (h : Called t call w w')
    (hinv : ∃ l, Lru.Inv (w.cacheset.temp t) l) : ∃ l, Lru.Inv (w'.cacheset.temp t) l := by
  cases call with
  | none =>
      rw [Called] at h
      rw [h]
      exact hinv
  | some op =>
      obtain ⟨r, hexec⟩ := h
      obtain ⟨l, hl⟩ := hinv
      exact (Lru.exec_inv hl hexec).2

end Step

section Start

/-- The state in which the loop starts: no query is outstanding and the caches are as
`init_cache` leaves them. -/
structure World.Initial (v : World) : Prop where
  sized : v.Sized
  free : ∀ k, v.adapter.outstanding k = none
  caches : ∀ t, ∃ recordLength maxSize scaled,
    v.cacheset.temp t = Lru.initCache recordLength maxSize scaled

theorem booted_initial (addr : UInt32) : (booted addr).Initial where
  sized := booted_sized addr
  free := fun _ => rfl
  caches := by
    intro t
    cases t <;> exact ⟨1000, 429496729, 1428, rfl⟩

theorem World.Initial.inv {v : World} (h : v.Initial) (t : AddressType) :
    ∃ l, Lru.Inv (v.cacheset.temp t) l := by
  obtain ⟨recordLength, maxSize, scaled, hinit⟩ := h.caches t
  rw [hinit]
  exact ⟨[], Lru.initCache_inv_any⟩

/-- What the calls of the loop keep of a cache, besides the list and slot invariant, is kept by
its runs. -/
theorem mainLoop_keeps {Q : Lru.Cache → Prop} {v w : World} (hv : v.Sized)
    (hcaches : ∀ t, (∃ l, Lru.Inv (v.cacheset.temp t) l) ∧ Q (v.cacheset.temp t))
    (hcall : ∀ {w w' : World} {e : Event} {t : AddressType} {op : Lru.CacheOp} {c : Lru.Cache}
      {r : Lru.CacheResult} {l : List ℤ}, (step w e).result = .ok w' →
      cacheCall t w e = some op → Lru.Inv (w.cacheset.temp t) l → Q (w.cacheset.temp t) →
      op.exec (w.cacheset.temp t) = .ok (c, r) → Q c)
    {events : List Event} (h : (mainLoop v events).result = .ok w) :
    w.Sized ∧ ∀ t, (∃ l, Lru.Inv (w.cacheset.temp t) l) ∧ Q (w.cacheset.temp t) := by
  have hrun : Output.Ensures (fun _ => True) (mainLoop v events) fun w =>
      w.Sized ∧ ∀ t, (∃ l, Lru.Inv (w.cacheset.temp t) l) ∧ Q (w.cacheset.temp t) := by
    apply Output.run_ensures_of_mem
    · intro e _ w ⟨hs, hcaches⟩
      refine ⟨fun _ _ => trivial, fun w' hw => ⟨(step_sized hs e).result w' hw, fun t => ?_⟩⟩
      obtain ⟨hinv, hq⟩ := hcaches t
      have hcalled := step_called hs hw t
      refine ⟨hcalled.inv hinv, ?_⟩
      cases hc : cacheCall t w e with
      | none =>
          rw [hc, Called] at hcalled
          rw [hcalled]
          exact hq
      | some op =>
          rw [hc] at hcalled
          obtain ⟨r, hexec⟩ := hcalled
          obtain ⟨l, hl⟩ := hinv
          exact hcall hw hc hl hq hexec
    · exact ⟨hv, hcaches⟩
  exact hrun.result w h

/-- What holds of every cache after its initialisation, besides, holds in every state that the
loop reaches. -/
theorem mainLoop_caches {Q : Lru.Cache → Prop} {v w : World} (hv : v.Initial)
    (hinit : ∀ recordLength maxSize scaled, Q (Lru.initCache recordLength maxSize scaled))
    (hcall : ∀ {w w' : World} {e : Event} {t : AddressType} {op : Lru.CacheOp} {c : Lru.Cache}
      {r : Lru.CacheResult} {l : List ℤ}, (step w e).result = .ok w' →
      cacheCall t w e = some op → Lru.Inv (w.cacheset.temp t) l → Q (w.cacheset.temp t) →
      op.exec (w.cacheset.temp t) = .ok (c, r) → Q c)
    {events : List Event} (h : (mainLoop v events).result = .ok w) :
    w.Sized ∧ ∀ t, (∃ l, Lru.Inv (w.cacheset.temp t) l) ∧ Q (w.cacheset.temp t) := by
  refine mainLoop_keeps hv.sized (fun t => ⟨hv.inv t, ?_⟩) hcall h
  obtain ⟨recordLength, maxSize, scaled, heq⟩ := hv.caches t
  rw [heq]
  exact hinit recordLength maxSize scaled

/-- The arrays and the caches in every state that the loop reaches. -/
theorem mainLoop_inv {v w : World} (hv : v.Initial) {events : List Event}
    (h : (mainLoop v events).result = .ok w) :
    w.Sized ∧ ∀ t, ∃ l, Lru.Inv (w.cacheset.temp t) l := by
  obtain ⟨hs, hcaches⟩ := mainLoop_caches (Q := fun _ => True) hv (fun _ _ _ => trivial)
    (fun _ _ _ _ _ => trivial) h
  exact ⟨hs, fun t => (hcaches t).1⟩

end Start

end DnsRelay.Relay
