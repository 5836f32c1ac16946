import DnsRelay.Lru.Held
import DnsRelay.Message.Replies
import DnsRelay.Relay.Typed

/-!
# Answers from the cache

A reply of the upstream server goes through the decoder into the cache, stays there while
other calls are made, and is encoded again for a later request. What the later client gets
are the addresses of the reply in their order, with the time that they have left. This
needs names that survive the text form of labels, a bucket without nodes of free records,
and no rejected call in between.
-/

namespace DnsRelay.Relay

open DnsRelay.Message DnsRelay.Adapter DnsRelay.Static DnsRelay.Lib DnsRelay.Lib.Machine Function

section Statement

/-- A reply to an outstanding query for addresses that arrives while the cache has room:
its question has an uncompressed name, its records can be decoded, and one to ten of them
are addresses, all of the type asked for. -/
structure CacheableReply (t : AddressType) (w : World) (reply : Bytes) (labels : List Bytes)
    (records : List ResourceRecord) : Prop where
  outstanding : ∃ k info, replyTo w reply = some (k, info) ∧ info.type.toNat = t.code
  response : ∃ questions, Response (received reply) questions records
  label_length : ∀ label ∈ labels, 1 ≤ label.length ∧ label.length ≤ 63
  name_length : (wireName labels).length ≤ 255
  name : HasAt (received reply) 12 (wireName labels)
  count : 1 ≤ (addressRecords records).length ∧ (addressRecords records).length ≤ tmpAnsData
  types : ∀ r ∈ addressRecords records, r.type = t.code
  ttls : ∀ r ∈ addressRecords records, r.ttl < 2 ^ 31
  not_full : Lru.isFull (w.cacheset.temp t) = false
  room : (w.cacheset.temp t).usedSize + 1024 ≤ (w.cacheset.temp t).maxSize
  live : ∀ s ∈ Lru.visited (w.cacheset.temp t),
    ((w.cacheset.temp t).records.data s).isLive = true

/-- A query for the same name and type while the first address is still valid, with counts
for one question and nothing else, when no other store has the name and the reply fits into
the buffer. -/
structure LaterRequest (t : AddressType) (w : World) (request : Bytes) (labels : List Bytes)
    (records : List ResourceRecord) (t₀ t₁ : ℤ) (id qclass : ℕ) : Prop where
  after : t₀ ≤ t₁
  valid : ∀ r ∈ (addressRecords records).head?, t₁ ≤ t₀ + r.ttl
  id : HasAt (received request) 0 (u16Bytes id)
  flags : HasAt (received request) 2 (u16Bytes flagQuery)
  qdcount : HasAt (received request) 4 (u16Bytes 1)
  nscount : HasAt (received request) 8 (u16Bytes 0)
  adcount : HasAt (received request) 10 (u16Bytes 0)
  question : HasAt (received request) 12 (questionBytes labels t.code qclass)
  qclass_lt : qclass < 65536
  not_black : getStaticCache w.cacheset.blacklist (dotted labels) = .ok none
  not_local : getStaticCache (w.cacheset.compound t).localStore (dotted labels) = .ok none
  fits : 12 + (wireName labels).length + 4 + (addressRecords records).length *
    ((wireName labels).length + 10 + t.width) ≤ 1024

/-- The record of the later reply: the address with the time it has left, under the name
that was asked for. -/
def aged (labels : List Bytes) (qclass : ℕ) (elapsed : ℤ) (r : ResourceRecord) :
    ResourceRecord :=
  ⟨[labels], r.type, qclass, (r.ttl - elapsed).toNat, r.rdata⟩

/-- The client gets one datagram, with the id `id`, and it consists of these questions and
answers. -/
def RepliesWith (o : Output Datagram Stop World) (client : SockaddrIn) (id : ℕ)
    (questions : List WireQuestion) (answers : List ResourceRecord) : Prop :=
  ∃ bytes, o.sent = [⟨.server, client, bytes⟩] ∧ HasAt bytes 0 (u16Bytes id) ∧
    Decodes bytes questions answers [] []

/-- A round that stores nothing under the label, evicts nothing and removes nothing from the
cache of a type. -/
def spared (t : AddressType) (label : Label) (w : World) (e : Event) : Bool :=
  match cacheCall t w e with
  | some op => Lru.sparing label (w.cacheset.temp t) op
  | none => true

/-- A round that does not hand addresses to the cache of a type all of which have expired. -/
def acceptedIn (t : AddressType) (w : World) (e : Event) : Bool :=
  match cacheCall t w e with
  | some op => op.accepted
  | none => true

end Statement

section Between

variable {t : AddressType} {label : Label} {data : List Lru.RecordData}

/-- What the cache holds under a label it holds after such a round. -/
theorem step_held {w : World} {e : Event} (hs : w.Sized)
    (hheld : Lru.Held (w.cacheset.temp t) label data)
    (hc : (spared t label w e && acceptedIn t w e) = true) :
    Output.Ensures (fun _ => True) (step w e) fun w' =>
      w'.Sized ∧ Lru.Held (w'.cacheset.temp t) label data := by
  refine ⟨fun _ _ => trivial, fun w' hw => ⟨(step_sized hs e).result w' hw, ?_⟩⟩
  obtain ⟨hspared, haccepted⟩ := Bool.and_eq_true_iff.mp hc
  have hcalled := step_called hs hw t
  unfold spared at hspared
  unfold acceptedIn at haccepted
  cases hcall : cacheCall t w e with
  | none =>
      rw [hcall, Called] at hcalled
      rw [hcalled]
      exact hheld
  | some op =>
      rw [hcall] at hcalled hspared haccepted
      obtain ⟨r, hexec⟩ := hcalled
      exact hheld.exec (cacheCall_labelled hcall) hspared haccepted hexec

theorem mainLoop_held {w w' : World} {events : List Event} (hs : w.Sized)
    (hheld : Lru.Held (w.cacheset.temp t) label data)
    (hc : Output.along step (fun w e => spared t label w e && acceptedIn t w e) w events = true)
    (h : (mainLoop w events).result = .ok w') :
    w'.Sized ∧ Lru.Held (w'.cacheset.temp t) label data := by
  have hrun : Output.Ensures (fun _ => True) (mainLoop w events) fun w' =>
      w'.Sized ∧ Lru.Held (w'.cacheset.temp t) label data :=
    Output.run_ensures (fun _ _ hw hc => step_held hw.1 hw.2 hc) ⟨hs, hheld⟩ hc
  exact hrun.result w' h

end Between

section Reply

variable {t : AddressType} {w : World} {reply : Bytes} {labels : List Bytes}
  {records : List ResourceRecord}

/-- A decoded answer and the address record it comes from. -/
structure Carries (t : AddressType) (a : Answer) (r : ResourceRecord) : Prop where
  decoded : Decoded a r
  type : r.type = t.code
  ttl_lt : r.ttl < 2 ^ 31
  rdata_length : r.rdata.length = t.width

theorem CacheableReply.rdata_length (h : CacheableReply t w reply labels records)
    {r : ResourceRecord} (hr : r ∈ addressRecords records) : r.rdata.length = t.width := by
  obtain ⟨questions, hresponse⟩ := h.response
  obtain ⟨j, e, -, hrecords⟩ := hresponse.sections
  have hw := hrecords.wellFormed r (List.mem_filter.mp hr).1
  have htype := h.types r hr
  cases t with
  | A => exact hw.rdata_A htype
  | AAAA => exact hw.rdata_AAAA htype

/-- The decoder delivers the address records of the reply. -/
theorem CacheableReply.answers (h : CacheableReply t w reply labels records) (hs : w.Sized)
    (sender : SockaddrIn) :
    ∃ ans, readDnsAnswers (relayed w sender reply).ans (relayed w sender reply).recvBuffer =
        .ok (ans, (addressRecords records).length) ∧
      List.Forall₂ (Carries t) (ans.take (addressRecords records).length)
        (addressRecords records) := by
  obtain ⟨questions, hresponse⟩ := h.response
  have hcount := h.count.2
  have hlength := hs.ans.length
  obtain ⟨ans, hread, hall⟩ := readDnsAnswers_response (received reply)
    (w.recvBuffer.drop (received reply).length) questions records hresponse w.ans hs.ans.name
    (by rw [hlength]; simp only [tmpAnsData] at hcount; omega)
  refine ⟨ans, hread, List.forall₂_iff_get.mpr ⟨?_, ?_⟩⟩
  · have hsized := readDnsAnswers_sized hs.ans hread
    rw [List.length_take, hsized.length]
    simp only [tmpAnsData] at hcount
    omega
  · intro k hk hk'
    have hr : (addressRecords records)[k] ∈ addressRecords records := List.getElem_mem hk'
    obtain ⟨a, ha, hdec⟩ := hall k _ (List.getElem?_eq_getElem hk')
    have hget : (ans.take (addressRecords records).length)[k] = a := by
      apply Option.some.inj
      rw [← List.getElem?_eq_getElem hk, List.getElem?_take_of_lt hk', ha]
    simp only [List.get_eq_getElem, hget]
    exact ⟨hdec, h.types _ hr, h.ttls _ hr, h.rdata_length hr⟩

/-- The question of the reply gives the name under which the addresses are cached. -/
theorem CacheableReply.question (h : CacheableReply t w reply labels records) (hs : w.Sized)
    (hne : labels ≠ []) (hvalid : ∀ label ∈ labels, ValidLabel label) (sender : SockaddrIn) :
    ∃ question size, readDnsQuestion (relayed w sender reply).question
        (relayed w sender reply).recvBuffer dnsHeaderSize = .ok (question, size) ∧
      cString question.label = .ok (dotted labels) := by
  have hname := h.name_length
  have hw := wireName_length hne
  have hlen : (dotted labels).length < w.question.label.length := by
    rw [hs.label, maxNameLength]
    omega
  have hbuffer : (relayed w sender reply).recvBuffer.length = 1024 :=
    (receive_sized hs reply).recvBuffer
  obtain ⟨label, type, class_, hread, -, hlabel⟩ := readDnsQuestion_wireName hne hvalid hlen
    (show HasAt (relayed w sender reply).recvBuffer 12 (wireName labels) from
      h.name.append_right _) (by omega)
  exact ⟨_, _, hread, hlabel⟩

/-- No address of a reply has expired when it arrives. -/
theorem storedAll (label : Label) (t₀ : ℤ) (answers : List Answer) :
    (Lru.CacheOp.setMulti label (cacheData label t₀ answers) t₀).Labelled ∧
      (Lru.CacheOp.setMulti label (cacheData label t₀ answers) t₀).stored =
        cacheData label t₀ answers := by
  have hlab : (Lru.CacheOp.setMulti label (cacheData label t₀ answers) t₀).Labelled := by
    intro d hd
    obtain ⟨a, -, rfl⟩ := List.mem_map.mp hd
    rfl
  refine ⟨hlab, ?_⟩
  rw [hlab.stored_eq]
  apply List.filter_eq_self.mpr
  intro d hd
  obtain ⟨a, -, rfl⟩ := List.mem_map.mp hd
  simp [Lru.CacheOp.now]

/-- The reply is cached and passed on. -/
theorem CacheableReply.cached (h : CacheableReply t w reply labels records) (hs : w.Sized)
    {l : List ℤ} (hinv : Lru.Inv (w.cacheset.temp t) l) (hne : labels ≠ [])
    (hvalid : ∀ label ∈ labels, ValidLabel label)
    (hnodes : ∀ y ∈ (w.cacheset.temp t).labelHash.chain
      ((w.cacheset.temp t).labelHash.pos (dotted labels)),
      ∃ s, y = some s ∧ (w.cacheset.temp t).records.valid s = true)
    (sender : SockaddrIn) (t₀ : ℤ) :
    ∃ w₁ answers, (step w (.relay sender reply t₀ t₀)).result = .ok w₁ ∧
      List.Forall₂ (Carries t) answers (addressRecords records) ∧
      Lru.Held (w₁.cacheset.temp t) (dotted labels) (cacheData (dotted labels) t₀ answers) := by
  obtain ⟨k, info, hreply, htype⟩ := h.outstanding
  obtain ⟨⟨header, hh, hk⟩, ho⟩ := replyTo_eq_some hreply
  obtain ⟨ans, hans, hcarries⟩ := h.answers hs sender
  obtain ⟨question, size, hq, hlabel⟩ := h.question hs hne hvalid sender
  obtain ⟨hlab, hstored⟩ := storedAll (dotted labels) t₀ (ans.take (addressRecords records).length)
  have hpos := h.count.1
  have hst : (Lru.CacheOp.setMulti (dotted labels) (cacheData (dotted labels) t₀
      (ans.take (addressRecords records).length)) t₀).stored ≠ [] := by
    rw [hstored, cacheData, ne_eq, List.map_eq_nil_iff]
    intro hnil
    have hlen := hcarries.length_eq
    rw [hnil] at hlen
    simp only [List.length_nil] at hlen
    omega
  have hlive : ∀ s ∈ l, ((w.cacheset.temp t).records.data s).isLive = true := by
    rw [← hinv.visited_eq]
    exact h.live
  obtain ⟨c', ret, hexec, hheld⟩ := Lru.exec_set_held hinv rfl hlab hst hlive hnodes h.not_full
    ((Nat.mod_le _ _).trans h.room)
  obtain ⟨⟨temp, ret'⟩, hset, hret⟩ := bind_eq_ok.mp hexec
  cases hret
  obtain ⟨w', hcache, htemp⟩ := cacheAnswers_of_set htype hans (by omega) h.count.2 hq hlabel hset
  obtain ⟨w₁, hdelivered, hcacheset⟩ := handleRelay_of_outstanding hh hk ho hcache
  refine ⟨w₁, _, hdelivered.result, hcarries, ?_⟩
  -- the cache is what the call has made of it
  rw [hcacheset, htemp]
  rw [hstored] at hheld
  exact hheld

end Reply

section Answers

variable {question : Question} {label : Label} {found : List (IP × ℕ)}

/-- An entry of `ans` that was filled from a store. -/
structure Filled (question : Question) (label : Label) (p : IP × ℕ) (a : Answer) : Prop where
  name : cString a.name = .ok label
  address : a.address = p.1
  type : a.type = question.qtype
  class_ : a.class_ = question.qclass
  ttl : a.ttl = p.2

/-- The entry that the loop makes of an old one. -/
def filledEntry (question : Question) (label : Label) (p : IP × ℕ) (a : Answer) : Answer :=
  { a with
    name := label ++ 0 :: a.name.drop (label.length + 1)
    address := p.1
    type := question.qtype
    class_ := question.qclass
    ttl := p.2 }

/-- The entries from `count` on are filled in the order of the store. -/
theorem fillAnswers_filled (question : Question) {ans : List Answer} {count : ℕ} (h0 : 0 ∉ label)
    (hlabel : label.length < maxNameLength) (hs : AnswersSized ans)
    (hroom : count + found.length ≤ ans.length) :
    ∃ ans', fillAnswers question label found count ans = .ok ans' ∧
      (∀ k < count, ans'[k]? = ans[k]?) ∧
      List.Forall₂ (Filled question label) found ((ans'.drop count).take found.length) := by
  induction found generalizing count ans with
  | nil => exact ⟨ans, rfl, fun _ _ => rfl, by simp⟩
  | cons p found ih =>
      rw [List.length_cons] at hroom ⊢
      have hlt : count < ans.length := by omega
      have hname := hs.name _ (List.getElem_mem hlt)
      have hcopy : strcpy ans[count].name label =
          .ok (label ++ 0 :: ans[count].name.drop (label.length + 1)) := by
        rw [strcpy, if_neg (by omega)]
      have hset : AnswersSized (ans.set count (filledEntry question label p ans[count])) :=
        hs.set count ((strcpy_length hcopy).trans hname)
      have hroom' : count + 1 + found.length ≤
          (ans.set count (filledEntry question label p ans[count])).length := by
        rw [List.length_set]
        omega
      obtain ⟨ans', hfill, hkept, hfilled⟩ := ih hset hroom'
      have hcell : ans'[count]? = some (filledEntry question label p ans[count]) := by
        rw [hkept count (by omega), List.getElem?_set_self hlt]
      refine ⟨ans', ?_, ?_, ?_⟩
      · simp only [fillAnswers, List.getElem?_eq_getElem hlt, hcopy, bind, Except.bind]
        exact hfill
      · intro k hk
        rw [hkept k (by omega), List.getElem?_set_ne (by omega)]
      · obtain ⟨hlt', hcell'⟩ := List.getElem?_eq_some_iff.mp hcell
        rw [List.drop_eq_getElem_cons hlt', List.take_succ_cons, hcell']
        exact .cons ⟨cString_eq_ok.mpr ⟨h0, _, rfl⟩, rfl, rfl, rfl, rfl⟩ hfilled

end Answers

section Request

variable {t : AddressType} {w : World} {request : Bytes} {labels : List Bytes}
  {records : List ResourceRecord} {t₀ t₁ : ℤ} {id qclass : ℕ} {question : Question}

/-- What a lookup delivers of cached elements: the addresses with the time they have left,
as `uint32_t`. -/
def remaining (time : ℤ) (data : List Lru.RecordData) : List (IP × ℕ) :=
  data.map fun d => (d.ip, ((d.ttl - time) % 2 ^ 32).toNat)

theorem lookUp_hit {label : Label} {now time : ℤ} {temp : Lru.Cache}
    {data : List Lru.RecordData} (ht : w.question.qtype = t.code)
    (hlocal : getStaticCache (w.cacheset.compound t).localStore label = .ok none)
    (hget : Lru.getCacheARecord (w.cacheset.temp t) label now = .ok (temp, some data)) :
    ∃ cacheset, lookUp w label now time =
      .ok ({ w with cacheset := cacheset }, remaining time data) := by
  have hin : lookUpIn (w.cacheset.compound t) label now time =
      .ok ({ w.cacheset.compound t with temp := temp }, remaining time data) := by
    have hget' : Lru.getCacheARecord (w.cacheset.compound t).temp label now =
      .ok (temp, some data) := hget
    simp only [lookUpIn, hlocal, hget', bind, Except.bind]
    rfl
  cases t with
  | A =>
      have hA : w.question.qtype = rrtypeA := ht
      have hin' : lookUpIn w.cacheset.A label now time = _ := hin
      simp only [lookUp, hA, if_true, hin', bind, Except.bind]
      exact ⟨_, rfl⟩
  | AAAA =>
      have hAAAA : w.question.qtype = rrtypeAAAA := ht
      have hA : ¬ rrtypeAAAA = rrtypeA := by decide
      have hin' : lookUpIn w.cacheset.AAAA label now time = _ := hin
      simp only [lookUp, hAAAA, hA, if_false, if_true, hin', bind, Except.bind]
      exact ⟨_, rfl⟩

/-- The time left is computed on `time_t`, narrowed to `uint32_t`, read back as `int` and
checked for its range; a negative rest becomes zero. -/
theorem ttlField_remaining {ttl : ℕ} (httl : ttl < 2 ^ 31) (h₀ : t₀ ≤ t₁)
    (h₁ : t₁ - t₀ < 2 ^ 31) :
    ttlField ((t₀ + ttl - t₁) % 2 ^ 32).toNat = (ttl - (t₁ - t₀)).toNat := by
  unfold ttlField
  by_cases hpos : 0 ≤ t₀ + ttl - t₁
  · have hmod : (t₀ + ttl - t₁) % 2 ^ 32 = t₀ + ttl - t₁ :=
      Int.emod_eq_of_lt hpos (by omega)
    rw [hmod, if_pos (by omega)]
    omega
  · have hmod : (t₀ + ttl - t₁) % 2 ^ 32 = t₀ + ttl - t₁ + 2 ^ 32 := by omega
    rw [hmod, if_neg (by omega)]
    omega

/-- The record that is written for a cached address is the record of the reply with the time
it has left. -/
theorem recordOf_filled {a a' : Answer} {r : ResourceRecord} (hne : labels ≠ [])
    (hvalid : ∀ label ∈ labels, ValidLabel label) (hc : Carries t a r)
    (hq : question.qtype = t.code) (h₀ : t₀ ≤ t₁) (h₁ : t₁ - t₀ < 2 ^ 31)
    (hf : Filled question (dotted labels)
      (a.address, ((t₀ + a.ttl - t₁) % 2 ^ 32).toNat) a') :
    recordOf a' = aged labels question.qclass (t₁ - t₀) r := by
  have hsize : addrSize t.code = t.width := by
    cases t <;> rfl
  obtain ⟨rest, hrest⟩ := hc.decoded.address.front
  have haddress : a.address.addr.toList.take t.width = r.rdata := by
    rw [hrest, ← hc.rdata_length, List.take_left]
  rw [recordOf, aged, hostLabels_eq hne hvalid hf.name, hf.type, hf.class_, hf.ttl, hf.address, hq,
    hsize, haddress, hc.decoded.ttl, hc.type, ttlField_remaining hc.ttl_lt h₀ h₁]

/-- So the reply consists of the records of the first reply. -/
theorem map_recordOf_filled {answers filled : List Answer} (hne : labels ≠ [])
    (hvalid : ∀ label ∈ labels, ValidLabel label) (hc : List.Forall₂ (Carries t) answers records)
    (hq : question.qtype = t.code) (h₀ : t₀ ≤ t₁) (h₁ : t₁ - t₀ < 2 ^ 31)
    (hf : List.Forall₂ (Filled question (dotted labels))
      (remaining t₁ (cacheData (dotted labels) t₀ answers)) filled) :
    filled.map recordOf = records.map (aged labels question.qclass (t₁ - t₀)) := by
  induction hc generalizing filled with
  | nil =>
      cases hf
      rfl
  | cons hcarries _ ih =>
      cases hf with
      | cons hfilled hrest =>
          rw [List.map_cons, List.map_cons, ih hrest,
            recordOf_filled hne hvalid hcarries hq h₀ h₁ hfilled]

theorem filled_of_mem {label : Label} {found : List (IP × ℕ)} {filled : List Answer}
    (h : List.Forall₂ (Filled question label) found filled) {a : Answer} (ha : a ∈ filled) :
    ∃ p, Filled question label p a := by
  induction h with
  | nil => cases ha
  | cons hfirst _ ih =>
      rcases List.mem_cons.mp ha with rfl | ha
      · exact ⟨_, hfirst⟩
      · exact ih ha

theorem Filled.writable {a : Answer} {p : IP × ℕ} (h : Filled question (dotted labels) p a)
    (hne : labels ≠ []) (hvalid : ∀ label ∈ labels, ValidLabel label)
    (hlen : (wireName labels).length ≤ 255) (hq : question.qtype = t.code) : Writable a := by
  have hw := wireName_length hne
  refine ⟨⟨labels, hne, hvalid, ?_, h.name⟩, ?_⟩
  · rw [maxDnsSize]
    omega
  · rw [h.type, hq]
    cases t with
    | A => exact .inl rfl
    | AAAA => exact .inr rfl

theorem Filled.length_recordBytes {a : Answer} {p : IP × ℕ}
    (h : Filled question (dotted labels) p a) (hne : labels ≠ [])
    (hvalid : ∀ label ∈ labels, ValidLabel label) (hq : question.qtype = t.code) :
    (recordBytes a).length = (wireName labels).length + 10 + t.width := by
  rw [Message.length_recordBytes, hostLabels_eq hne hvalid h.name, h.type, hq]
  cases t <;> rfl

theorem length_flatMap_recordBytes {filled : List Answer} {m : ℕ}
    (h : ∀ a ∈ filled, (recordBytes a).length = m) :
    (filled.flatMap recordBytes).length = filled.length * m := by
  rw [List.length_flatMap, List.map_congr_left h, List.map_const', List.sum_replicate_nat]

/-- A request whose answers are found is answered with the reply that is built over it. -/
theorem answerQuestion_found {now time : ℤ} {n : ℕ} {label : Label} {found : List (IP × ℕ)}
    {ans : List Answer} {cacheset : CacheSet} {buffer reply : Bytes} {size : ℤ}
    (hread : readDnsQuestions w.question w.recvBuffer = .ok (question, n))
    (hlabel : cString question.label = .ok label)
    (hblack : getStaticCache w.cacheset.blacklist label = .ok none)
    (hlook : lookUp { w with question := question } label now time =
      .ok ({ w with question := question, cacheset := cacheset }, found))
    (hne : found ≠ []) (hfill : fillAnswers question label found 0 w.ans = .ok ans)
    (hwrite : writeDnsResponseByQuery w.recvBuffer (ans.take found.length) = .ok (buffer, size))
    (hreply : readBytes buffer 0 size.toNat = .ok reply) :
    ∃ w', answerQuestion w now time = .ok (w', .answered reply) := by
  simp only [answerQuestion, hread, hlabel, hblack, hlook, hne, if_false, hfill, hwrite, hreply,
    bind, Except.bind]
  exact ⟨_, rfl⟩

/-- The cached addresses are found again while the first one is valid. -/
theorem lookUp_held {answers : List Answer} (ht : w.question.qtype = t.code)
    (hlocal : getStaticCache (w.cacheset.compound t).localStore (dotted labels) = .ok none)
    (hcarries : List.Forall₂ (Carries t) answers records) (hne : records ≠ [])
    (hvalid : ∀ r ∈ records.head?, t₁ ≤ t₀ + r.ttl)
    (hheld : Lru.Held (w.cacheset.temp t) (dotted labels)
      (cacheData (dotted labels) t₀ answers)) :
    ∃ cacheset, lookUp w (dotted labels) t₁ t₁ = .ok ({ w with cacheset := cacheset },
      remaining t₁ (cacheData (dotted labels) t₀ answers)) := by
  cases hcarries with
  | nil => exact absurd rfl hne
  | @cons a r answers rs hfirst hrest =>
      have hfresh : Lru.expired ⟨dotted labels, a.address, t₀ + a.ttl⟩ t₁ = false := by
        have hle := hvalid r rfl
        rw [← hfirst.decoded.ttl] at hle
        simp only [Lru.expired, decide_eq_false (not_lt.mpr hle), Bool.false_and]
      obtain ⟨temp, hget⟩ := Lru.Held.hit hheld hfresh
      exact lookUp_hit ht hlocal hget

/-- The reply over a request for addresses has its id and its question and consists of the
answers. -/
theorem reply_of_writable {buffer : Bytes} {filled : List Answer}
    (hvalid : ∀ label ∈ labels, ValidLabel label) (hid : HasAt buffer 0 (u16Bytes id))
    (hqd : HasAt buffer 4 (u16Bytes 1)) (hns : HasAt buffer 8 (u16Bytes 0))
    (had : HasAt buffer 10 (u16Bytes 0))
    (hquestion : HasAt buffer 12 (questionBytes labels t.code qclass))
    (hfilled : ∀ a ∈ filled, Writable a) (hlen : filled.length < 65536)
    (hroom : 12 + (wireName labels).length + 4 + (filled.flatMap recordBytes).length ≤
      buffer.length) :
    ∃ buffer' size reply, writeDnsResponseByQuery buffer filled = .ok (buffer', size) ∧
      readBytes buffer' 0 size.toNat = .ok reply ∧ HasAt reply 0 (u16Bytes id) ∧
      Decodes reply [⟨[labels], t.code, qclass⟩] (filled.map recordOf) [] [] := by
  rw [questionBytes, List.append_assoc, hasAt_append] at hquestion
  have hname := nameAt_wireName hvalid hquestion.1
  obtain ⟨buffer', hwrite, hreply⟩ := writeDnsResponseByQuery_of_le hname hfilled hroom
  refine ⟨buffer', _, replyMessage (12 + (wireName labels).length + 4) filled buffer', hwrite, ?_,
    ?_, hreply.decodes hname hroom hquestion.2 hqd hns had hfilled hlen⟩
  · rw [Int.toNat_natCast, ← hreply.length_message hroom]
    exact readBytes_of_hasAt (hasAt_zero_take _ _)
  · rw [replyMessage, hasAt_take (by rwa [hreply.length_eq]) (by rw [u16Bytes_length]; omega)]
    apply hid.congr
    intro k _ hk
    rw [u16Bytes_length] at hk
    exact hreply.kept k (.inl (by omega))

/-- The first address is still valid, so not even its whole time to live has passed. -/
theorem LaterRequest.elapsed_lt (h : LaterRequest t w request labels records t₀ t₁ id qclass)
    {answers : List Answer} (hcarries : List.Forall₂ (Carries t) answers (addressRecords records))
    (hne : addressRecords records ≠ []) : t₁ - t₀ < 2 ^ 31 := by
  obtain ⟨r, rs, hrs⟩ := List.exists_cons_of_ne_nil hne
  have hle := h.valid r (by rw [hrs]; rfl)
  rw [hrs] at hcarries
  cases hcarries with
  | cons hfirst _ =>
      have := hfirst.ttl_lt
      omega

/-- The cached addresses are put into the array of answers and written over the request. -/
theorem LaterRequest.encoded (h : LaterRequest t w request labels records t₀ t₁ id qclass)
    (hs : w.Sized) (hne : labels ≠ []) (hvalid : ∀ label ∈ labels, ValidLabel label)
    (hname : (wireName labels).length ≤ 255)
    (hcount : 1 ≤ (addressRecords records).length ∧
      (addressRecords records).length ≤ tmpAnsData)
    {answers : List Answer} {found : List (IP × ℕ)}
    (hcarries : List.Forall₂ (Carries t) answers (addressRecords records))
    (hfound : found = remaining t₁ (cacheData (dotted labels) t₀ answers)) (label : Bytes) :
    ∃ ans buffer size reply,
      fillAnswers ⟨label, t.code, qclass⟩ (dotted labels) found 0 (receive w request).ans =
        .ok ans ∧
      writeDnsResponseByQuery (receive w request).recvBuffer (ans.take found.length) =
        .ok (buffer, size) ∧
      readBytes buffer 0 size.toNat = .ok reply ∧ HasAt reply 0 (u16Bytes id) ∧
      Decodes reply [⟨[labels], t.code, qclass⟩]
        ((addressRecords records).map (aged labels qclass (t₁ - t₀))) [] [] := by
  have hr := receive_sized hs request
  have hw := wireName_length hne
  have hlength : found.length = (addressRecords records).length := by
    rw [hfound, remaining, cacheData, List.length_map, List.length_map, hcarries.length_eq]
  have hten : (addressRecords records).length ≤ 10 := hcount.2
  have htwenty := hr.ans.length
  obtain ⟨ans, hfill, -, hfilled⟩ := fillAnswers_filled ⟨label, t.code, qclass⟩
    (zero_notMem_dotted hvalid) (show (dotted labels).length < maxNameLength by
      rw [maxNameLength]
      omega) hr.ans (show 0 + found.length ≤ (receive w request).ans.length by omega)
  rw [List.drop_zero] at hfilled
  have hwritable : ∀ a ∈ ans.take found.length, Writable a := by
    intro a ha
    obtain ⟨p, hp⟩ := filled_of_mem hfilled ha
    exact hp.writable hne hvalid hname rfl
  have hrecord : ∀ a ∈ ans.take found.length,
      (recordBytes a).length = (wireName labels).length + 10 + t.width := by
    intro a ha
    obtain ⟨p, hp⟩ := filled_of_mem hfilled ha
    exact hp.length_recordBytes hne hvalid rfl
  have hroom : 12 + (wireName labels).length + 4 +
      ((ans.take found.length).flatMap recordBytes).length ≤
        (receive w request).recvBuffer.length := by
    rw [length_flatMap_recordBytes hrecord, ← hfilled.length_eq, hlength, hr.recvBuffer]
    exact h.fits
  -- the request stands in front of the buffer
  have hid : HasAt (receive w request).recvBuffer 0 (u16Bytes id) := h.id.append_right _
  obtain ⟨buffer, size, reply, hwrite, hreply, hid', hdecodes⟩ := reply_of_writable hvalid hid
    (h.qdcount.append_right _) (h.nscount.append_right _) (h.adcount.append_right _)
    (h.question.append_right _) hwritable (by rw [← hfilled.length_eq]; omega) hroom
  have hrecords : addressRecords records ≠ [] := List.ne_nil_of_length_pos hcount.1
  have hsame : (ans.take found.length).map recordOf =
      (addressRecords records).map (aged labels qclass (t₁ - t₀)) := by
    rw [hfound] at hfilled ⊢
    exact map_recordOf_filled hne hvalid hcarries rfl h.after (h.elapsed_lt hcarries hrecords)
      hfilled
  rw [hsame] at hdecodes
  exact ⟨ans, buffer, size, reply, hfill, hwrite, hreply, hid', hdecodes⟩

/-- The later request is answered from the cache. -/
theorem LaterRequest.answered (h : LaterRequest t w request labels records t₀ t₁ id qclass)
    (hs : w.Sized) (hne : labels ≠ []) (hvalid : ∀ label ∈ labels, ValidLabel label)
    (hname : (wireName labels).length ≤ 255)
    (hcount : 1 ≤ (addressRecords records).length ∧
      (addressRecords records).length ≤ tmpAnsData)
    {answers : List Answer} (hcarries : List.Forall₂ (Carries t) answers (addressRecords records))
    (hheld : Lru.Held (w.cacheset.temp t) (dotted labels)
      (cacheData (dotted labels) t₀ answers)) (client : SockaddrIn) (clock : ℤ) :
    RepliesWith (step w (.request client request clock t₁ t₁)) client id
      [⟨[labels], t.code, qclass⟩]
      ((addressRecords records).map (aged labels qclass (t₁ - t₀))) := by
  have hr := receive_sized hs request
  have hw := wireName_length hne
  have hcode : t.code < 65536 := by
    cases t <;> decide
  have hlabel_lt : (dotted labels).length < (receive w request).question.label.length := by
    rw [hr.label, maxNameLength]
    omega
  obtain ⟨label, hread, -, hlabel⟩ := readDnsQuestions_wireName hne hvalid hlabel_lt (by decide)
    hcode h.qclass_lt (h.qdcount.append_right _) (h.question.append_right _)
  have hrecords : addressRecords records ≠ [] := List.ne_nil_of_length_pos hcount.1
  obtain ⟨cacheset, hlook⟩ := lookUp_held
    (w := { receive w request with question := ⟨label, t.code, qclass⟩ }) rfl h.not_local hcarries
    hrecords h.valid hheld
  obtain ⟨ans, buffer, size, reply, hfill, hwrite, hreply, hid, hdecodes⟩ :=
    h.encoded hs hne hvalid hname hcount hcarries rfl label
  have hsome : remaining t₁ (cacheData (dotted labels) t₀ answers) ≠ [] := by
    apply List.ne_nil_of_length_pos
    rw [remaining, cacheData, List.length_map, List.length_map, hcarries.length_eq]
    exact hcount.1
  obtain ⟨w', hanswer⟩ := answerQuestion_found hread hlabel h.not_black hlook hsome hfill hwrite
    hreply
  have hlen : 4 ≤ (receive w request).recvBuffer.length := by
    rw [hr.recvBuffer]
    omega
  obtain ⟨header, hh, hflags⟩ := readDnsHeader_flags hlen
  have hquery := hflags.mpr (h.flags.append_right _)
  refine ⟨reply, ?_, hid, hdecodes⟩
  rw [step, handleRequest_of_query hh hquery, serveQuestion, hanswer]
  rfl

end Request

section Runs

/-- A name without dots and NULs in its labels: once its addresses have been cached into a
bucket whose nodes are all of records in use, and while nothing is stored under the name,
evicted, removed or rejected, the name is answered with these addresses. -/
theorem cache_transparent (t : AddressType) (v : World) (hv : v.Initial) (before : List Event)
    (w : World) (hw : (mainLoop v before).result = .ok w) (sender : SockaddrIn) (reply : Bytes)
    (t₀ : ℤ) (labels : List Bytes) (records : List ResourceRecord)
    (hreply : CacheableReply t w reply labels records) (hne : labels ≠ [])
    (hvalid : ∀ label ∈ labels, dot ∉ label ∧ 0 ∉ label)
    (hnodes : ∀ y ∈ (w.cacheset.temp t).labelHash.chain
      ((w.cacheset.temp t).labelHash.pos (dotted labels)),
      ∃ s, y = some s ∧ (w.cacheset.temp t).records.valid s = true) :
    ∃ w₁, (step w (.relay sender reply t₀ t₀)).result = .ok w₁ ∧
      ∀ (between : List Event) (w₂ : World),
        Output.along step (fun w e => spared t (dotted labels) w e && acceptedIn t w e) w₁
          between = true →
        (mainLoop w₁ between).result = .ok w₂ →
      ∀ (client : SockaddrIn) (request : Bytes) (clock t₁ : ℤ) (id qclass : ℕ),
        LaterRequest t w₂ request labels records t₀ t₁ id qclass →
        RepliesWith (step w₂ (.request client request clock t₁ t₁)) client id
          [⟨[labels], t.code, qclass⟩]
          ((addressRecords records).map (aged labels qclass (t₁ - t₀))) := by
  obtain ⟨hs, hinv⟩ := mainLoop_inv hv hw
  obtain ⟨l, hl⟩ := hinv t
  have hlabels : ∀ label ∈ labels, ValidLabel label := by
    intro label hlabel
    obtain ⟨h₁, h₆₃⟩ := hreply.label_length label hlabel
    exact ⟨h₁, h₆₃, (hvalid label hlabel).1, (hvalid label hlabel).2⟩
  obtain ⟨w₁, answers, hstep, hcarries, hheld⟩ :=
    hreply.cached hs hl hne hlabels hnodes sender t₀
  refine ⟨w₁, hstep, ?_⟩
  intro between w₂ hc hbetween client request clock t₁ id qclass hrequest
  obtain ⟨hs₂, hheld₂⟩ := mainLoop_held ((step_sized hs _).result w₁ hstep) hheld hc hbetween
  exact hrequest.answered hs₂ hne hlabels hreply.name_length hreply.count hcarries hheld₂ client
    clock

/-- A reply under the id 0 with two addresses of `a`. -/
private def twoAddresses : Bytes :=
  [0, 0, 0x81, 0x80, 0, 1, 0, 2, 0, 0, 0, 0, 1, 97, 0, 0, 1, 0, 1,
    0xc0, 12, 0, 1, 0, 1, 0, 0, 0, 60, 0, 4, 1, 2, 3, 4,
    0xc0, 12, 0, 1, 0, 1, 0, 0, 0, 30, 0, 4, 5, 6, 7, 8]

private def twoRecords : List ResourceRecord :=
  [⟨[[], [[97]]], 1, 1, 60, [1, 2, 3, 4]⟩, ⟨[[], [[97]]], 1, 1, 30, [5, 6, 7, 8]⟩]

private theorem twoAddresses_response : Response (received twoAddresses) 1 twoRecords := by
  have hname : NameAt (received twoAddresses) 12 [[[97]]] 15 :=
    .label (by decide) (by decide) (by decide) (.zero (by decide))
  refine ⟨by decide, by decide, by decide, by decide, by decide, 19, 51, ?_, ?_⟩
  · exact ⟨_, 15, hname, by decide, rfl⟩
  · refine ⟨35, ⟨by decide, by decide, by decide, by decide, by decide, by decide, by decide,
      by decide, by decide⟩, ⟨21, ?_, by decide, rfl⟩, 51, ⟨by decide, by decide, by decide,
      by decide, by decide, by decide, by decide, by decide, by decide⟩, ⟨37, ?_, by decide, rfl⟩,
      rfl⟩
    · exact .pointer (by decide) (by decide) hname
    · exact .pointer (by decide) (by decide) hname

private def firstQuery : Event :=
  .request ⟨2, 1, 1⟩ (questionMessage 7 flagQuery [[97]] 1) 0 100 100

private def otherQuery : Event :=
  .request ⟨2, 1, 1⟩ (questionMessage 8 flagQuery [[98]] 1) 0 110 110

/-- The part of `CacheableReply` that is about the state, for a query of type A. -/
private def readyFor (reply : Bytes) (w : World) : Bool :=
  (replyTo w reply).map (fun p => p.2.type) = some 1 ∧
    Lru.isFull (w.cacheset.temp .A) = false ∧
    (w.cacheset.temp .A).usedSize + 1024 ≤ (w.cacheset.temp .A).maxSize ∧
    ∀ s ∈ Lru.visited (w.cacheset.temp .A), ((w.cacheset.temp .A).records.data s).isLive = true

private theorem readyFor_cacheable {reply : Bytes} {labels : List Bytes}
    {records : List ResourceRecord} {w : World} (h : readyFor reply w = true)
    (hresponse : ∃ questions, Response (received reply) questions records)
    (hlabels : ∀ label ∈ labels, 1 ≤ label.length ∧ label.length ≤ 63)
    (hlen : (wireName labels).length ≤ 255) (hname : HasAt (received reply) 12 (wireName labels))
    (hcount : 1 ≤ (addressRecords records).length ∧
      (addressRecords records).length ≤ tmpAnsData)
    (htypes : ∀ r ∈ addressRecords records, r.type = rrtypeA)
    (httls : ∀ r ∈ addressRecords records, r.ttl < 2 ^ 31) :
    CacheableReply .A w reply labels records := by
  obtain ⟨hto, hfull, hroom, hlive⟩ := of_decide_eq_true h
  obtain ⟨⟨k, info⟩, hreply, htype⟩ := Option.map_eq_some_iff.mp hto
  refine ⟨⟨k, info, hreply, ?_⟩, hresponse, hlabels, hlen, hname, hcount, htypes, httls, hfull,
    hroom, hlive⟩
  rw [show info.type = 1 from htype]
  rfl

/-- Forty seconds after the reply, and after a query for another name, the first address has
twenty seconds left and the second none. -/
theorem cache_transparent_sample :
    ∃ w w₁ w₂, (mainLoop (booted 0) [firstQuery]).result = .ok w ∧
      (step w (.relay ⟨2, 53, 1⟩ twoAddresses 100 100)).result = .ok w₁ ∧
      (mainLoop w₁ [otherQuery]).result = .ok w₂ ∧
      RepliesWith (step w₂ (.request ⟨2, 1, 1⟩ (questionMessage 9 flagQuery [[97]] 1) 0 140 140))
        ⟨2, 1, 1⟩ 9 [⟨[[[97]]], 1, 1⟩]
        [⟨[[[97]]], 1, 1, 20, [1, 2, 3, 4]⟩, ⟨[[[97]]], 1, 1, 0, [5, 6, 7, 8]⟩] := by
  have hfacts : (mainLoop (booted 0) [firstQuery]).result.map (fun w =>
      readyFor twoAddresses w && decide ((w.cacheset.temp .A).labelHash.chain
        ((w.cacheset.temp .A).labelHash.pos (dotted [[97]])) = [])) = .ok true := by
    decide +kernel
  obtain ⟨w, hw, hboth⟩ := map_eq_ok.mp hfacts
  obtain ⟨hready, hempty⟩ := Bool.and_eq_true_iff.mp hboth
  have hnodes : ∀ y ∈ (w.cacheset.temp .A).labelHash.chain
      ((w.cacheset.temp .A).labelHash.pos (dotted [[97]])),
      ∃ s, y = some s ∧ (w.cacheset.temp .A).records.valid s = true := by
    rw [of_decide_eq_true hempty]
    simp
  have hreply : CacheableReply .A w twoAddresses [[97]] twoRecords :=
    readyFor_cacheable hready ⟨1, twoAddresses_response⟩ (by decide) (by decide) (by decide)
      (by decide) (by decide) (by decide)
  obtain ⟨w₁, hstep, htransparent⟩ := cache_transparent .A (booted 0) (booted_initial 0)
    [firstQuery] w hw ⟨2, 53, 1⟩ twoAddresses 100 [[97]] twoRecords hreply (by decide) (by decide)
    hnodes
  have hrun₁ : (mainLoop (booted 0) ([firstQuery] ++
      [.relay ⟨2, 53, 1⟩ twoAddresses 100 100])).result = .ok w₁ := by
    rw [mainLoop_append hw, mainLoop_singleton, hstep]
  have hquiet : (mainLoop (booted 0) ([firstQuery] ++
      [.relay ⟨2, 53, 1⟩ twoAddresses 100 100])).result.map (fun w₁ =>
        spared .A [97] w₁ otherQuery && acceptedIn .A w₁ otherQuery) = .ok true := by
    decide +kernel
  have hbetween : (mainLoop (booted 0) ([firstQuery] ++
      [.relay ⟨2, 53, 1⟩ twoAddresses 100 100] ++ [otherQuery])).result.map (fun w₂ => decide
        (getStaticCache w₂.cacheset.blacklist [97] = .ok none ∧
          getStaticCache (w₂.cacheset.compound .A).localStore [97] = .ok none)) = .ok true := by
    decide +kernel
  rw [hrun₁] at hquiet
  rw [mainLoop_append hrun₁] at hbetween
  obtain ⟨w₂, hw₂, hstatic⟩ := map_eq_ok.mp hbetween
  obtain ⟨hblack, hlocal⟩ := of_decide_eq_true hstatic
  refine ⟨w, w₁, w₂, hw, hstep, hw₂, ?_⟩
  apply htransparent [otherQuery] w₂ (Output.along_cons.mpr ⟨Except.ok.inj hquiet, fun _ _ => rfl⟩)
    hw₂ ⟨2, 1, 1⟩ (questionMessage 9 flagQuery [[97]] 1) 0 140 9 1
  exact ⟨by decide, by decide, by decide, by decide, by decide, by decide, by decide, by decide,
    by decide, hblack, hlocal, by decide⟩

/-- A query of type A by the same client for a name with one label. -/
private def asks (id : ℕ) (label : Bytes) (time : ℤ) : Event :=
  .request ⟨2, 1, 1⟩ (questionMessage id flagQuery [label] 1) 0 time time

/-- A reply with one address for a name with one label. -/
private def oneAddress (id : UInt8) (label : Bytes) (ttl : UInt8) : Bytes :=
  [0, id, 0x81, 0x80, 0, 1, 0, 1, 0, 0, 0, 0, UInt8.ofNat label.length] ++ label ++
    [0, 0, 1, 0, 1, 0xc0, 12, 0, 1, 0, 1, 0, 0, 0, ttl, 0, 4, 1, 2, 3, 4]

private def oneRecord (label : Bytes) : List ResourceRecord :=
  [⟨[[], [label]], 1, 1, 60, [1, 2, 3, 4]⟩]

/-- A cached reply with one address, rounds that spare its name, and a request that is not
answered with this address. -/
private def CacheFails (before : List Event) (reply : Bytes) (between : List Event)
    (label : Bytes) (t₁ : ℤ) : Prop :=
  ∃ w w₁ w₂, (mainLoop (booted 0) before).result = .ok w ∧
    CacheableReply .A w reply [label] (oneRecord label) ∧
    (step w (.relay ⟨2, 53, 1⟩ reply 100 100)).result = .ok w₁ ∧
    Output.along step (spared .A (dotted [label])) w₁ between = true ∧
    (mainLoop w₁ between).result = .ok w₂ ∧
    LaterRequest .A w₂ (questionMessage 9 flagQuery [label] 1) [label] (oneRecord label) 100 t₁
      9 1 ∧
    ¬ RepliesWith (step w₂ (asks 9 label t₁)) ⟨2, 1, 1⟩ 9 [⟨[[label]], 1, 1⟩]
      ((addressRecords (oneRecord label)).map (aged [label] 1 (t₁ - 100)))

/-- What has to be evaluated for it: the states before the reply and before the rounds, and
what is sent at the end. -/
private theorem cacheFails_of {before between : List Event} {reply label : Bytes} {t₁ : ℤ}
    (answers : List Datagram)
    (hready : (mainLoop (booted 0) before).result.map (readyFor reply) = .ok true)
    (hspared : (mainLoop (booted 0) (before ++ [.relay ⟨2, 53, 1⟩ reply 100 100])).result.map
      (fun w₁ => Output.along step (spared .A (dotted [label])) w₁ between) = .ok true)
    (hlast : (mainLoop (booted 0) (before ++ [.relay ⟨2, 53, 1⟩ reply 100 100] ++
      between)).result.map (fun w₂ => decide
        (getStaticCache w₂.cacheset.blacklist (dotted [label]) = .ok none ∧
          getStaticCache (w₂.cacheset.compound .A).localStore (dotted [label]) = .ok none ∧
          (step w₂ (asks 9 label t₁)).sent = answers)) = .ok true)
    (hreply : ∀ w, readyFor reply w = true →
      CacheableReply .A w reply [label] (oneRecord label))
    (hrequest : ∀ w, getStaticCache w.cacheset.blacklist (dotted [label]) = .ok none →
      getStaticCache (w.cacheset.compound .A).localStore (dotted [label]) = .ok none →
      LaterRequest .A w (questionMessage 9 flagQuery [label] 1) [label] (oneRecord label) 100 t₁
        9 1)
    (hanswers : ∀ bytes, answers = [⟨.server, ⟨2, 1, 1⟩, bytes⟩] →
      ¬ Decodes bytes [⟨[[label]], 1, 1⟩]
        ((addressRecords (oneRecord label)).map (aged [label] 1 (t₁ - 100))) [] []) :
    CacheFails before reply between label t₁ := by
  obtain ⟨w, hw, hfacts⟩ := map_eq_ok.mp hready
  obtain ⟨w₁, hw₁, hquiet⟩ := map_eq_ok.mp hspared
  rw [mainLoop_append hw₁] at hlast
  rw [mainLoop_append hw, mainLoop_singleton] at hw₁
  obtain ⟨w₂, hw₂, hfound⟩ := map_eq_ok.mp hlast
  obtain ⟨hblack, hlocal, hsent⟩ := of_decide_eq_true hfound
  refine ⟨w, w₁, w₂, hw, hreply w hfacts, hw₁, hquiet, hw₂, hrequest w₂ hblack hlocal, ?_⟩
  rintro ⟨bytes, hbytes, -, hdecodes⟩
  exact hanswers bytes (hsent.symm.trans hbytes) hdecodes

/-- The single label `a.b`. -/
private def dottedLabel : Bytes := [97, 46, 98]

private theorem dotted_response :
    Response (received (oneAddress 0 dottedLabel 60)) 1 (oneRecord dottedLabel) := by
  have hname : NameAt (received (oneAddress 0 dottedLabel 60)) 12 [[dottedLabel]] 17 :=
    .label (by decide) (by decide) (by decide) (.zero (by decide))
  refine ⟨by decide, by decide, by decide, by decide, by decide, 21, 37, ?_, ?_⟩
  · exact ⟨_, 17, hname, by decide, rfl⟩
  · refine ⟨37, ⟨by decide, by decide, by decide, by decide, by decide, by decide, by decide,
      by decide, by decide⟩, ⟨23, ?_, by decide, rfl⟩, rfl⟩
    exact .pointer (by decide) (by decide) hname

/-- What the second client gets: the owner name has the labels `a` and `b`. -/
private def dottedAnswer : Bytes :=
  [0, 9, 0x80, 0, 0, 1, 0, 1, 0, 0, 0, 0, 3, 97, 46, 98, 0, 0, 1, 0, 1,
    1, 97, 1, 98, 0, 0, 1, 0, 1, 0, 0, 0, 60, 0, 4, 1, 2, 3, 4]

private theorem dottedAnswer_not_decodes (r : ResourceRecord) (hr : r.segs = [[dottedLabel]]) :
    ¬ Decodes dottedAnswer [⟨[[dottedLabel]], 1, 1⟩] [r] [] [] := by
  intro h
  obtain ⟨p₁, p₂, p₃, ⟨j, ⟨k, hquestion, -, hj⟩, hp⟩, ⟨j', ⟨-, m, howner, -⟩, -⟩, -⟩ := h.sections
  have hname : NameAt dottedAnswer 12 [[dottedLabel]] 17 :=
    .label (by decide) (by decide) (by decide) (.zero (by decide))
  obtain rfl := hquestion.end_unique hname
  obtain rfl : p₁ = j := hp
  rw [hr, hj] at howner
  cases howner with
  | label _ _ hat _ => exact absurd hat (by decide)

/-- A label in the bucket of `a`. -/
private def neighbour : Bytes := [122, 114, 97]

/-- Two queries for the neighbour, of which the first is answered, and one for `a`. -/
private def neighbourFirst : List Event :=
  [asks 7 neighbour 100, asks 8 neighbour 100, asks 8 [97] 100,
    .relay ⟨2, 53, 1⟩ (oneAddress 0 neighbour 60) 100 100]

/-- The answer to the other query for the neighbour, with the ttl 0: a second passes before
the cache looks at it. -/
private def rejectedReply : Event := .relay ⟨2, 53, 1⟩ (oneAddress 1 neighbour 0) 110 111

private theorem short_response :
    Response (received (oneAddress 2 [97] 60)) 1 (oneRecord [97]) := by
  have hname : NameAt (received (oneAddress 2 [97] 60)) 12 [[[97]]] 15 :=
    .label (by decide) (by decide) (by decide) (.zero (by decide))
  refine ⟨by decide, by decide, by decide, by decide, by decide, 19, 35, ?_, ?_⟩
  · exact ⟨_, 15, hname, by decide, rfl⟩
  · refine ⟨35, ⟨by decide, by decide, by decide, by decide, by decide, by decide, by decide,
      by decide, by decide⟩, ⟨21, ?_, by decide, rfl⟩, rfl⟩
    exact .pointer (by decide) (by decide) hname

/-- A dot inside a label makes two labels of it in the answer. A rejected call releases the
data of a record in the bucket, and the lookup that passes this record reads it. -/
theorem cache_not_transparent :
    CacheFails [asks 7 dottedLabel 100] (oneAddress 0 dottedLabel 60) [] dottedLabel 100 ∧
    CacheFails neighbourFirst (oneAddress 2 [97] 60) [rejectedReply] [97] 120 := by
  constructor
  · apply cacheFails_of [⟨.server, ⟨2, 1, 1⟩, dottedAnswer⟩]
    · decide +kernel
    · decide +kernel
    · decide +kernel
    · intro w hready
      exact readyFor_cacheable hready ⟨1, dotted_response⟩ (by decide) (by decide) (by decide)
        (by decide) (by decide) (by decide)
    · intro w hblack hlocal
      exact ⟨by decide, by decide, by decide, by decide, by decide, by decide, by decide,
        by decide, by decide, hblack, hlocal, by decide⟩
    · intro bytes hbytes
      obtain rfl : dottedAnswer = bytes := by simpa using hbytes
      exact dottedAnswer_not_decodes _ rfl
  · apply cacheFails_of []
    · decide +kernel
    · decide +kernel
    · decide +kernel
    · intro w hready
      exact readyFor_cacheable hready ⟨1, short_response⟩ (by decide) (by decide) (by decide)
        (by decide) (by decide) (by decide)
    · intro w hblack hlocal
      exact ⟨by decide, by decide, by decide, by decide, by decide, by decide, by decide,
        by decide, by decide, hblack, hlocal, by decide⟩
    · intro bytes hbytes
      simp at hbytes

end Runs

end DnsRelay.Relay
