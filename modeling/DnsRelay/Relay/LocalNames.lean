import DnsRelay.LocalRecord.Loading
import DnsRelay.Relay.Ledger
import DnsRelay.Relay.Transparency

/-!
# The names of the file

The blacklist and the stores of local records are filled before the loop starts and are not
written to again. So the file that was loaded decides over its names for as long as the
program runs: a name with an address of zeros never goes upstream, and neither does a query
for the IPv4 addresses of a name that has some, which are all given to the client, in the
order of the file.
-/

namespace DnsRelay.Relay

open DnsRelay.Message DnsRelay.Adapter DnsRelay.Static DnsRelay.LocalRecord DnsRelay.Lib
open DnsRelay.Lib.Machine

section Stores

variable {w w' : World} {now time : ℤ}

/-- The stores that are filled before the loop are the same. -/
structure SameStores (cs cs' : CacheSet) : Prop where
  blacklist : cs'.blacklist = cs.blacklist
  localStore : ∀ t, (cs'.compound t).localStore = (cs.compound t).localStore

theorem SameStores.refl (cs : CacheSet) : SameStores cs cs := ⟨rfl, fun _ => rfl⟩

theorem SameStores.trans {cs cs₁ cs₂ : CacheSet} (h : SameStores cs cs₁)
    (h' : SameStores cs₁ cs₂) : SameStores cs cs₂ :=
  ⟨h'.blacklist.trans h.blacklist, fun t => (h'.localStore t).trans (h.localStore t)⟩

theorem sameStores_setTemp (cs : CacheSet) (t : AddressType) (temp : Lru.Cache) :
    SameStores cs (cs.setTemp t temp) := by
  cases t with
  | A => exact ⟨rfl, by rintro ⟨⟩ <;> rfl⟩
  | AAAA => exact ⟨rfl, by rintro ⟨⟩ <;> rfl⟩

/-- Stores and caches are all there is. -/
theorem SameStores.eq {cs cs' : CacheSet} (h : SameStores cs cs')
    (htemp : ∀ t, cs'.temp t = cs.temp t) : cs' = cs := by
  obtain ⟨black, ⟨temp₁, store₁⟩, ⟨temp₂, store₂⟩⟩ := cs
  obtain ⟨black', ⟨temp₁', store₁'⟩, ⟨temp₂', store₂'⟩⟩ := cs'
  have hblack : black' = black := h.blacklist
  have hstore₁ : store₁' = store₁ := h.localStore .A
  have hstore₂ : store₂' = store₂ := h.localStore .AAAA
  have htemp₁ : temp₁' = temp₁ := htemp .A
  have htemp₂ : temp₂' = temp₂ := htemp .AAAA
  rw [hblack, hstore₁, hstore₂, htemp₁, htemp₂]

theorem lookUpIn_localStore {c c' : CacheCompound} {label : Label} {found : List (IP × ℕ)}
    (h : lookUpIn c label now time = .ok (c', found)) : c'.localStore = c.localStore := by
  obtain ⟨record, -, h⟩ := bind_eq_ok.mp h
  cases record with
  | some record =>
      obtain ⟨ips, -, h⟩ := bind_eq_ok.mp h
      cases h
      rfl
  | none =>
      obtain ⟨⟨temp, data⟩, -, h⟩ := bind_eq_ok.mp h
      cases h
      rfl

theorem lookUp_stores {label : Label} {found : List (IP × ℕ)}
    (h : lookUp w label now time = .ok (w', found)) : SameStores w.cacheset w'.cacheset := by
  unfold lookUp at h
  split at h
  · obtain ⟨⟨compound, l⟩, hl, h⟩ := bind_eq_ok.mp h
    cases h
    exact ⟨rfl, by rintro ⟨⟩; exacts [lookUpIn_localStore hl, rfl]⟩
  · split at h
    · obtain ⟨⟨compound, l⟩, hl, h⟩ := bind_eq_ok.mp h
      cases h
      exact ⟨rfl, by rintro ⟨⟩; exacts [rfl, lookUpIn_localStore hl]⟩
    · cases h
      exact .refl _

theorem answerQuestion_stores {verdict : Verdict}
    (h : answerQuestion w now time = .ok (w', verdict)) :
    SameStores w.cacheset w'.cacheset := by
  obtain ⟨⟨question, n⟩, -, h⟩ := bind_eq_ok.mp h
  obtain ⟨label, -, h⟩ := bind_eq_ok.mp h
  obtain ⟨black, -, h⟩ := bind_eq_ok.mp h
  cases black with
  | some record =>
      obtain ⟨buffer₁, -, h⟩ := bind_eq_ok.mp h
      obtain ⟨buffer₂, -, h⟩ := bind_eq_ok.mp h
      cases h
      exact .refl _
  | none =>
      obtain ⟨⟨w₁, found⟩, hl, h⟩ := bind_eq_ok.mp h
      have hstores := lookUp_stores hl
      dsimp only at h
      split at h
      · cases h
        exact hstores
      · obtain ⟨ans, -, h⟩ := bind_eq_ok.mp h
        obtain ⟨⟨buffer, size⟩, -, h⟩ := bind_eq_ok.mp h
        obtain ⟨reply, -, h⟩ := bind_eq_ok.mp h
        cases h
        exact hstores

theorem serveQuestion_stores (w : World) (id : ℕ) (client : SockaddrIn) (rec : ℕ)
    (clock now time : ℤ) :
    Output.Ensures (fun _ => True) (serveQuestion w id client rec clock now time) fun w' =>
      SameStores w.cacheset w'.cacheset := by
  apply (Output.ensures_lift (P := fun p => SameStores w.cacheset p.1.cacheset)
    fun p hp => answerQuestion_stores hp).bind
  rintro ⟨w₁, verdict⟩ hw₁
  cases verdict with
  | blocked =>
      apply (Output.ensures_emit trivial).bind
      exact fun _ _ => Output.ensures_pure hw₁
  | answered reply =>
      apply (Output.ensures_emit trivial).bind
      exact fun _ _ => Output.ensures_pure hw₁
  | missing =>
      have hrel := relayQuery_relayed w₁ id client rec clock
      refine ⟨hrel.sent, fun w' hw' => ?_⟩
      rw [(hrel.result w' hw').cacheset]
      exact hw₁

theorem handleRelay_stores {sender : SockaddrIn} {data : Bytes}
    (h : (handleRelay w sender data now time).result = .ok w') :
    SameStores w.cacheset w'.cacheset := by
  cases hr : replyTo w data with
  | none =>
      rw [handleRelay_dropped hr h]
      exact .refl _
  | some p =>
      obtain ⟨k, info⟩ := p
      obtain ⟨w₁, hc⟩ := handleRelay_cached hr h
      obtain ⟨⟨header, hh, hk⟩, ho⟩ := replyTo_eq_some hr
      obtain ⟨w₂, hdelivered, hcacheset⟩ := handleRelay_of_outstanding hh hk ho hc
      rw [hdelivered.result] at h
      cases h
      rw [hcacheset]
      rcases cacheAnswers_cases hc with ⟨hsame, -⟩ | ⟨t, -, -, temp, -, -, -, -, -, hset⟩
      · rw [hsame]
        exact .refl _
      · rw [hset]
        exact sameStores_setTemp _ t temp

/-- No round of the loop writes to a store. -/
theorem step_stores (hs : w.Sized) (e : Event) :
    Output.Ensures (fun _ => True) (step w e) fun w' =>
      w'.Sized ∧ SameStores w.cacheset w'.cacheset := by
  refine ⟨fun _ _ => trivial, fun w' hw' => ⟨(step_sized hs e).result w' hw', ?_⟩⟩
  cases e with
  | sweep clock =>
      have hkeep : Output.Ensures (fun _ => True) (step w (.sweep clock)) fun w' =>
          w'.cacheset = w.cacheset := by
        apply (Output.ensures_true _).bind
        exact fun b _ => Output.ensures_pure rfl
      rw [hkeep.result w' hw']
      exact .refl _
  | relay sender data now time => exact handleRelay_stores hw'
  | request client data clock now time =>
      have hresult := handleRequest_asked hs client data clock now time
      have hserve := serveQuestion_stores (asked w data) (requestId w data) client
        (received data).length clock now time
      rw [asked_cacheset] at hserve
      exact hserve.result w' (hresult.symm.trans hw')

/-- Nor does a run. -/
theorem mainLoop_stores (hs : w.Sized) {events : List Event}
    (h : (mainLoop w events).result = .ok w') :
    w'.Sized ∧ SameStores w.cacheset w'.cacheset := by
  have hrun : Output.Ensures (fun _ => True) (mainLoop w events) fun w' =>
      w'.Sized ∧ SameStores w.cacheset w'.cacheset := by
    refine Output.run_ensures_of_mem (fun e _ w₁ hw₁ => ?_) ⟨hs, .refl _⟩
    refine ⟨fun _ _ => trivial, fun w₂ hw₂ => ?_⟩
    obtain ⟨hs₂, hstores₂⟩ := (step_stores hw₁.1 e).result w₂ hw₂
    exact ⟨hs₂, hw₁.2.trans hstores₂⟩
  exact hrun.result w' h

end Stores

section Forwarding

variable {w w' : World} {client : SockaddrIn} {id rec : ℕ} {clock now time : ℤ}
  {label : Label} {labels : List Bytes} {qtype : ℕ}

/-- A question on which the stores are silent. -/
structure LeftOpen (cs : CacheSet) (label : Label) (qtype : ℕ) : Prop where
  not_black : getStaticCache cs.blacklist label = .ok none
  not_local : ∀ t, qtype = AddressType.code t →
    getStaticCache (cs.compound t).localStore label = .ok none

/-- A local record has an address. -/
theorem lookUpIn_nil {c c' : CacheCompound} (h : lookUpIn c label now time = .ok (c', [])) :
    getStaticCache c.localStore label = .ok none := by
  obtain ⟨record, hrecord, h⟩ := bind_eq_ok.mp h
  cases record with
  | none => exact hrecord
  | some record =>
      obtain ⟨ips, hips, h⟩ := bind_eq_ok.mp h
      have hne : ips ≠ [] := by
        unfold addresses at hips
        split at hips
        · cases hips
          simp
        · cases hips
      simp only [pure, Except.pure, Except.ok.injEq, Prod.mk.injEq, List.map_eq_nil_iff] at h
      exact absurd h.2 hne

theorem lookUp_nil (h : lookUp w label now time = .ok (w', [])) (t : AddressType)
    (ht : w.question.qtype = t.code) :
    getStaticCache (w.cacheset.compound t).localStore label = .ok none := by
  unfold lookUp at h
  split at h
  next hA =>
    obtain ⟨⟨compound, l⟩, hl, h⟩ := bind_eq_ok.mp h
    cases h
    cases AddressType.code_inj (t := .A) (hA.symm.trans ht)
    exact lookUpIn_nil hl
  next hA =>
    split at h
    next hAAAA =>
      obtain ⟨⟨compound, l⟩, hl, h⟩ := bind_eq_ok.mp h
      cases h
      cases AddressType.code_inj (t := .AAAA) (hAAAA.symm.trans ht)
      exact lookUpIn_nil hl
    next hAAAA =>
      cases t with
      | A => exact absurd ht hA
      | AAAA => exact absurd ht hAAAA

/-- A question that nobody answers is one on which the stores are silent. -/
theorem answerQuestion_missing (h : answerQuestion w now time = .ok (w', .missing)) :
    ∃ label qtype, questionUsed w = .ok (label, qtype) ∧ LeftOpen w.cacheset label qtype := by
  obtain ⟨⟨question, n⟩, hread, h⟩ := bind_eq_ok.mp h
  obtain ⟨label, hlabel, h⟩ := bind_eq_ok.mp h
  obtain ⟨black, hblack, h⟩ := bind_eq_ok.mp h
  have hused : questionUsed w = .ok (label, question.qtype) := by
    simp only [questionUsed, hread, bind, Except.bind, hlabel]
    rfl
  cases black with
  | some record =>
      obtain ⟨buffer₁, -, h⟩ := bind_eq_ok.mp h
      obtain ⟨buffer₂, -, h⟩ := bind_eq_ok.mp h
      cases h
  | none =>
      obtain ⟨⟨w₁, found⟩, hl, h⟩ := bind_eq_ok.mp h
      dsimp only at h
      split at h
      next hnil =>
        subst hnil
        exact ⟨label, question.qtype, hused, hblack, fun t ht => lookUp_nil hl t ht⟩
      next =>
        obtain ⟨ans, -, h⟩ := bind_eq_ok.mp h
        obtain ⟨⟨buffer, size⟩, -, h⟩ := bind_eq_ok.mp h
        obtain ⟨reply, -, h⟩ := bind_eq_ok.mp h
        cases h

/-- What goes upstream is such a question, as it stands in the buffer. -/
theorem serveQuestion_query {d : Datagram}
    (hd : d ∈ (serveQuestion w id client rec clock now time).sent) (hq : d.socket = .query) :
    (∃ label qtype, questionUsed w = .ok (label, qtype) ∧ LeftOpen w.cacheset label qtype) ∧
      ∃ k, d.bytes = replaceId k (w.recvBuffer.take rec) := by
  constructor
  · rw [serveQuestion] at hd
    cases ha : answerQuestion w now time with
    | error e =>
        rw [ha] at hd
        cases hd
    | ok p =>
        obtain ⟨w₁, verdict⟩ := p
        rw [ha, Output.lift_ok_bind] at hd
        cases verdict with
        | blocked =>
            cases List.mem_singleton.mp hd
            cases hq
        | answered reply =>
            cases List.mem_singleton.mp hd
            cases hq
        | missing => exact answerQuestion_missing ha
  · rcases serveQuestion_cases w id client rec clock now time with hc | ⟨w', hc⟩
    · rw [(hc.sent d hd).1] at hq
      cases hq
    · rw [hc.sent, List.nil_append] at hd
      exact ⟨w.adapter.next, by rw [List.mem_singleton.mp hd]⟩

/-- Behind its id a message that goes upstream is what stands in the buffer. -/
theorem hasAt_of_replaceId {buffer s : Bytes} {i n k : ℕ} (hi : 2 ≤ i)
    (h : HasAt (replaceId k (buffer.take n)) i s) : HasAt buffer i s := by
  intro j hj
  have hcell := h j hj
  rw [List.getElem?_eq_getElem hj, replaceId, List.getElem?_take] at hcell
  rw [List.getElem?_eq_getElem hj]
  split at hcell
  next hlt =>
    have hu : (u16Bytes k).length = 2 := u16Bytes_length k
    rw [List.getElem?_append_right (by omega), List.getElem?_drop, List.getElem?_take] at hcell
    split at hcell
    next =>
      rwa [hu, show 2 + (i + j - 2) = i + j by omega] at hcell
    next => cases hcell
  next => cases hcell

/-- A question with an uncompressed name is read as it was sent. -/
theorem questionUsed_wireName (hs : w.Sized) (hne : labels ≠ [])
    (hvalid : ∀ label ∈ labels, ValidLabel label) (hlen : (dotted labels).length ≤ 253)
    (hname : HasAt w.recvBuffer 12 (wireName labels))
    (h : questionUsed w = .ok (label, qtype)) :
    label = dotted labels ∧ ∀ type < 65536,
      HasAt w.recvBuffer (12 + (wireName labels).length) (u16Bytes type) → qtype = type := by
  have hw := wireName_length hne
  have hbuffer := hs.recvBuffer
  obtain ⟨n, hn, hcount⟩ := exists_u16Bytes (show 4 + 2 ≤ w.recvBuffer.length by omega)
  obtain ⟨qtype', hqtype, ht⟩ :=
    exists_u16Bytes (show 12 + (wireName labels).length + 2 ≤ w.recvBuffer.length by omega)
  obtain ⟨qclass, hqclass, hc⟩ :=
    exists_u16Bytes (show 12 + (wireName labels).length + 2 + 2 ≤ w.recvBuffer.length by omega)
  have hat : HasAt w.recvBuffer 12 (questionBytes labels qtype' qclass) := by
    rw [questionBytes, List.append_assoc, hasAt_append, hasAt_append]
    exact ⟨hname, ht, hc⟩
  have hlt : (dotted labels).length < w.question.label.length := by
    rw [hs.label, maxNameLength]
    omega
  obtain ⟨text, hread, -, hlabel⟩ := readDnsQuestions_wireName hne hvalid hlt hn hqtype hqclass
    hcount hat
  simp only [questionUsed, hread, hlabel, bind, Except.bind, pure, Except.pure, Except.ok.injEq,
    Prod.mk.injEq] at h
  obtain ⟨rfl, rfl⟩ := h
  exact ⟨rfl, fun type htype hat' => u16Bytes_inj hqtype htype ht hat'⟩

/-- The datagram, if it goes upstream, asks nothing that the stores know. -/
def AsksUnknown (cs : CacheSet) (d : Datagram) : Prop :=
  d.socket = .query → ∀ labels, labels ≠ [] → (∀ label ∈ labels, ValidLabel label) →
    (dotted labels).length ≤ 253 → HasAt d.bytes 12 (wireName labels) →
      getStaticCache cs.blacklist (dotted labels) = .ok none ∧
      ∀ t, HasAt d.bytes (12 + (wireName labels).length) (u16Bytes (AddressType.code t)) →
        getStaticCache (cs.compound t).localStore (dotted labels) = .ok none

theorem AsksUnknown.of_socket {cs : CacheSet} {d : Datagram} (h : d.socket = .server) :
    AsksUnknown cs d := by
  intro hq
  rw [h] at hq
  cases hq

theorem AsksUnknown.stores {cs cs' : CacheSet} {d : Datagram} (h : AsksUnknown cs' d)
    (hstores : SameStores cs cs') : AsksUnknown cs d := by
  intro hq labels hne hvalid hlen hname
  obtain ⟨hblack, hlocal⟩ := h hq labels hne hvalid hlen hname
  rw [hstores.blacklist] at hblack
  refine ⟨hblack, fun t ht => ?_⟩
  rw [← hstores.localStore t]
  exact hlocal t ht

theorem handleRequest_asksUnknown {data : Bytes} (hs : w.Sized) {d : Datagram}
    (hd : d ∈ (handleRequest w client data clock now time).sent) : AsksUnknown w.cacheset d := by
  obtain ⟨front, hfront, heq⟩ := handleRequest_eq_asked hs client data clock now time
  rw [heq] at hd
  rcases List.mem_append.mp hd with hd | hd
  · exact .of_socket (hfront d hd).1
  · intro hq labels hne hvalid hlen hname
    obtain ⟨⟨label, qtype, hused, hopen⟩, k, hbytes⟩ := serveQuestion_query hd hq
    rw [asked_cacheset] at hopen
    rw [hbytes] at hname
    obtain ⟨hlabel, htype⟩ := questionUsed_wireName (asked_sized hs data) hne hvalid hlen
      (hasAt_of_replaceId (by omega) hname) hused
    rw [← hlabel]
    refine ⟨hopen.not_black, fun t ht => hopen.not_local t ?_⟩
    rw [hbytes] at ht
    exact htype _ (by cases t <;> decide) (hasAt_of_replaceId (by omega) ht)

theorem step_asksUnknown (hs : w.Sized) {e : Event} {d : Datagram} (hd : d ∈ (step w e).sent) :
    AsksUnknown w.cacheset d := by
  cases e with
  | sweep clock => exact .of_socket ((step_sweep w clock).sent d hd)
  | relay sender data now time =>
      have hd' : d ∈ (handleRelay w sender data now time).sent := hd
      rcases handleRelay_cases w sender data now time with hc | ⟨header, k, info, w₁, -, -, hc⟩
      · rw [hc.sent] at hd'
        cases hd'
      · rw [hc.sent] at hd'
        exact .of_socket (by rw [List.mem_singleton.mp hd'])
  | request client data clock now time => exact handleRequest_asksUnknown hs hd

/-- In no run does the loop ask the upstream server what the stores know. -/
theorem mainLoop_asksUnknown (hs : w.Sized) (events : List Event) {d : Datagram}
    (hd : d ∈ (mainLoop w events).sent) : AsksUnknown w.cacheset d := by
  have hrun : Output.Ensures (AsksUnknown w.cacheset) (mainLoop w events) fun w' =>
      w'.Sized ∧ SameStores w.cacheset w'.cacheset := by
    refine Output.run_ensures_of_mem (fun e _ w₁ hw₁ => ?_) ⟨hs, .refl _⟩
    refine ⟨fun d hd => (step_asksUnknown hw₁.1 hd).stores hw₁.2, fun w₂ hw₂ => ?_⟩
    obtain ⟨hs₂, hstores₂⟩ := (step_stores hw₁.1 e).result w₂ hw₂
    exact ⟨hs₂, hw₁.2.trans hstores₂⟩
  exact hrun.sent d hd

end Forwarding

section File

variable {net : InetPton} {rs : List (Bytes × Bytes)} {w : World}

/-- The store of IPv4 records and the blacklist hold what these records of a file give, and the
store of IPv6 records has none. -/
structure FromFile (net : InetPton) (rs : List (Bytes × Bytes)) (cs : CacheSet) : Prop where
  local4 : ∀ n, Exact cs.A.localStore n (given net .v4 rs n)
  local6 : ∀ n, getStaticCache cs.AAAA.localStore n = .ok none
  black : ∀ n, Exact cs.blacklist n (given net .black rs n)

theorem FromFile.stores {cs cs' : CacheSet} (h : FromFile net rs cs) (hs : SameStores cs cs') :
    FromFile net rs cs' where
  local4 := by
    rw [show cs'.A.localStore = cs.A.localStore from hs.localStore .A]
    exact h.local4
  local6 := by
    rw [show cs'.AAAA.localStore = cs.AAAA.localStore from hs.localStore .AAAA]
    exact h.local6
  black := by
    rw [hs.blacklist]
    exact h.black

/-- The pairs of words that loading a file, or none, goes over. -/
def scannedFrom (file : Option Bytes) : Exec (List (Bytes × Bytes)) := file.elim (.ok []) scanned

/-- Loading pairs of words fills stores that were empty. -/
theorem loadLocalRecord_scanned {cs : CacheSet} (net : InetPton) (IP : IP) (h : Zeroed cs)
    {file : Option Bytes} (hfile : scannedFrom file = .ok rs) :
    ∃ cs', loadLocalRecord net IP cs file = .ok (cs', file.isSome) ∧ FromFile net rs cs' := by
  cases file with
  | none =>
      cases hfile
      refine ⟨cs, rfl, fun n => ?_, fun n => ?_, fun n => ?_⟩
      · rw [h.A]
        exact exact_nil_of_not_init rfl n
      · rw [h.AAAA]
        exact getStaticCache_of_not_init rfl n
      · rw [h.blacklist]
        exact exact_nil_of_not_init rfl n
  | some bytes =>
      obtain ⟨cs', hload, -, hraw, hstores⟩ := loadLocalRecord_ok net IP h hfile
      exact ⟨cs', hload, fun n => (hstores n).1, getStaticCache_of_not_init hraw,
        fun n => (hstores n).2⟩

/-- Loading a file of records, or none. -/
theorem loadLocalRecord_fromFile {cs : CacheSet} (net : InetPton) (IP : IP) (h : Zeroed cs)
    (file : Option Bytes) (hfile : ∀ bytes ∈ file, TwoTokens bytes) :
    ∃ cs', loadLocalRecord net IP cs file = .ok (cs', file.isSome) ∧
      FromFile net (file.elim [] records) cs' := by
  apply loadLocalRecord_scanned net IP h
  cases file with
  | none => rfl
  | some bytes => exact scanned_records (hfile bytes rfl)

/-- Whatever the file is, a loading that returns has gone over pairs of words. -/
theorem fromFile_of_loaded {cs cs' : CacheSet} {IP : IP} (h : Zeroed cs) {file : Option Bytes}
    {done : Bool} (hload : loadLocalRecord net IP cs file = .ok (cs', done)) :
    ∃ rs, scannedFrom file = .ok rs ∧ FromFile net rs cs' := by
  obtain ⟨rs, hrs⟩ : ∃ rs, scannedFrom file = .ok rs := by
    cases file with
    | none => exact ⟨[], rfl⟩
    | some bytes =>
        obtain ⟨cs₁, hwith, -⟩ := bind_eq_ok.mp hload
        obtain ⟨counted, hcount, -⟩ := bind_eq_ok.mp hwith
        exact scanLoop_collects hcount []
  obtain ⟨cs₁, hload₁, hstores⟩ := loadLocalRecord_scanned net IP h hrs
  cases hload.symm.trans hload₁
  exact ⟨rs, hrs, hstores⟩

/-- Where the stores come from a file, no query ever goes upstream for a name to which the file
gives an address of zeros, and none for the IPv4 addresses of a name that has some in the
file. -/
theorem FromFile.spared (h : FromFile net rs w.cacheset) (hs : w.Sized) (events : List Event)
    {d : Datagram} (hd : d ∈ (mainLoop w events).sent) (hq : d.socket = .query)
    {labels : List Bytes} (hne : labels ≠ []) (hvalid : ∀ label ∈ labels, ValidLabel label)
    (hlen : (dotted labels).length ≤ 253) :
    (HasAt d.bytes 12 (wireName labels) → given net .black rs (dotted labels) = []) ∧
      (HasAt d.bytes 12 (wireName labels ++ u16Bytes rrtypeA) →
        given net .v4 rs (dotted labels) = []) := by
  have hunknown := mainLoop_asksUnknown hs events hd hq labels hne hvalid hlen
  obtain ⟨-, -, -, hlocal⟩ := h.local4 (dotted labels)
  obtain ⟨-, -, -, hblack⟩ := h.black (dotted labels)
  constructor
  · intro hname
    exact hblack.mp (hunknown hname).1
  · intro hquestion
    rw [hasAt_append] at hquestion
    exact hlocal.mp ((hunknown hquestion.1).2 .A hquestion.2)

/-- A query for the addresses of a name, with counts for one question and nothing else. -/
structure AddressRequest (t : AddressType) (request : Bytes) (labels : List Bytes)
    (id qclass : ℕ) : Prop where
  id : HasAt (received request) 0 (u16Bytes id)
  flags : HasAt (received request) 2 (u16Bytes flagQuery)
  qdcount : HasAt (received request) 4 (u16Bytes 1)
  nscount : HasAt (received request) 8 (u16Bytes 0)
  adcount : HasAt (received request) 10 (u16Bytes 0)
  question : HasAt (received request) 12 (questionBytes labels t.code qclass)
  qclass_lt : qclass < 65536

section Answer

variable {t : AddressType} {w : World} {request : Bytes} {labels : List Bytes} {id qclass : ℕ}
  {now time : ℤ} {ips : List IP}

/-- What the stores give for a name. -/
structure Listed (cs : CacheSet) (t : AddressType) (labels : List Bytes) (ips : List IP) :
    Prop where
  not_black : getStaticCache cs.blacklist (dotted labels) = .ok none
  listed : listed (cs.compound t).localStore (dotted labels) = .ok ips
  ne_nil : ips ≠ []

/-- A local record is found with all its addresses, and nothing changes. -/
theorem lookUp_listed (h : Listed w.cacheset t labels ips) (ht : w.question.qtype = t.code) :
    lookUp w (dotted labels) now time = .ok (w, ips.map (·, localTtl)) := by
  obtain ⟨record, hrecord, hips⟩ := bind_eq_ok.mp h.listed
  have hin : lookUpIn (w.cacheset.compound t) (dotted labels) now time =
      .ok (w.cacheset.compound t, ips.map (·, localTtl)) := by
    cases record with
    | none =>
        cases hips
        exact absurd rfl h.ne_nil
    | some record =>
        have haddr : addresses (w.cacheset.compound t).localStore record = .ok ips := hips
        simp only [lookUpIn, hrecord, haddr, bind, Except.bind]
        rfl
  cases t with
  | A =>
      have hA : w.question.qtype = rrtypeA := ht
      have hin' : lookUpIn w.cacheset.A (dotted labels) now time = _ := hin
      simp only [lookUp, hA, if_true, hin', bind, Except.bind]
      rfl
  | AAAA =>
      have hAAAA : w.question.qtype = rrtypeAAAA := ht
      have hA : ¬ rrtypeAAAA = rrtypeA := by decide
      have hin' : lookUpIn w.cacheset.AAAA (dotted labels) now time = _ := hin
      simp only [lookUp, hAAAA, hA, if_false, if_true, hin', bind, Except.bind]
      rfl

/-- No cache is asked then. -/
theorem lookUpCall_listed (hused : questionUsed w = .ok (dotted labels, t.code))
    (h : Listed w.cacheset t labels ips) (t' : AddressType) (now : ℤ) :
    lookUpCall t' w now = none := by
  simp only [lookUpCall, hused]
  rw [if_neg]
  rintro ⟨hcode, -, hnone⟩
  cases AddressType.code_inj hcode
  obtain ⟨record, hrecord, hips⟩ := bind_eq_ok.mp h.listed
  rw [hnone] at hrecord
  cases hrecord
  cases hips
  exact h.ne_nil rfl

/-- The record that is written for an address with a time to live. -/
def foundRecord (t : AddressType) (labels : List Bytes) (qclass : ℕ) (p : IP × ℕ) :
    ResourceRecord :=
  ⟨[labels], t.code, qclass, ttlField p.2, p.1.addr.toList.take t.width⟩

theorem recordOf_found {question : Question} {p : IP × ℕ} {a : Answer} (hne : labels ≠ [])
    (hvalid : ∀ label ∈ labels, ValidLabel label) (hq : question.qtype = t.code)
    (hf : Filled question (dotted labels) p a) :
    recordOf a = foundRecord t labels question.qclass p := by
  have hsize : addrSize t.code = t.width := by
    cases t <;> rfl
  rw [recordOf, foundRecord, hostLabels_eq hne hvalid hf.name, hf.type, hf.class_, hf.ttl,
    hf.address, hq, hsize]

theorem map_recordOf_found {question : Question} {found : List (IP × ℕ)} {filled : List Answer}
    (hne : labels ≠ []) (hvalid : ∀ label ∈ labels, ValidLabel label)
    (hq : question.qtype = t.code)
    (hf : List.Forall₂ (Filled question (dotted labels)) found filled) :
    filled.map recordOf = found.map (foundRecord t labels question.qclass) := by
  induction hf with
  | nil => rfl
  | cons hfirst _ ih =>
      rw [List.map_cons, List.map_cons, ih, recordOf_found hne hvalid hq hfirst]

/-- The addresses are put into the array of answers and written over the request. -/
theorem AddressRequest.encoded (h : AddressRequest t request labels id qclass) (hs : w.Sized)
    (hne : labels ≠ []) (hvalid : ∀ label ∈ labels, ValidLabel label)
    (hlen : (dotted labels).length ≤ 253) {found : List (IP × ℕ)} (hcount : found.length ≤ 20)
    (hfits : 12 + (wireName labels).length + 4 +
      found.length * ((wireName labels).length + 10 + t.width) ≤ 1024) (label : Bytes) :
    ∃ ans buffer size reply,
      fillAnswers ⟨label, t.code, qclass⟩ (dotted labels) found 0 (receive w request).ans =
        .ok ans ∧
      writeDnsResponseByQuery (receive w request).recvBuffer (ans.take found.length) =
        .ok (buffer, size) ∧
      readBytes buffer 0 size.toNat = .ok reply ∧ HasAt reply 0 (u16Bytes id) ∧
      Decodes reply [⟨[labels], t.code, qclass⟩] (found.map (foundRecord t labels qclass))
        [] [] := by
  have hr := receive_sized hs request
  have hw := wireName_length hne
  have htwenty := hr.ans.length
  have hroom : 0 + found.length ≤ (receive w request).ans.length := by omega
  obtain ⟨ans, hfill, -, hfilled⟩ := fillAnswers_filled ⟨label, t.code, qclass⟩
    (zero_notMem_dotted hvalid)
    (show (dotted labels).length < maxNameLength by rw [maxNameLength]; omega) hr.ans hroom
  rw [List.drop_zero] at hfilled
  have hwritable : ∀ a ∈ ans.take found.length, Writable a := by
    intro a ha
    obtain ⟨p, hp⟩ := filled_of_mem hfilled ha
    exact hp.writable hne hvalid (by omega) rfl
  have hrecord : ∀ a ∈ ans.take found.length,
      (recordBytes a).length = (wireName labels).length + 10 + t.width := by
    intro a ha
    obtain ⟨p, hp⟩ := filled_of_mem hfilled ha
    exact hp.length_recordBytes hne hvalid rfl
  have hroom : 12 + (wireName labels).length + 4 +
      ((ans.take found.length).flatMap recordBytes).length ≤
        (receive w request).recvBuffer.length := by
    rw [length_flatMap_recordBytes hrecord, ← hfilled.length_eq, hr.recvBuffer]
    exact hfits
  obtain ⟨buffer, size, reply, hwrite, hreply, hid', hdecodes⟩ := reply_of_writable hvalid
    (h.id.append_right _) (h.qdcount.append_right _) (h.nscount.append_right _)
    (h.adcount.append_right _) (h.question.append_right _) hwritable
    (by rw [← hfilled.length_eq]; omega) hroom
  have hsame := map_recordOf_found hne hvalid rfl hfilled
  rw [hsame] at hdecodes
  exact ⟨ans, buffer, size, reply, hfill, hwrite, hreply, hid', hdecodes⟩

/-- The record for an address of a local record. -/
def localRecord (t : AddressType) (labels : List Bytes) (qclass : ℕ) (ip : IP) : ResourceRecord :=
  ⟨[labels], t.code, qclass, localTtl, ip.addr.toList.take t.width⟩

theorem map_foundRecord_local (t : AddressType) (labels : List Bytes) (qclass : ℕ) (ips : List IP) :
    (ips.map (·, localTtl)).map (foundRecord t labels qclass) =
      ips.map (localRecord t labels qclass) := by
  rw [List.map_map]
  rfl

/-- A request for a name with a local record is answered with it, and neither the caches nor the
table see it. -/
theorem AddressRequest.answered (h : AddressRequest t request labels id qclass) (hs : w.Sized)
    (hne : labels ≠ []) (hvalid : ∀ label ∈ labels, ValidLabel label)
    (hlen : (dotted labels).length ≤ 253) (hlisted : Listed w.cacheset t labels ips)
    (hcount : ips.length ≤ 20)
    (hfits : 12 + (wireName labels).length + 4 +
      ips.length * ((wireName labels).length + 10 + t.width) ≤ 1024)
    (client : SockaddrIn) (clock now time : ℤ) :
    RepliesWith (step w (.request client request clock now time)) client id
        [⟨[labels], t.code, qclass⟩] (ips.map (localRecord t labels qclass)) ∧
      ∃ w', (step w (.request client request clock now time)).result = .ok w' ∧
        w'.cacheset = w.cacheset ∧ w'.adapter = w.adapter := by
  have hr := receive_sized hs request
  have hcode : t.code < 65536 := by
    cases t <;> decide
  have hlabel_lt : (dotted labels).length < (receive w request).question.label.length := by
    rw [hr.label, maxNameLength]
    omega
  obtain ⟨label, hread, -, hlabel⟩ := readDnsQuestions_wireName hne hvalid hlabel_lt (by decide)
    hcode h.qclass_lt (h.qdcount.append_right _) (h.question.append_right _)
  have hlength : (ips.map (·, localTtl)).length = ips.length := List.length_map _
  obtain ⟨ans, buffer, size, reply, hfill, hwrite, hreply, hid, hdecodes⟩ :=
    h.encoded hs hne hvalid hlen (hlength.trans_le hcount) (by rwa [hlength]) label
  rw [map_foundRecord_local] at hdecodes
  have hlook : lookUp { receive w request with question := ⟨label, t.code, qclass⟩ }
      (dotted labels) now time = .ok ({ receive w request with question :=
        ⟨label, t.code, qclass⟩ }, ips.map (·, localTtl)) :=
    lookUp_listed hlisted rfl
  have hsome : ips.map (·, localTtl) ≠ [] := by
    rw [ne_eq, List.map_eq_nil_iff]
    exact hlisted.ne_nil
  obtain ⟨w', hanswer⟩ := answerQuestion_found hread hlabel hlisted.not_black hlook hsome hfill
    hwrite hreply
  have hlen4 : 4 ≤ (receive w request).recvBuffer.length := by
    rw [hr.recvBuffer]
    omega
  obtain ⟨header, hh, hflags⟩ := readDnsHeader_flags hlen4
  have hquery := hflags.mpr (h.flags.append_right _)
  have hserve : step w (.request client request clock now time) =
      ⟨[⟨.server, client, reply⟩], .ok w'⟩ := by
    rw [step, handleRequest_of_query hh hquery, serveQuestion, hanswer]
    rfl
  refine ⟨⟨reply, by rw [hserve], hid, hdecodes⟩, w', by rw [hserve], ?_,
    (answerQuestion_frame hanswer).1⟩
  have hstores := answerQuestion_stores hanswer
  refine hstores.eq fun t' => ?_
  have hused : questionUsed (receive w request) = .ok (dotted labels, t.code) := by
    have hread' : readDnsQuestions (receive w request).question
      (receive w request).recvBuffer = _ := hread
    simp only [questionUsed, hread', hlabel, bind, Except.bind]
    rfl
  have hcalled := (answerQuestion_question hanswer).2 t'
  rw [lookUpCall_listed hused hlisted t' now] at hcalled
  exact hcalled

end Answer

theorem given_v4 {rs : List (Bytes × Bytes)} {n : Label} {ip : IP}
    (h : addressOf ip ∈ given net .v4 rs n) :
    (addressOf ip).bytes = ip.addr.toList.take 4 := by
  obtain ⟨-, -, -, hkind⟩ := mem_given.mp h
  have hfamily : (addressOf ip).family = ipv4 := by
    unfold Address.kind at hkind
    split at hkind
    next => cases hkind
    next =>
      split at hkind
      next hv4 => exact hv4
      next => cases hkind
  have htype : ip.type = ipv4 := hfamily
  rw [addressOf, if_pos htype]

/-- Where the stores come from a file, a query for the IPv4 addresses of a name that the file does
not block is answered with the addresses that the file gives it, all of them and in file
order. -/
theorem FromFile.answered (hf : FromFile net rs w.cacheset) (hs : w.Sized) {labels : List Bytes}
    {addrs : List Address} (hne : labels ≠ []) (hvalid : ∀ label ∈ labels, ValidLabel label)
    (hlen : (dotted labels).length ≤ 253) (hblack : given net .black rs (dotted labels) = [])
    (haddrs : given net .v4 rs (dotted labels) = addrs) (hsome : addrs ≠ [])
    (hcount : addrs.length ≤ 20)
    (hfits : 16 + (wireName labels).length + addrs.length * ((wireName labels).length + 14) ≤ 1024)
    {request : Bytes} {id qclass : ℕ} (hrequest : AddressRequest .A request labels id qclass)
    (client : SockaddrIn) (clock now time : ℤ) :
    RepliesWith (step w (.request client request clock now time)) client id
        [⟨[labels], rrtypeA, qclass⟩]
        (addrs.map fun a => ⟨[labels], rrtypeA, qclass, localTtl, a.bytes⟩) ∧
      ∃ w', (step w (.request client request clock now time)).result = .ok w' ∧
        w'.cacheset = w.cacheset ∧ w'.adapter = w.adapter := by
  obtain ⟨ips, hlisted, hips, -⟩ := hf.local4 (dotted labels)
  obtain ⟨-, -, -, hnone⟩ := hf.black (dotted labels)
  rw [haddrs] at hips
  have hlength : ips.length = addrs.length := by rw [← hips, List.length_map]
  have hne' : ips ≠ [] := by
    rintro rfl
    exact hsome hips.symm
  have hl : Listed w.cacheset .A labels ips := ⟨hnone.mpr hblack, hlisted, hne'⟩
  have hwidth : AddressType.width .A = 4 := rfl
  have hroom : 12 + (wireName labels).length + 4 +
      ips.length * ((wireName labels).length + 10 + AddressType.width .A) ≤ 1024 := by
    have hsum : (wireName labels).length + 10 + 4 = (wireName labels).length + 14 := rfl
    rw [hlength, hwidth, hsum]
    omega
  obtain ⟨hreply, hstate⟩ := hrequest.answered hs hne hvalid hlen hl (by omega) hroom client clock
    now time
  refine ⟨?_, hstate⟩
  have hrecords : ips.map (localRecord .A labels qclass) =
      addrs.map fun a => ⟨[labels], rrtypeA, qclass, localTtl, a.bytes⟩ := by
    rw [← hips, List.map_map]
    apply List.map_congr_left
    intro ip hip
    have hmem : addressOf ip ∈ given net .v4 rs (dotted labels) := by
      rw [haddrs, ← hips]
      exact List.mem_map_of_mem hip
    simp only [localRecord, Function.comp_apply, given_v4 hmem]
    rfl
  rw [hrecords] at hreply
  exact hreply

end File

end DnsRelay.Relay
