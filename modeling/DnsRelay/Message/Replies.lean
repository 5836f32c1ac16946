import DnsRelay.Message.Limits
import DnsRelay.Message.RoundTrip

/-!
# Replies built over a request

`write_dns_response_by_query` leaves the header and the first question of the request in
place, except for the flags and the number of answers, and writes the answers behind them.
The other three counts are those of the request, so they fit the reply only by chance.
-/

namespace DnsRelay.Message

open DnsRelay.Lib DnsRelay.Lib.Machine

section Format

variable {msg : Bytes} {i j e e' n : ℕ} {α : Type*} {At : ℕ → α → ℕ → Prop}

/-- A question, with its name given by its segments in the message. -/
structure WireQuestion where
  segs : List (List Bytes)
  qtype : ℕ
  qclass : ℕ

def QuestionAt (msg : Bytes) (i : ℕ) (q : WireQuestion) (e : ℕ) : Prop :=
  ∃ j, NameAt msg i q.segs j ∧ HasAt msg j (u16Bytes q.qtype ++ u16Bytes q.qclass) ∧ e = j + 4

/-- A record whose length field says how long it is. -/
def SizedRecordAt (msg : Bytes) (i : ℕ) (r : ResourceRecord) (e : ℕ) : Prop :=
  r.rdata.length < 65536 ∧ RecordAt msg i r e

/-- The entries stand one behind the other from `i` up to `e`. -/
def SectionAt (At : ℕ → α → ℕ → Prop) : List α → ℕ → ℕ → Prop
  | [], i, e => e = i
  | x :: xs, i, e => ∃ j, At i x j ∧ SectionAt At xs j e

/-- The message consists of the header and the four sections, with the counts of their
entries in the header and nothing behind them. -/
structure Decodes (msg : Bytes) (questions : List WireQuestion)
    (answers authority additional : List ResourceRecord) : Prop where
  lengths_lt : questions.length < 65536 ∧ answers.length < 65536 ∧ authority.length < 65536 ∧
    additional.length < 65536
  qdcount : HasAt msg 4 (u16Bytes questions.length)
  ancount : HasAt msg 6 (u16Bytes answers.length)
  nscount : HasAt msg 8 (u16Bytes authority.length)
  adcount : HasAt msg 10 (u16Bytes additional.length)
  sections : ∃ p₁ p₂ p₃, SectionAt (QuestionAt msg) questions 12 p₁ ∧
    SectionAt (SizedRecordAt msg) answers p₁ p₂ ∧ SectionAt (SizedRecordAt msg) authority p₂ p₃ ∧
    SectionAt (SizedRecordAt msg) additional p₃ msg.length

/-- A message in the format of RFC 1035. -/
def WellFormedMessage (msg : Bytes) : Prop :=
  ∃ questions answers authority additional, Decodes msg questions answers authority additional

theorem u16Bytes_inj {x y : ℕ} (hx : x < 65536) (hy : y < 65536) (h : HasAt msg i (u16Bytes x))
    (h' : HasAt msg i (u16Bytes y)) : x = y := by
  have := (readU16_of_hasAt hx h).symm.trans (readU16_of_hasAt hy h')
  exact Except.ok.inj this

/-- The first byte of a name says how it goes on. -/
theorem NameAt.first {segs : List (List Bytes)} (h : NameAt msg i segs e) :
    ∃ b, msg[i]? = some b ∧ ((b.toNat = 0 ∧ e = i + 1) ∨ (192 ≤ b.toNat ∧ e = i + 2) ∨
      1 ≤ b.toNat ∧ b.toNat ≤ 63 ∧ ∃ segs', NameAt msg (i + b.toNat + 1) segs' e) := by
  cases h with
  | zero h₀ => exact ⟨0, (hasAt_cons.mp h₀).1, .inl ⟨rfl, rfl⟩⟩
  | @label _ _ label seg segs h₁ h₂ hat hname =>
      have hb := (labelByte h₁ h₂).2.2.1
      refine ⟨_, (hasAt_cons.mp hat).1, .inr (.inr ⟨by omega, by omega, seg :: segs, ?_⟩)⟩
      rwa [hb]
  | @pointer _ t _ segs ht hat _ =>
      refine ⟨_, (hasAt_cons.mp hat).1, .inr (.inl ⟨?_, rfl⟩)⟩
      rw [UInt8.toNat_ofNat']
      omega

theorem NameAt.lt_length {segs : List (List Bytes)} (h : NameAt msg i segs e) :
    i < msg.length := by
  obtain ⟨b, hb, -⟩ := h.first
  exact (List.getElem?_eq_some_iff.mp hb).1

/-- Where a name ends is determined by the message. -/
theorem NameAt.end_unique {segs segs' : List (List Bytes)} (h : NameAt msg i segs e)
    (h' : NameAt msg i segs' e') : e = e' := by
  obtain ⟨b, hb, hcases⟩ := h'.first
  induction h generalizing segs' b with
  | @zero i h₀ =>
      cases (hasAt_cons.mp h₀).1.symm.trans hb
      rcases hcases with ⟨-, rfl⟩ | ⟨hb, -⟩ | ⟨hb, -⟩
      · rfl
      · cases hb
      · cases hb
  | @label i e label seg segs h₁ h₂ hat hname ih =>
      have hlen := (labelByte h₁ h₂).2.2.1
      cases (hasAt_cons.mp hat).1.symm.trans hb
      rw [hlen] at hcases
      rcases hcases with ⟨hb, -⟩ | ⟨hb, -⟩ | ⟨-, -, segs'', hrest⟩
      · omega
      · omega
      · obtain ⟨b', hb', hcases'⟩ := hrest.first
        exact ih hrest b' hb' hcases'
  | @pointer i t e segs ht hat hname ih =>
      cases (hasAt_cons.mp hat).1.symm.trans hb
      rw [UInt8.toNat_ofNat'] at hcases
      rcases hcases with ⟨hb, -⟩ | ⟨-, rfl⟩ | ⟨-, hb, -⟩
      · omega
      · rfl
      · omega

theorem QuestionAt.end_unique {q q' : WireQuestion} (h : QuestionAt msg i q e)
    (h' : QuestionAt msg i q' e') : e = e' := by
  obtain ⟨j, hname, -, rfl⟩ := h
  obtain ⟨j', hname', -, rfl⟩ := h'
  rw [hname.end_unique hname']

theorem SizedRecordAt.end_unique {r r' : ResourceRecord} (h : SizedRecordAt msg i r e)
    (h' : SizedRecordAt msg i r' e') : e = e' := by
  obtain ⟨hlt, j, hname, hfields, rfl⟩ := h
  obtain ⟨hlt', j', hname', hfields', rfl⟩ := h'
  obtain rfl := hname.end_unique hname'
  simp only [ResourceRecord.fields, hasAt_append] at hfields hfields'
  have hat : HasAt msg (j + 8) (u16Bytes r.rdata.length) := by
    simpa [u16Bytes, u32Bytes] using hfields.1.2
  have hat' : HasAt msg (j + 8) (u16Bytes r'.rdata.length) := by
    simpa [u16Bytes, u32Bytes] using hfields'.1.2
  rw [u16Bytes_inj hlt hlt' hat hat']

/-- Where a section ends is determined by the number of its entries. -/
theorem SectionAt.end_unique {xs ys : List α} (h : SectionAt At xs i e)
    (h' : SectionAt At ys i e') (hlen : xs.length = ys.length)
    (hAt : ∀ {i x y e e'}, At i x e → At i y e' → e = e') : e = e' := by
  induction xs generalizing ys i with
  | nil =>
      obtain rfl := List.length_eq_zero_iff.mp hlen.symm
      exact h.trans h'.symm
  | cons x xs ih =>
      cases ys with
      | nil => cases hlen
      | cons y ys =>
          obtain ⟨j, hx, hxs⟩ := h
          obtain ⟨j', hy, hys⟩ := h'
          obtain rfl := hAt hx hy
          exact ih hxs hys (Nat.succ.inj hlen)

/-- No section with an entry starts at the end of the message. -/
theorem sectionAt_length {rs : List ResourceRecord}
    (h : SectionAt (SizedRecordAt msg) rs msg.length e) : rs = [] := by
  cases rs with
  | nil => rfl
  | cons r rs =>
      obtain ⟨j, ⟨-, k, hname, -⟩, -⟩ := h
      exact absurd hname.lt_length (lt_irrefl _)

end Format

section Answers

variable {buffer buffer' : Bytes} {d : ℕ} {a : Answer} {answers : List Answer} {labels : List Bytes}

/-- An address record whose owner name is a host name. -/
structure Writable (a : Answer) : Prop where
  host : ∃ labels, labels ≠ [] ∧ (∀ label ∈ labels, ValidLabel label) ∧
    (dotted labels).length < maxDnsSize ∧ cString a.name = .ok (dotted labels)
  type : a.type = rrtypeA ∨ a.type = rrtypeAAAA

/-- The labels of the owner name of an answer. -/
def hostLabels (a : Answer) : List Bytes :=
  match cString a.name with
  | .ok name => name.splitOn dot
  | .error _ => []

/-- The record that is written for an answer. -/
def recordOf (a : Answer) : ResourceRecord :=
  ⟨[hostLabels a], a.type, a.class_, ttlField a.ttl, a.address.addr.toList.take (addrSize a.type)⟩

/-- Its bytes. -/
def recordBytes (a : Answer) : Bytes := wireName (hostLabels a) ++ (recordOf a).fields

theorem hostLabels_eq (hne : labels ≠ []) (hlabels : ∀ label ∈ labels, ValidLabel label)
    (h : cString a.name = .ok (dotted labels)) : hostLabels a = labels := by
  rw [hostLabels, h]
  exact List.splitOn_intercalate dot (fun label hlabel => (hlabels label hlabel).no_dot) hne

theorem Writable.hostLabels_spec (h : Writable a) :
    hostLabels a ≠ [] ∧ (∀ label ∈ hostLabels a, ValidLabel label) ∧
      (dotted (hostLabels a)).length < maxDnsSize ∧
      cString a.name = .ok (dotted (hostLabels a)) := by
  obtain ⟨labels, hne, hlabels, hlen, hname⟩ := h.host
  rw [hostLabels_eq hne hlabels hname]
  exact ⟨hne, hlabels, hlen, hname⟩

theorem length_rdata (a : Answer) : (recordOf a).rdata.length = addrSize a.type := by
  rw [recordOf, List.length_take, Vector.length_toList, addrSize]
  split <;> rfl

theorem addrSize_le (type : ℕ) : addrSize type ≤ 16 := by
  rw [addrSize]
  split <;> omega

theorem length_recordBytes (a : Answer) :
    (recordBytes a).length = (wireName (hostLabels a)).length + 10 + addrSize a.type := by
  simp only [recordBytes, ResourceRecord.fields, u16Bytes, u32Bytes, List.length_append,
    List.length_cons, List.length_nil, length_rdata]
  omega

/-- A write inside the buffer returns one of the same length. -/
theorem writeBytes_room (buffer : Bytes) (pos : ℤ) (i : ℕ) (bytes : Bytes) (hpos : pos = (i : ℤ))
    (h : i + bytes.length ≤ buffer.length) :
    ∃ buffer', writeBytes buffer pos bytes = .ok buffer' ∧ buffer'.length = buffer.length := by
  obtain ⟨buffer', hw⟩ := writeBytes_of_le h
  rw [hpos]
  exact ⟨buffer', hw, (writeBytes_ok hw).changed.length_eq⟩

section Room

variable {name rdata : Bytes} {type class_ ttl : ℕ}

/-- `write_dns_answer` returns when there is room for the record of an address. -/
theorem writeDnsAnswer_of_room (class_ ttl : ℕ) (rdata : Bytes) (hname : name.length < maxDnsSize)
    (htype : type = rrtypeA ∨ type = rrtypeAAAA)
    (hroom : d + (name.length + 12 + addrSize type) ≤ buffer.length) :
    ∃ buffer' ret, writeDnsAnswer buffer d name type class_ ttl rdata = .ok (buffer', ret) := by
  obtain ⟨b₁, ret, h₁⟩ := strToLabel_of_le hname (show d + _ + 2 ≤ buffer.length by omega)
  obtain ⟨rfl, hchanged, -⟩ := strToLabel_changed h₁ hname
  have hl₁ := hchanged.length_eq
  generalize hcount : name.length + 2 = count at *
  have hne : (count : ℤ) ≠ -1 := by omega
  obtain ⟨b₂, h₂, hl₂⟩ := writeBytes_room b₁ ((d : ℤ) + count) (d + count)
    (u16Bytes type) (by push_cast; rfl) (by simp [u16Bytes]; omega)
  obtain ⟨b₃, h₃, hl₃⟩ := writeBytes_room b₂ ((d : ℤ) + count + 2) (d + count + 2)
    (u16Bytes class_) (by push_cast; rfl) (by simp [u16Bytes]; omega)
  obtain ⟨b₄, h₄, hl₄⟩ := writeBytes_room b₃ ((d : ℤ) + count + 4) (d + count + 4)
    (u32Bytes (ttlField ttl)) (by push_cast; rfl)
    (by simp [u32Bytes, u16Bytes]; omega)
  -- the length field and the address
  have hlast : ∀ k, addrSize type = k → ∃ b₅ b₆,
      writeBytes b₄ ((d : ℤ) + count + 8) (u16Bytes k) = .ok b₅ ∧
      writeBytes b₅ ((d : ℤ) + count + 10) (rdata.take k) = .ok b₆ := by
    intro k hk
    obtain ⟨b₅, h₅, hl₅⟩ := writeBytes_room b₄ ((d : ℤ) + count + 8) (d + count + 8)
      (u16Bytes k) (by push_cast; rfl) (by simp [u16Bytes]; omega)
    obtain ⟨b₆, h₆, -⟩ := writeBytes_room b₅ ((d : ℤ) + count + 10) (d + count + 10)
      (rdata.take k) (by push_cast; rfl) (by rw [List.length_take]; omega)
    exact ⟨b₅, b₆, h₅, h₆⟩
  rcases htype with rfl | rfl
  · obtain ⟨b₅, b₆, h₅, h₆⟩ := hlast 4 rfl
    simp only [writeDnsAnswer, h₁, hne, if_false, h₂, h₃, h₄, if_true, h₅, h₆, bind, Except.bind]
    exact ⟨_, _, rfl⟩
  · obtain ⟨b₅, b₆, h₅, h₆⟩ := hlast 16 rfl
    have hA : ¬ rrtypeAAAA = rrtypeA := by decide
    simp only [writeDnsAnswer, h₁, hne, if_false, h₂, h₃, h₄, hA, if_true, h₅, h₆, bind,
      Except.bind]
    exact ⟨_, _, rfl⟩

/-- What it returns then is the size of the record. -/
theorem writeDnsAnswer_size {ret : ℤ} (hname : name.length < maxDnsSize)
    (htype : type = rrtypeA ∨ type = rrtypeAAAA)
    (h : writeDnsAnswer buffer d name type class_ ttl rdata = .ok (buffer', ret)) :
    ret = ((name.length + 12 + addrSize type : ℕ) : ℤ) := by
  obtain ⟨⟨b₁, count⟩, h₁, h⟩ := bind_eq_ok.mp h
  obtain ⟨rfl, -, -⟩ := strToLabel_changed h₁ hname
  have hne : ((name.length + 2 : ℕ) : ℤ) ≠ -1 := by omega
  dsimp only at h
  rw [if_neg hne] at h
  obtain ⟨b₂, -, h⟩ := bind_eq_ok.mp h
  obtain ⟨b₃, -, h⟩ := bind_eq_ok.mp h
  obtain ⟨b₄, -, h⟩ := bind_eq_ok.mp h
  rcases htype with rfl | rfl
  · rw [if_pos rfl] at h
    obtain ⟨b₅, -, h⟩ := bind_eq_ok.mp h
    obtain ⟨b₆, -, h⟩ := bind_eq_ok.mp h
    cases h
    simp only [addrSize, if_true]
    omega
  · have hA : ¬ rrtypeAAAA = rrtypeA := by decide
    rw [if_neg hA, if_pos rfl] at h
    obtain ⟨b₅, -, h⟩ := bind_eq_ok.mp h
    obtain ⟨b₆, -, h⟩ := bind_eq_ok.mp h
    cases h
    simp only [addrSize, hA, if_false]
    omega

end Room

theorem writeDnsAnswer_of_le (ha : Writable a)
    (hroom : d + (recordBytes a).length ≤ buffer.length) :
    ∃ buffer' ret, writeDnsAnswer buffer d (dotted (hostLabels a)) a.type a.class_ a.ttl
      (a.address.addr.toList ++ [a.address.type]) = .ok (buffer', ret) := by
  obtain ⟨hne, -, hlen, -⟩ := ha.hostLabels_spec
  rw [length_recordBytes, wireName_length hne] at hroom
  exact writeDnsAnswer_of_room _ _ _ hlen ha.type (by omega)

theorem writeDnsAnswer_wrote (ha : Writable a) {ret : ℤ}
    (h : writeDnsAnswer buffer d (dotted (hostLabels a)) a.type a.class_ a.ttl
      (a.address.addr.toList ++ [a.address.type]) = .ok (buffer', ret)) :
    Wrote buffer buffer' d (recordBytes a) ∧ ret = (recordBytes a).length := by
  obtain ⟨hne, hlabels, hlen, -⟩ := ha.hostLabels_spec
  obtain ⟨hw, hret⟩ := writeDnsAnswer_ok hne hlabels hlen ha.type (by simp) h
  have hbytes : answerBytes (hostLabels a) a.type a.class_ (ttlField a.ttl)
      ((a.address.addr.toList ++ [a.address.type]).take (addrSize a.type)) = recordBytes a := by
    have htake : (a.address.addr.toList ++ [a.address.type]).take (addrSize a.type) =
        a.address.addr.toList.take (addrSize a.type) := by
      apply List.take_append_of_le_length
      simpa using addrSize_le a.type
    rw [htake, answerBytes, recordBytes, ResourceRecord.fields, recordOf]
    simp only [List.append_assoc]
  rw [hbytes] at hw hret
  exact ⟨hw, hret⟩

/-- The records are written one behind the other, if there is room. -/
theorem writeAnswerLoop_of_le (hv : ∀ a ∈ answers, Writable a)
    (hroom : d + (answers.flatMap recordBytes).length ≤ buffer.length) :
    ∃ buffer', writeAnswerLoop answers buffer d =
        .ok (buffer', ((d + (answers.flatMap recordBytes).length : ℕ) : ℤ)) ∧
      Wrote buffer buffer' d (answers.flatMap recordBytes) := by
  induction answers generalizing buffer d with
  | nil => exact ⟨buffer, rfl, .refl, hasAt_nil⟩
  | cons a answers ih =>
      rw [List.flatMap_cons, List.length_append] at hroom ⊢
      have ha := hv a (by simp)
      obtain ⟨b₁, ret, hw⟩ := writeDnsAnswer_of_le ha (show d + _ ≤ buffer.length by omega)
      obtain ⟨hwrote, rfl⟩ := writeDnsAnswer_wrote ha hw
      obtain ⟨b₂, hloop, hrest⟩ := ih (fun x hx => hv x (List.mem_cons_of_mem _ hx))
        (show d + (recordBytes a).length + _ ≤ b₁.length by
          rw [hwrote.changed.length_eq]
          omega)
      refine ⟨b₂, ?_, hwrote.append hrest⟩
      simp only [writeAnswerLoop, ha.hostLabels_spec.2.2.2, hw, ← Int.natCast_add, bind,
        Except.bind, hloop, Nat.add_assoc]

/-- A loop that returns has found room. -/
theorem writeAnswerLoop_room (hv : ∀ a ∈ answers, Writable a) (hne : answers ≠ []) {ret : ℤ}
    (h : writeAnswerLoop answers buffer d = .ok (buffer', ret)) :
    d + (answers.flatMap recordBytes).length ≤ buffer.length := by
  induction answers generalizing buffer d with
  | nil => exact absurd rfl hne
  | cons a answers ih =>
      have ha := hv a (by simp)
      obtain ⟨name, hname, h⟩ := bind_eq_ok.mp h
      obtain ⟨⟨b₁, size⟩, hw, h⟩ := bind_eq_ok.mp h
      rw [ha.hostLabels_spec.2.2.2] at hname
      cases hname
      obtain ⟨hwrote, rfl⟩ := writeDnsAnswer_wrote ha hw
      have hfirst : d + (recordBytes a).length ≤ buffer.length := by
        rw [← hwrote.changed.length_eq]
        apply hwrote.here.le_length
        simp [recordBytes, wireName]
      rw [List.flatMap_cons, List.length_append]
      cases answers with
      | nil => simpa using hfirst
      | cons a' answers =>
          have hcast : writeAnswerLoop (a' :: answers) b₁ ((d + (recordBytes a).length : ℕ) : ℤ) =
              .ok (buffer', ret) := by exact_mod_cast h
          have := ih (fun x hx => hv x (List.mem_cons_of_mem _ hx)) (by simp) hcast
          rw [hwrote.changed.length_eq] at this
          omega

/-- The bytes of the records are the answer section of every message that has them. -/
theorem sectionAt_records {msg : Bytes} (hv : ∀ a ∈ answers, Writable a)
    (h : HasAt msg d (answers.flatMap recordBytes)) :
    SectionAt (SizedRecordAt msg) (answers.map recordOf) d
      (d + (answers.flatMap recordBytes).length) := by
  induction answers generalizing d with
  | nil => rfl
  | cons a answers ih =>
      rw [List.flatMap_cons, hasAt_append] at h
      obtain ⟨hrecord, hrest⟩ := h
      have ha := hv a (by simp)
      refine ⟨d + (recordBytes a).length,
        ⟨?_, d + (wireName (hostLabels a)).length, ?_, ?_, ?_⟩, ?_⟩
      · rw [length_rdata]
        exact (addrSize_le a.type).trans_lt (by decide)
      · rw [recordBytes, hasAt_append] at hrecord
        exact nameAt_wireName ha.hostLabels_spec.2.1 hrecord.1
      · rw [recordBytes, hasAt_append] at hrecord
        exact hrecord.2
      · rw [length_recordBytes, length_rdata]
        omega
      · rw [List.flatMap_cons, List.length_append, ← Nat.add_assoc]
        exact ih (fun x hx => hv x (List.mem_cons_of_mem _ hx)) hrest

end Answers

section Reply

variable {request buffer' : Bytes} {answers : List Answer} {seg : List Bytes} {e : ℕ}

/-- What a reply over a request keeps of it, when its first question ends before `e`, and
what it adds. -/
structure ReplyOver (request : Bytes) (answers : List Answer) (e : ℕ) (buffer' : Bytes) :
    Prop where
  length_eq : buffer'.length = request.length
  flags : HasAt buffer' 2 (u16Bytes flagResponseNormal)
  ancount : HasAt buffer' 6 (u16Bytes answers.length)
  answers : HasAt buffer' e (answers.flatMap recordBytes)
  kept : ∀ k, k < 2 ∨ (4 ≤ k ∧ k < 6) ∨ (8 ≤ k ∧ k < e) → buffer'[k]? = request[k]?

/-- The reply is built when there is room for it. -/
theorem writeDnsResponseByQuery_of_le (hname : NameAt request 12 [seg] e)
    (hv : ∀ a ∈ answers, Writable a)
    (hroom : e + 4 + (answers.flatMap recordBytes).length ≤ request.length) :
    ∃ buffer', writeDnsResponseByQuery request answers =
        .ok (buffer', ((e + 4 + (answers.flatMap recordBytes).length : ℕ) : ℤ)) ∧
      ReplyOver request answers (e + 4) buffer' := by
  have hlt : 12 < e := (hname.congr rfl fun _ _ _ => rfl).1
  obtain ⟨b, hw, hlen, hflags, hcount, hskip, hcells⟩ :=
    writeResponse_front hname (by omega) answers.length
  obtain ⟨b₁, h₁, h₂⟩ := bind_eq_ok.mp hw
  obtain ⟨buffer', hloop, hwrote⟩ := writeAnswerLoop_of_le hv
    (show e + 4 + _ ≤ b.length by rw [hlen]; exact hroom)
  refine ⟨buffer', ?_, ⟨hwrote.changed.length_eq.trans hlen, ?_, ?_, hwrote.here, ?_⟩⟩
  · simp only [writeDnsResponseByQuery, h₁, h₂, hskip, bind, Except.bind, hloop]
  · exact hflags.changed hwrote.changed (.inl (by rw [u16Bytes_length]; omega))
  · exact hcount.changed hwrote.changed (.inl (by rw [u16Bytes_length]; omega))
  · intro k hk
    rw [hwrote.changed.outside k (by omega), hcells k (by omega)]

/-- And only then. -/
theorem writeDnsResponseByQuery_room (hname : NameAt request 12 [seg] e)
    (he : e + 4 ≤ request.length) (hv : ∀ a ∈ answers, Writable a) (hne : answers ≠ []) {ret : ℤ}
    (h : writeDnsResponseByQuery request answers = .ok (buffer', ret)) :
    e + 4 + (answers.flatMap recordBytes).length ≤ request.length := by
  obtain ⟨b, hw, hlen, -, -, hskip, -⟩ := writeResponse_front hname he answers.length
  obtain ⟨b₁, h₁, h₂⟩ := bind_eq_ok.mp hw
  simp only [writeDnsResponseByQuery, h₁, h₂, hskip, bind, Except.bind] at h
  rw [← hlen]
  exact writeAnswerLoop_room hv hne h

/-- The message that is sent. -/
def replyMessage (e : ℕ) (answers : List Answer) (buffer' : Bytes) : Bytes :=
  buffer'.take (e + (answers.flatMap recordBytes).length)

section Sent

variable (h : ReplyOver request answers (e + 4) buffer') (hname : NameAt request 12 [seg] e)
  (hroom : e + 4 + (answers.flatMap recordBytes).length ≤ request.length)

include h hroom

theorem ReplyOver.length_message :
    (replyMessage (e + 4) answers buffer').length =
      e + 4 + (answers.flatMap recordBytes).length := by
  rw [replyMessage, List.length_take, min_eq_left]
  rwa [h.length_eq]

include hname

/-- The number of answers is that of the reply, and the other counts are those of the
request. -/
theorem ReplyOver.counts {n i : ℕ} (hi : i = 4 ∨ i = 8 ∨ i = 10)
    (hat : HasAt request i (u16Bytes n)) :
    HasAt (replyMessage (e + 4) answers buffer') i (u16Bytes n) := by
  have hlt : 12 < e := (hname.congr rfl fun _ _ _ => rfl).1
  rw [replyMessage, hasAt_take (by rwa [h.length_eq]) (by rw [u16Bytes_length]; omega)]
  apply hat.congr
  intro k h₁ h₂
  rw [u16Bytes_length] at h₂
  exact h.kept k (by omega)

theorem ReplyOver.ancount_message :
    HasAt (replyMessage (e + 4) answers buffer') 6 (u16Bytes answers.length) := by
  have hlt : 12 < e := (hname.congr rfl fun _ _ _ => rfl).1
  rw [replyMessage, hasAt_take (by rwa [h.length_eq]) (by rw [u16Bytes_length]; omega)]
  exact h.ancount

/-- The question of the request stands in front. -/
theorem ReplyOver.question {qtype qclass : ℕ}
    (hfields : HasAt request e (u16Bytes qtype ++ u16Bytes qclass)) :
    SectionAt (QuestionAt (replyMessage (e + 4) answers buffer')) [⟨[seg], qtype, qclass⟩] 12
      (e + 4) := by
  refine ⟨e + 4, ⟨e, ?_, ?_, rfl⟩, rfl⟩
  · apply (hname.congr rfl ?_).2
    intro k h₁ h₂
    rw [replyMessage, List.getElem?_take_of_lt (by omega), h.kept k (by omega)]
  · rw [replyMessage, hasAt_take (by rwa [h.length_eq])
      (by simp only [List.length_append, u16Bytes_length]; omega)]
    apply hfields.congr
    intro k h₁ h₂
    have hlt : 12 < e := (hname.congr rfl fun _ _ _ => rfl).1
    simp only [List.length_append, u16Bytes_length] at h₂
    exact h.kept k (by omega)

omit hname in
/-- The answers stand behind it, and nothing else. -/
theorem ReplyOver.records (hv : ∀ a ∈ answers, Writable a) :
    SectionAt (SizedRecordAt (replyMessage (e + 4) answers buffer')) (answers.map recordOf) (e + 4)
      (replyMessage (e + 4) answers buffer').length := by
  rw [h.length_message hroom]
  apply sectionAt_records hv
  rw [replyMessage, hasAt_take (by rwa [h.length_eq]) le_rfl]
  exact h.answers

/-- With the counts of a request that has one question and no other records, the reply is
the question and the answers. -/
theorem ReplyOver.decodes {qtype qclass : ℕ}
    (hfields : HasAt request e (u16Bytes qtype ++ u16Bytes qclass))
    (hqd : HasAt request 4 (u16Bytes 1)) (hns : HasAt request 8 (u16Bytes 0))
    (had : HasAt request 10 (u16Bytes 0)) (hv : ∀ a ∈ answers, Writable a)
    (hlen : answers.length < 65536) :
    Decodes (replyMessage (e + 4) answers buffer') [⟨[seg], qtype, qclass⟩]
      (answers.map recordOf) [] [] := by
  refine ⟨⟨by simp, by simpa using hlen, by simp, by simp⟩, ?_, ?_, ?_, ?_, ?_⟩
  · exact h.counts hname hroom (.inl rfl) hqd
  · rw [List.length_map]
    exact h.ancount_message hname hroom
  · exact h.counts hname hroom (.inr (.inl rfl)) hns
  · exact h.counts hname hroom (.inr (.inr rfl)) had
  · exact ⟨_, _, _, h.question hname hroom hfields, h.records hroom hv, rfl, rfl⟩

/-- For a request with one question there is no other way to read the reply: records that
its counts announce in the last two sections are missing. -/
theorem ReplyOver.counts_zero {ns ad : ℕ} (hqd : HasAt request 4 (u16Bytes 1))
    (hns : HasAt request 8 (u16Bytes ns)) (hns_lt : ns < 65536)
    (had : HasAt request 10 (u16Bytes ad)) (had_lt : ad < 65536)
    (hv : ∀ a ∈ answers, Writable a) (hlen : answers.length < 65536)
    (hw : WellFormedMessage (replyMessage (e + 4) answers buffer')) : ns = 0 ∧ ad = 0 := by
  obtain ⟨qtype, -, ht⟩ := exists_u16Bytes (show e + 2 ≤ request.length by omega)
  obtain ⟨qclass, -, hc⟩ := exists_u16Bytes (show e + 2 + 2 ≤ request.length by omega)
  have hquestion := h.question hname hroom (hasAt_append.mpr ⟨ht, hc⟩)
  have hrecords := h.records hroom hv
  obtain ⟨qs, rs, auth, add, ⟨hqs, hrs, hauth, hadd⟩, hqd', han', hns', had', p₁, p₂, p₃, h₁, h₂,
    h₃, h₄⟩ := hw
  have hone : qs.length = [(⟨[seg], qtype, qclass⟩ : WireQuestion)].length :=
    u16Bytes_inj hqs (by simp) hqd' (h.counts hname hroom (.inl rfl) hqd)
  obtain rfl := h₁.end_unique hquestion hone QuestionAt.end_unique
  have hmany : rs.length = (answers.map recordOf).length := by
    rw [List.length_map]
    exact u16Bytes_inj hrs hlen han' (h.ancount_message hname hroom)
  obtain rfl := h₂.end_unique hrecords hmany SizedRecordAt.end_unique
  obtain rfl := sectionAt_length h₃
  obtain rfl : p₃ = _ := h₃
  obtain rfl := sectionAt_length h₄
  exact ⟨u16Bytes_inj hns_lt hauth (h.counts hname hroom (.inr (.inl rfl)) hns) hns',
    u16Bytes_inj had_lt hadd (h.counts hname hroom (.inr (.inr rfl)) had) had'⟩

end Sent

/-- The reply over a request is built, and is a well-formed message. -/
def RepliesWellFormed (request : Bytes) (answers : List Answer) : Prop :=
  ∃ buffer' size, writeDnsResponseByQuery request answers = .ok (buffer', size) ∧
    WellFormedMessage (buffer'.take size.toNat)

theorem repliesWellFormed_of_counts (hname : NameAt request 12 [seg] e)
    (hqd : HasAt request 4 (u16Bytes 1)) (hns : HasAt request 8 (u16Bytes 0))
    (had : HasAt request 10 (u16Bytes 0)) (hv : ∀ a ∈ answers, Writable a)
    (hlen : answers.length < 65536)
    (hroom : e + 4 + (answers.flatMap recordBytes).length ≤ request.length) :
    RepliesWellFormed request answers := by
  obtain ⟨buffer', hw, hreply⟩ := writeDnsResponseByQuery_of_le hname hv hroom
  obtain ⟨qtype, -, ht⟩ := exists_u16Bytes (show e + 2 ≤ request.length by omega)
  obtain ⟨qclass, -, hc⟩ := exists_u16Bytes (show e + 2 + 2 ≤ request.length by omega)
  exact ⟨buffer', _, hw, _, _, _, _, hreply.decodes hname hroom (hasAt_append.mpr ⟨ht, hc⟩) hqd hns
    had hv hlen⟩

theorem RepliesWellFormed.counts_zero {ns ad : ℕ} (h : RepliesWellFormed request answers)
    (hname : NameAt request 12 [seg] e) (hqd : HasAt request 4 (u16Bytes 1))
    (hns : HasAt request 8 (u16Bytes ns)) (hns_lt : ns < 65536)
    (had : HasAt request 10 (u16Bytes ad)) (had_lt : ad < 65536)
    (hv : ∀ a ∈ answers, Writable a) (hlen : answers.length < 65536)
    (hroom : e + 4 + (answers.flatMap recordBytes).length ≤ request.length) :
    ns = 0 ∧ ad = 0 := by
  obtain ⟨buffer', hw, hreply⟩ := writeDnsResponseByQuery_of_le hname hv hroom
  obtain ⟨buffer'', size, hw', hwell⟩ := h
  cases hw.symm.trans hw'
  exact hreply.counts_zero hname hroom hqd hns hns_lt had had_lt hv hlen hwell

/-- What a reply over a request takes: one question, whose name is not compressed, no authority
and no additional records; answers that can be written; and room for them behind the question. -/
structure Replyable (request : Bytes) (answers : List Answer) : Prop where
  qdcount : HasAt request 4 (u16Bytes 1)
  nscount : HasAt request 8 (u16Bytes 0)
  adcount : HasAt request 10 (u16Bytes 0)
  writable : ∀ a ∈ answers, Writable a
  room : ∃ seg e, NameAt request 12 [seg] e ∧
    e + 4 + (answers.flatMap recordBytes).length ≤ request.length

/-- A reply is well-formed if the request and the answers have what it takes. When the name of the
question is not compressed and the answers can be written, the room is needed in any case, and so
are the two other counts when the request counts one question. -/
theorem reply_wellFormed (request : Bytes) (answers : List Answer) (hne : answers ≠ [])
    (hlen : answers.length < 65536) :
    (Replyable request answers → RepliesWellFormed request answers) ∧
    ∀ (seg : List Bytes) (e qd ns ad : ℕ), NameAt request 12 [seg] e → e + 4 ≤ request.length →
      HasAt request 4 (u16Bytes qd) → HasAt request 8 (u16Bytes ns) →
      HasAt request 10 (u16Bytes ad) → ns < 65536 → ad < 65536 → (∀ a ∈ answers, Writable a) →
      RepliesWellFormed request answers →
        e + 4 + (answers.flatMap recordBytes).length ≤ request.length ∧
          (qd = 1 → ns = 0 ∧ ad = 0) := by
  constructor
  · intro h
    obtain ⟨seg, e, hname, hroom⟩ := h.room
    exact repliesWellFormed_of_counts hname h.qdcount h.nscount h.adcount h.writable hlen hroom
  · intro seg e qd ns ad hname he hqd hns had hns_lt had_lt hv h
    obtain ⟨buffer', size, hw, -⟩ := id h
    have hroom := writeDnsResponseByQuery_room hname he hv hne hw
    refine ⟨hroom, ?_⟩
    rintro rfl
    exact h.counts_zero hname hqd hns hns_lt had had_lt hv hlen hroom

/-- A query for the address of `a` with `ad` additional records announced, in a buffer. -/
def addressQuery (ad : UInt8) : Bytes :=
  [0, 1, 1, 0, 0, 1, 0, 0, 0, 0, 0, ad, 1, 97, 0, 0, 1, 0, 1, 0, 0, 41, 16, 0, 0, 0, 0, 0, 0, 0] ++
    List.replicate 30 0

theorem addressQuery_name (ad : UInt8) : NameAt (addressQuery ad) 12 [[[97]]] 15 :=
  .label (by decide) (by decide) (by simp [addressQuery]) (.zero (by simp [addressQuery]))

def addressAnswer : Answer :=
  ⟨97 :: List.replicate 255 0, ⟨Vector.replicate 16 7, 1⟩, 1, 1, 60⟩

theorem addressAnswer_writable : ∀ a ∈ [addressAnswer], Writable a := by
  intro a ha
  rw [List.mem_singleton.mp ha]
  refine ⟨⟨[[97]], by decide, ?_, by decide, rfl⟩, .inl rfl⟩
  intro label hlabel
  rw [List.mem_singleton.mp hlabel]
  exact ⟨by decide, by decide, by decide, by decide⟩

/-- Without additional records the reply is well-formed. -/
theorem reply_wellFormed_sample : RepliesWellFormed (addressQuery 0) [addressAnswer] :=
  (reply_wellFormed (addressQuery 0) [addressAnswer] (by decide) (by decide)).1
    ⟨by decide, by decide, by decide, addressAnswer_writable,
      [[97]], 15, addressQuery_name 0, by decide⟩

/-- With the record of an EDNS client it is not. -/
theorem reply_counts_missing : ¬ RepliesWellFormed (addressQuery 1) [addressAnswer] := by
  intro h
  have hns : HasAt (addressQuery 1) 8 (u16Bytes 0) := by decide
  have had : HasAt (addressQuery 1) 10 (u16Bytes 1) := by decide
  have hzero := h.counts_zero (addressQuery_name 1) (by decide) hns (by decide) had (by decide)
    addressAnswer_writable (by decide) (by decide)
  exact absurd hzero.2 (by decide)

end Reply

end DnsRelay.Message
