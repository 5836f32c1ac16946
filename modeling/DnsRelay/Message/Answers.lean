import DnsRelay.Message.Names

/-!
# Decoding the answer section

The messages of the upstream server have uncompressed questions and answers whose owner
names end in a pointer. On these `read_dns_answers` delivers the address records in the
order of the message, whatever other records stand between them.
-/

namespace DnsRelay.Message

open DnsRelay.Lib DnsRelay.Lib.Machine

variable {msg : Bytes} {i j e n : ℕ}

/-- A resource record; the owner is given by its segments in the message. -/
structure ResourceRecord where
  segs : List (List Bytes)
  type : ℕ
  class_ : ℕ
  ttl : ℕ
  rdata : Bytes

namespace ResourceRecord

/-- The owner name of a record, with its labels joined by dots. -/
def owner (r : ResourceRecord) : Bytes := dotted r.segs.flatten

def isAddress (r : ResourceRecord) : Bool := r.type = rrtypeA ∨ r.type = rrtypeAAAA

/-- Everything behind the owner name. -/
def fields (r : ResourceRecord) : Bytes :=
  u16Bytes r.type ++ u16Bytes r.class_ ++ u32Bytes r.ttl ++ u16Bytes r.rdata.length ++ r.rdata

/-- The records this program can decode: the owner ends in a pointer, its last segment
starts with a label, and addresses have their proper size. -/
structure WellFormed (r : ResourceRecord) : Prop where
  compressed : 2 ≤ r.segs.length
  last_label : ∀ seg ∈ r.segs.getLast?, seg ≠ []
  owner_length : r.owner.length ≤ 255
  type_lt : r.type < 65536
  class_lt : r.class_ < 65536
  ttl_lt : r.ttl < 2 ^ 32
  rdata_lt : r.rdata.length < 65536
  rdata_A : r.type = rrtypeA → r.rdata.length = 4
  rdata_AAAA : r.type = rrtypeAAAA → r.rdata.length = 16

end ResourceRecord

/-- The record `r` stands at `i` and ends before `e`. -/
def RecordAt (msg : Bytes) (i : ℕ) (r : ResourceRecord) (e : ℕ) : Prop :=
  ∃ j, NameAt msg i r.segs j ∧ HasAt msg j r.fields ∧ e = j + 10 + r.rdata.length

/-- A number of questions with uncompressed names. -/
def QuestionsAt (msg : Bytes) : ℕ → ℕ → ℕ → Prop
  | 0, i, e => e = i
  | n + 1, i, e =>
      ∃ seg j, NameAt msg i [seg] j ∧ j + 4 ≤ msg.length ∧ QuestionsAt msg n (j + 4) e

def RecordsAt (msg : Bytes) : List ResourceRecord → ℕ → ℕ → Prop
  | [], i, e => e = i
  | r :: records, i, e =>
      ∃ j, r.WellFormed ∧ RecordAt msg i r j ∧ RecordsAt msg records j e

/-- A message with the given number of questions and the given answers. -/
structure Response (msg : Bytes) (questions : ℕ) (records : List ResourceRecord) : Prop where
  size : msg.length ≤ maxDnsSize
  qdcount_lt : questions < 65536
  qdcount : HasAt msg 4 (u16Bytes questions)
  ancount_lt : records.length < 65536
  ancount : HasAt msg 6 (u16Bytes records.length)
  sections : ∃ j e, QuestionsAt msg questions 12 j ∧ RecordsAt msg records j e

/-- An entry of the output array holds the data of a record. -/
structure Decoded (a : Answer) (r : ResourceRecord) : Prop where
  name : HasAt a.name 0 (r.owner ++ [0])
  type : a.type = r.type
  class_ : a.class_ = r.class_
  ttl : a.ttl = r.ttl
  address : HasAt a.address.addr.toList 0 r.rdata

section Record

variable {r : ResourceRecord} {dest : Answer}

theorem dottedEach_length_pos {labels : List Bytes} (h : labels ≠ []) :
    0 < (dottedEach labels).length := by
  rw [dottedEach_eq h, List.length_append, List.length_singleton]
  omega

theorem lastCount_pos {segs : List (List Bytes)} (hne : segs ≠ [])
    (h : ∀ seg ∈ segs.getLast?, seg ≠ []) (k : ℕ) : 0 < lastCount k segs := by
  induction segs generalizing k with
  | nil => exact absurd rfl hne
  | cons seg segs ih =>
      cases segs with
      | nil =>
          have hseg := dottedEach_length_pos (h seg (by simp))
          rw [lastCount]
          omega
      | cons seg' segs =>
          rw [lastCount]
          · exact ih (by simp) (fun s hs => h s (by simpa [List.getLast?_cons_cons] using hs)) 0
          · simp

/-- A name whose last segment starts with a label has a label. -/
theorem flatten_ne_nil {segs : List (List Bytes)} (hne : segs ≠ [])
    (hlast : ∀ seg ∈ segs.getLast?, seg ≠ []) : segs.flatten ≠ [] := by
  intro hflat
  have hnil := List.flatten_eq_nil_iff.mp hflat _ (List.getLast_mem hne)
  exact hlast _ (List.getLast?_eq_some_getLast hne) hnil

theorem ResourceRecord.WellFormed.labels_ne_nil (h : r.WellFormed) : r.segs.flatten ≠ [] := by
  have hne : r.segs ≠ [] := by
    intro hnil
    have := h.compressed
    simp [hnil] at this
  exact flatten_ne_nil hne h.last_label

/-- The decoded owner name lands in the name array of the entry. -/
theorem storeName_dotted {array : Bytes} {labels : List Bytes} (hne : labels ≠ [])
    (hlen : (dotted labels).length < array.length) :
    ∃ array', storeName array (dottedEach labels) = .ok array' ∧
      array'.length = array.length ∧ HasAt array' 0 (dotted labels ++ [0]) := by
  have hout := dottedEach_eq hne
  have hlong : (dottedEach labels).length = (dotted labels).length + 1 := by simp [hout]
  refine ⟨dotted labels ++ 0 :: array.drop (dottedEach labels).length, ?_, ?_, ?_⟩
  · rw [storeName, if_neg (by simp [hout]), if_neg (by omega), hout]
    simp
  · simp only [List.length_append, List.length_cons, List.length_drop, hlong]
    omega
  · have happ : dotted labels ++ 0 :: array.drop (dottedEach labels).length =
        (dotted labels ++ [0]) ++ array.drop (dottedEach labels).length := by simp
    rw [happ]
    apply HasAt.append_right
    intro k _
    simp

theorem copyAddr_hasAt {addr : Vector UInt8 16} {bytes : Bytes} (h : bytes.length ≤ 16) :
    HasAt (copyAddr addr bytes).toList 0 bytes := by
  intro k hk
  have hk16 : k < 16 := by omega
  simp [copyAddr, hk, hk16]

/-- The bytes that are copied are the front of the address. -/
theorem take_copyAddr {addr : Vector UInt8 16} {bytes : Bytes} {k : ℕ} (hk : k ≤ bytes.length) :
    (copyAddr addr bytes).toList.take k = (bytes.take 16).take k := by
  apply List.ext_getElem
  · simp only [List.length_take, Vector.length_toList]
    omega
  · intro i hi hi'
    simp only [List.length_take] at hi'
    simp [copyAddr, List.getElem?_eq_getElem (show i < bytes.length by omega)]

theorem take_copyAddr_of_le {addr : Vector UInt8 16} {bytes : Bytes} {k : ℕ}
    (h : bytes.length ≤ 16) (hk : k ≤ bytes.length) :
    (copyAddr addr bytes).toList.take k = bytes.take k := by
  rw [take_copyAddr hk, List.take_of_length_le h]

theorem ResourceRecord.WellFormed.rdata_le (hw : r.WellFormed) (haddr : r.isAddress = true) :
    r.rdata.length ≤ 16 := by
  rcases of_decide_eq_true haddr with h | h
  · rw [hw.rdata_A h]
    omega
  · rw [hw.rdata_AAAA h]

/-- The owner name of a record, which ends in a pointer, is fetched up to its end. -/
theorem fetchLabel_record (hw : r.WellFormed) (hn : NameAt msg i r.segs j) (rest : Bytes) :
    ∃ ret, fetchLabel (msg ++ rest) i = .ok ⟨dottedEach r.segs.flatten, ret, j⟩ ∧ ret ≠ -1 := by
  have hmany : r.segs.length ≠ 1 := by
    have := hw.compressed
    omega
  have hnext : nextOf r.segs j = j := if_neg hmany
  have hfetch := hn.fetchLabel rest
  rw [hnext] at hfetch
  refine ⟨_, hfetch, ?_⟩
  have := lastCount_pos hn.segs_ne_nil hw.last_label 0
  omega

/-- The fields behind the owner name are read as they were written. -/
theorem readFields_record (hw : r.WellFormed) (hfields : HasAt msg j r.fields) (rest : Bytes) :
    readU16 (msg ++ rest) j = .ok r.type ∧
    readU16 (msg ++ rest) ((j : ℤ) + 2) = .ok r.class_ ∧
    readU32 (msg ++ rest) ((j : ℤ) + 4) = .ok r.ttl ∧
    readU16 (msg ++ rest) ((j : ℤ) + 8) = .ok r.rdata.length ∧
    readBytes (msg ++ rest) ((j : ℤ) + 10) r.rdata.length = .ok r.rdata := by
  have hf := hfields.append_right rest
  simp only [ResourceRecord.fields, hasAt_append, List.length_append, u32Bytes, u16Bytes,
    List.length_cons, List.length_nil] at hf
  obtain ⟨⟨⟨⟨ht, hc⟩, httl⟩, hl⟩, hd⟩ := hf
  have hbytes : HasAt (msg ++ rest) (j + 4) (u32Bytes r.ttl) := by
    rw [u32Bytes, hasAt_append]
    exact httl
  refine ⟨readU16_of_hasAt hw.type_lt ht, ?_, ?_, ?_, ?_⟩
  · exact_mod_cast readU16_of_hasAt hw.class_lt hc
  · exact_mod_cast readU32_of_hasAt hw.ttl_lt hbytes
  · exact_mod_cast readU16_of_hasAt hw.rdata_lt hl
  · exact_mod_cast readBytes_of_hasAt hd

theorem readDnsAnswer_record (hw : r.WellFormed) (hr : RecordAt msg i r e)
    (hname : dest.name.length = maxNameLength) (rest : Bytes) :
    ∃ dest', readDnsAnswer dest (msg ++ rest) i = .ok (dest', (e : ℤ) - i, r.isAddress) ∧
      dest'.name.length = maxNameLength ∧ (r.isAddress = true → Decoded dest' r) := by
  obtain ⟨j, hn, hfields, rfl⟩ := hr
  obtain ⟨ret, hfetch, hret⟩ := fetchLabel_record hw hn rest
  have hlen : (dotted r.segs.flatten).length < dest.name.length := by
    have := hw.owner_length
    simp only [hname, maxNameLength]
    exact Nat.lt_succ_of_le this
  obtain ⟨name, hstore, hnamelen, hnameat⟩ := storeName_dotted hw.labels_ne_nil hlen
  obtain ⟨htype, hclass, httl, hlength, hdata⟩ := readFields_record hw hfields rest
  have hsize : (j : ℤ) + 10 + r.rdata.length - i = ((j + 10 + r.rdata.length : ℕ) : ℤ) - i := by
    push_cast
    rfl
  by_cases haddr : r.type = rrtypeA ∨ r.type = rrtypeAAAA
  · have h16 := hw.rdata_le (decide_eq_true haddr)
    have hroom : ¬ sizeofIP < r.rdata.length := not_lt.mpr (h16.trans (by decide))
    refine ⟨⟨name, ⟨copyAddr dest.address.addr r.rdata, UInt8.ofNat r.type⟩, r.type, r.class_,
      r.ttl⟩, ?_, hnamelen.trans hname, fun _ => ⟨hnameat, rfl, rfl, rfl, copyAddr_hasAt h16⟩⟩
    simp only [readDnsAnswer, hfetch, hstore, hret, if_false, htype, hclass, httl,
      hlength, haddr, if_true, hroom, if_false, hdata, bind, Except.bind, pure, Except.pure, hsize]
    simp [ResourceRecord.isAddress, haddr]
  · refine ⟨{ dest with name := name, type := r.type, class_ := r.class_, ttl := r.ttl }, ?_,
      hnamelen.trans hname, fun h => absurd (of_decide_eq_true h) haddr⟩
    simp only [readDnsAnswer, hfetch, hstore, hret, if_false, htype, hclass, httl,
      hlength, haddr, bind, Except.bind, pure, Except.pure, hsize]
    simp [ResourceRecord.isAddress, haddr]

end Record

section Sections

/-- The address records among the answers. -/
def addressRecords (records : List ResourceRecord) : List ResourceRecord :=
  records.filter ResourceRecord.isAddress

theorem RecordsAt.wellFormed {records : List ResourceRecord} (h : RecordsAt msg records i e) :
    ∀ r ∈ records, r.WellFormed := by
  induction records generalizing i with
  | nil => simp
  | cons r records ih =>
      obtain ⟨j, hw, -, hmore⟩ := h
      exact List.forall_mem_cons.mpr ⟨hw, ih hmore⟩

theorem skipQuestions_questions (h : QuestionsAt msg n i e) (rest : Bytes) :
    skipQuestions (msg ++ rest) n i = .ok (e : ℤ) := by
  induction n generalizing i with
  | zero =>
      rw [QuestionsAt] at h
      rw [h]
      rfl
  | succ n ih =>
      obtain ⟨seg, j, hname, -, hmore⟩ := h
      have hskip := hname.skipQuestion rfl rest
      simp only [skipQuestions, hskip, bind, Except.bind]
      exact ih hmore

private theorem mem_set_name {answers : List Answer} {dest : Answer}
    (hnames : ∀ a ∈ answers, a.name.length = maxNameLength)
    (hdest : dest.name.length = maxNameLength) (cnt : ℕ) :
    ∀ a ∈ answers.set cnt dest, a.name.length = maxNameLength := by
  intro a ha
  rcases List.mem_or_eq_of_mem_set ha with hmem | rfl
  · exact hnames a hmem
  · exact hdest

/-- The loop fills one entry for each address record and overwrites the entry after the
last one with the other records. -/
theorem readAnswerLoop_records {records : List ResourceRecord} {answers : List Answer}
    {cnt : ℕ} (h : RecordsAt msg records i e)
    (hnames : ∀ a ∈ answers, a.name.length = maxNameLength)
    (hroom : cnt + (addressRecords records).length < answers.length) (rest : Bytes) :
    ∃ answers', readAnswerLoop (msg ++ rest) records.length answers i cnt =
        .ok (answers', cnt + (addressRecords records).length) ∧
      answers'.length = answers.length ∧
      (∀ k < cnt, answers'[k]? = answers[k]?) ∧
      ∀ (k : ℕ) r, (addressRecords records)[k]? = some r →
        ∃ a, answers'[cnt + k]? = some a ∧ Decoded a r := by
  induction records generalizing i answers cnt with
  | nil => exact ⟨answers, rfl, rfl, fun _ _ => rfl, by simp [addressRecords]⟩
  | cons r records ih =>
      obtain ⟨j, hw, hr, hmore⟩ := h
      have hlt : cnt < answers.length := by omega
      have hcell : answers[cnt]? = some answers[cnt] := List.getElem?_eq_getElem hlt
      obtain ⟨dest, hread, hlen, hdec⟩ :=
        readDnsAnswer_record hw hr (hnames _ (List.getElem_mem hlt)) rest
      have hpos : (i : ℤ) + ((j : ℤ) - i) = j := by omega
      have hset := mem_set_name hnames hlen cnt
      cases haddr : r.isAddress with
      | true =>
          have hcons : addressRecords (r :: records) = r :: addressRecords records := by
            simp [addressRecords, haddr]
          rw [hcons, List.length_cons] at hroom
          obtain ⟨answers', hloop, hlen', hframe, hall⟩ :=
            ih hmore hset (show cnt + 1 + _ < _ by simp only [List.length_set]; omega)
          refine ⟨answers', ?_, by simpa using hlen', ?_, ?_⟩
          · simp only [readAnswerLoop, List.length_cons, hcell, hread, bind, Except.bind, haddr,
              if_true, hpos, hloop, hcons]
            congr 2
            omega
          · intro k hk
            rw [hframe k (by omega), List.getElem?_set_ne (by omega)]
          · intro k r' hk
            rw [hcons] at hk
            cases k with
            | zero =>
                obtain rfl : r = r' := by simpa using hk
                refine ⟨dest, ?_, hdec haddr⟩
                rw [Nat.add_zero, hframe cnt (by omega), List.getElem?_set_self hlt]
            | succ k =>
                obtain ⟨a, ha, hda⟩ := hall k r' (by simpa using hk)
                exact ⟨a, by rwa [show cnt + (k + 1) = cnt + 1 + k by omega], hda⟩
      | false =>
          have hcons : addressRecords (r :: records) = addressRecords records := by
            simp [addressRecords, haddr]
          rw [hcons] at hroom ⊢
          obtain ⟨answers', hloop, hlen', hframe, hall⟩ :=
            ih hmore hset (show cnt + _ < _ by simpa using hroom)
          refine ⟨answers', ?_, by simpa using hlen', ?_, hall⟩
          · simp only [readAnswerLoop, List.length_cons, hcell, hread, bind, Except.bind, haddr,
              if_false, Bool.false_eq_true, hpos, hloop]
          · intro k hk
            rw [hframe k hk, List.getElem?_set_ne (by omega)]

/-- `read_dns_answers` delivers the address records of a response in message order. -/
theorem readDnsAnswers_response (msg rest : Bytes) (questions : ℕ)
    (records : List ResourceRecord) (h : Response msg questions records)
    (answers : List Answer) (hnames : ∀ a ∈ answers, a.name.length = maxNameLength)
    (hroom : (addressRecords records).length + 1 ≤ answers.length) :
    ∃ answers', readDnsAnswers answers (msg ++ rest) =
        .ok (answers', (addressRecords records).length) ∧
      ∀ (k : ℕ) r, (addressRecords records)[k]? = some r →
        ∃ a, answers'[k]? = some a ∧ Decoded a r := by
  obtain ⟨j, e, hquestions, hrecords⟩ := h.sections
  have han : readU16 (msg ++ rest) 6 = .ok records.length := by
    exact_mod_cast readU16_of_hasAt h.ancount_lt (h.ancount.append_right rest)
  have hqd : readU16 (msg ++ rest) 4 = .ok questions := by
    exact_mod_cast readU16_of_hasAt h.qdcount_lt (h.qdcount.append_right rest)
  have hskip : skipQuestions (msg ++ rest) questions dnsHeaderSize = .ok (j : ℤ) :=
    skipQuestions_questions hquestions rest
  obtain ⟨answers', hloop, -, -, hall⟩ :=
    readAnswerLoop_records hrecords hnames (show 0 + _ < _ by omega) rest
  refine ⟨answers', ?_, by simpa using hall⟩
  simp only [readDnsAnswers, han, hqd, hskip, bind, Except.bind]
  simpa using hloop

private def sampleResponse : Bytes :=
  [0, 1, 0x81, 0x80, 0, 1, 0, 2, 0, 0, 0, 0, 1, 97, 0, 0, 1, 0, 1,
    1, 98, 0xc0, 12, 0, 5, 0, 1, 0, 0, 0, 60, 0, 2, 0xc0, 12,
    0xc0, 12, 0, 1, 0, 1, 0, 0, 0, 60, 0, 4, 1, 2, 3, 4]

private def sampleRecords : List ResourceRecord :=
  [⟨[[[98]], [[97]]], 5, 1, 60, [0xc0, 12]⟩, ⟨[[], [[97]]], 1, 1, 60, [1, 2, 3, 4]⟩]

private theorem sampleResponse_spec : Response sampleResponse 1 sampleRecords := by
  have hname : NameAt sampleResponse 12 [[[97]]] 15 :=
    .label (by decide) (by decide) (by decide) (.zero (by decide))
  refine ⟨by decide, by decide, by decide, by decide, by decide, 19, 51, ?_, ?_⟩
  · exact ⟨_, 15, hname, by decide, rfl⟩
  · refine ⟨35, ⟨by decide, by decide, by decide, by decide, by decide, by decide, by decide,
      by decide, by decide⟩, ⟨23, ?_, by decide, rfl⟩, 51, ⟨by decide, by decide, by decide,
      by decide, by decide, by decide, by decide, by decide, by decide⟩, ⟨37, ?_, by decide, rfl⟩,
      rfl⟩
    · exact .label (by decide) (by decide) (by decide) (.pointer (by decide) (by decide) hname)
    · exact .pointer (by decide) (by decide) hname

private def blankAnswers : List Answer :=
  List.replicate 2 ⟨List.replicate maxNameLength 0, ⟨Vector.replicate 16 0, 0⟩, 0, 0, 0⟩

private theorem blankAnswers_name : ∀ a ∈ blankAnswers, a.name.length = maxNameLength := by
  intro a ha
  rw [List.eq_of_mem_replicate ha]
  exact List.length_replicate

/-- A response with an alias record before the address record. -/
theorem readDnsAnswers_response_sample :
    ∃ answers', readDnsAnswers blankAnswers (sampleResponse ++ [7, 7]) = .ok (answers', 1) ∧
      ∃ a, answers'[0]? = some a ∧ Decoded a ⟨[[], [[97]]], 1, 1, 60, [1, 2, 3, 4]⟩ := by
  obtain ⟨answers', hread, hall⟩ := readDnsAnswers_response sampleResponse [7, 7] 1
    sampleRecords sampleResponse_spec blankAnswers blankAnswers_name (by decide)
  exact ⟨answers', hread, hall 0 _ rfl⟩

end Sections

end DnsRelay.Message
