import DnsRelay.Message.Answers
import DnsRelay.Message.Writers

/-!
# Reading back what was written

The writer emits uncompressed owner names. For these `fetch_label` reports the position of
the zero byte as the end of the name, and `read_dns_answer`, unlike `read_dns_questions`,
does not step over it: the fixed fields are read one byte too early. The first record of
every written answer section is taken for one of type zero and dropped.
-/

namespace DnsRelay.Message

open DnsRelay.Lib DnsRelay.Lib.Machine

variable {buffer buffer' : Bytes} {i d n cnt : ℕ} {a : Answer} {answers : List Answer}

/-- An address record with a host name that can be written. -/
structure ValidAnswer (a : Answer) : Prop where
  host : ∃ labels, labels ≠ [] ∧ (∀ label ∈ labels, ValidLabel label) ∧
    (dotted labels).length ≤ 253 ∧ cString a.name = .ok (dotted labels)
  type : a.type = rrtypeA ∨ a.type = rrtypeAAAA
  class_lt : a.class_ < 65536
  ttl_lt : a.ttl < 2 ^ 31

/-- A request with one question, whose name is uncompressed. -/
structure SingleQuestion (request : Bytes) : Prop where
  qdcount : HasAt request 4 (u16Bytes 1)
  question : ∃ seg e, NameAt request 12 [seg] e ∧ e + 4 ≤ request.length

/-- Two entries agree on everything that is sent. -/
structure SameAnswer (a a' : Answer) : Prop where
  name : cString a'.name = cString a.name
  type : a'.type = a.type
  class_ : a'.class_ = a.class_
  ttl : a'.ttl = a.ttl
  address : a'.address.addr.toList.take (addrSize a.type) =
    a.address.addr.toList.take (addrSize a.type)

/-- Decoding the encoded answers gives them back. -/
def RoundTrips (request : Bytes) (answers dest : List Answer) : Prop :=
  ∃ buffer size dest', writeDnsResponseByQuery request answers = .ok (buffer, size) ∧
    readDnsAnswers dest buffer = .ok (dest', answers.length) ∧
    ∀ (k : ℕ) a, answers[k]? = some a → ∃ a', dest'[k]? = some a' ∧ SameAnswer a a'

section Written

/-- The first record stays where it was written; later ones go behind it. -/
theorem writeAnswerLoop_ok {ret : ℤ} (hv : ∀ a ∈ answers, ValidAnswer a)
    (h : writeAnswerLoop answers buffer d = .ok (buffer', ret)) :
    (∃ q, ChangedIn buffer buffer' d q) ∧
      ∀ a ∈ answers.head?, ∃ labels ttl rdata, labels ≠ [] ∧
        (∀ label ∈ labels, ValidLabel label) ∧
        HasAt buffer' d (answerBytes labels a.type a.class_ ttl rdata) := by
  induction answers generalizing buffer d with
  | nil =>
      cases h
      exact ⟨⟨d, .refl⟩, by simp⟩
  | cons a answers ih =>
      obtain ⟨name, hname, h⟩ := bind_eq_ok.mp h
      obtain ⟨⟨b₁, size⟩, hw, h⟩ := bind_eq_ok.mp h
      have ha := hv a (by simp)
      obtain ⟨labels, hne, hlabels, hlen, hstr⟩ := ha.host
      rw [hstr] at hname
      cases hname
      have hmax : (dotted labels).length < maxDnsSize := by
        simp only [maxDnsSize]
        omega
      obtain ⟨hwrote, rfl⟩ := writeDnsAnswer_ok hne hlabels hmax ha.type (by simp) hw
      have hcast : ∀ m : ℕ, (d : ℤ) + (m : ℤ) = ((d + m : ℕ) : ℤ) := fun m => by
        push_cast
        rfl
      simp only [hcast] at h
      obtain ⟨⟨q, hc⟩, -⟩ := ih (fun x hx => hv x (List.mem_cons_of_mem _ hx)) h
      constructor
      · exact ⟨_, hwrote.changed.extend hc (Nat.le_add_right _ _)⟩
      · intro x hx
        obtain rfl : a = x := by simpa using hx
        exact ⟨labels, _, _, hne, hlabels, hwrote.here.changed hc (by omega)⟩

end Written

section Read

/-- An uncompressed record is decoded one byte too early, as one of type zero. -/
theorem readDnsAnswer_uncompressed {labels : List Bytes} {type class_ ttl : ℕ} {rdata : Bytes}
    {dest dest' : Answer} {size : ℤ} {good : Bool} (hne : labels ≠ [])
    (hlabels : ∀ label ∈ labels, ValidLabel label) (htype : type < 256)
    (hat : HasAt buffer d (answerBytes labels type class_ ttl rdata))
    (h : readDnsAnswer dest buffer d = .ok (dest', size, good)) : good = false := by
  simp only [answerBytes, hasAt_append] at hat
  obtain ⟨⟨⟨⟨⟨hname, ht⟩, -⟩, -⟩, -⟩, -⟩ := hat
  have hfetch := (nameAt_wireName hlabels hname).fetchLabel []
  rw [List.append_nil] at hfetch
  have hwl : (wireName labels).length = (wireLabels labels).length + 1 := by simp [wireName]
  have hnext : nextOf [labels] (d + (wireName labels).length) =
      ((d + (wireLabels labels).length : ℕ) : ℤ) := by
    simp only [nextOf, List.length_singleton, if_true, hwl]
    push_cast
    omega
  have hzero : HasAt buffer (d + (wireLabels labels).length) (u16Bytes 0) := by
    rw [wireName, hasAt_append] at hname
    have hhi : UInt8.ofNat (type / 256) = 0 := by
      rw [Nat.div_eq_of_lt htype]
      rfl
    rw [hwl] at ht
    simp only [u16Bytes, hasAt_cons, hhi] at ht
    exact hasAt_cons.mpr ⟨(hasAt_cons.mp hname.2).1, hasAt_cons.mpr ⟨ht.1, hasAt_nil⟩⟩
  have hread := readU16_of_hasAt (by decide) hzero
  have hret : ((lastCount 0 [labels] : ℕ) : ℤ) - 1 ≠ -1 := by
    have hpos : 0 < lastCount 0 [labels] := lastCount_pos (by simp) (by simpa using hne) 0
    omega
  obtain ⟨f, hf, h⟩ := bind_eq_ok.mp h
  rw [hfetch] at hf
  cases hf
  obtain ⟨name, -, h⟩ := bind_eq_ok.mp h
  rw [if_neg hret, hnext] at h
  obtain ⟨type', hty, h⟩ := bind_eq_ok.mp h
  rw [hread] at hty
  cases hty
  obtain ⟨_, -, h⟩ := bind_eq_ok.mp h
  obtain ⟨_, -, h⟩ := bind_eq_ok.mp h
  obtain ⟨_, -, h⟩ := bind_eq_ok.mp h
  have hzero : ¬ (0 = rrtypeA ∨ 0 = rrtypeAAAA) := by decide
  simp only [hzero, if_false] at h
  cases h
  rfl

/-- Every round of the loop counts at most one record. -/
theorem readAnswerLoop_le {dest dest' : List Answer} {pos : ℤ} {c : ℕ}
    (h : readAnswerLoop buffer n dest pos cnt = .ok (dest', c)) : c ≤ cnt + n := by
  induction n generalizing dest pos cnt with
  | zero =>
      cases h
      exact le_rfl
  | succ n ih =>
      rw [readAnswerLoop] at h
      split at h
      · cases h
      · obtain ⟨⟨d', size, good⟩, -, h⟩ := bind_eq_ok.mp h
        have := ih h
        cases good <;> simp at this <;> omega

end Read

section Response

variable {request : Bytes}

/-- The header writes and the skip over the first question, before any answer is
written. -/
theorem writeResponse_front {seg : List Bytes} {e : ℕ} (hname : NameAt request 12 [seg] e)
    (he : e + 4 ≤ request.length) (count : ℕ) :
    ∃ b, setHeaderFlag request flagResponseNormal >>=
        (fun b => writeBytes b 6 (u16Bytes count)) = .ok b ∧
      b.length = request.length ∧ HasAt b 2 (u16Bytes flagResponseNormal) ∧
      HasAt b 6 (u16Bytes count) ∧ skipToAnswer b = .ok ((e + 4 : ℕ) : ℤ) ∧
      ∀ k, k < 2 ∨ (4 ≤ k ∧ k < 6) ∨ 8 ≤ k → b[k]? = request[k]? := by
  have hlt : 12 < e := (hname.congr rfl fun _ _ _ => rfl).1
  obtain ⟨b₁, hw₁⟩ := writeBytes_of_le
    (show 2 + (u16Bytes flagResponseNormal).length ≤ request.length by rw [u16Bytes_length]; omega)
  obtain ⟨hc₁, hat₁⟩ := writeBytes_ok hw₁
  obtain ⟨b₂, hw₂⟩ := writeBytes_of_le
    (show 6 + (u16Bytes count).length ≤ b₁.length by rw [u16Bytes_length, hc₁.length_eq]; omega)
  obtain ⟨hc₂, hat₂⟩ := writeBytes_ok hw₂
  rw [u16Bytes_length] at hc₁ hc₂
  have hcells : ∀ k, k < 2 ∨ (4 ≤ k ∧ k < 6) ∨ 8 ≤ k → b₂[k]? = request[k]? := by
    intro k hk
    rw [hc₂.outside k (by omega), hc₁.outside k (by omega)]
  have hn : NameAt b₂ 12 [seg] e := (hname.congr rfl fun k h₁ _ => hcells k (by omega)).2
  have hskip := hn.skipQuestion rfl []
  rw [List.append_nil] at hskip
  exact ⟨b₂, bind_eq_ok.mpr ⟨b₁, hw₁, hw₂⟩, hc₂.length_eq.trans hc₁.length_eq,
    hat₁.changed hc₂ (.inl (by rw [u16Bytes_length]; omega)), hat₂, hskip, hcells⟩

/-- The same for a request with one question, which stays in place. -/
theorem writeResponse_header (hq : SingleQuestion request) (answers : List Answer) :
    ∃ b d, setHeaderFlag request flagResponseNormal >>=
        (fun b => writeBytes b 6 (u16Bytes answers.length)) = .ok b ∧
      skipToAnswer b = .ok ((d : ℕ) : ℤ) ∧ SingleQuestion b ∧ 12 ≤ d ∧
      HasAt b 6 (u16Bytes answers.length) ∧
      ∀ b', (∀ k < d, b'[k]? = b[k]?) → skipQuestions b' 1 dnsHeaderSize = .ok (d : ℤ) := by
  obtain ⟨seg, e, hname, he⟩ := hq.question
  have hlt : 12 < e := (hname.congr rfl fun _ _ _ => rfl).1
  obtain ⟨b, hw, hlen, -, hcount, hskip, hcells⟩ := writeResponse_front hname he answers.length
  have hn : NameAt b 12 [seg] e := (hname.congr rfl fun k h₁ _ => hcells k (by omega)).2
  refine ⟨b, e + 4, hw, hskip, ⟨?_, seg, e, hn, by omega⟩, by omega, hcount, fun b' hb' => ?_⟩
  · apply hq.qdcount.congr
    intro k h₁ h₂
    rw [u16Bytes_length] at h₂
    exact hcells k (by omega)
  · have hn' : NameAt b' 12 [seg] e := (hn.congr rfl fun k _ h₂ => hb' k (by omega)).2
    have hskip' : skipQuestion b' dnsHeaderSize = .ok ((e + 4 : ℕ) : ℤ) := by
      have := hn'.skipQuestion rfl []
      rwa [List.append_nil] at this
    simp only [skipQuestions, hskip', bind, Except.bind]

/-- A response with answers is not read back: its first record is not counted. -/
theorem not_roundTrips (hq : SingleQuestion request) (hlen : answers.length < 65536)
    (hv : ∀ a ∈ answers, ValidAnswer a) (hne : answers ≠ []) (dest : List Answer) :
    ¬ RoundTrips request answers dest := by
  obtain ⟨b, d, hheader, hskip, hb, hd, han, hread⟩ := writeResponse_header hq answers
  obtain ⟨b₁, h₁, h₂⟩ := bind_eq_ok.mp hheader
  rintro ⟨buffer, size, dest', hw, hr, -⟩
  obtain ⟨b₁', h₁', hw⟩ := bind_eq_ok.mp hw
  cases h₁.symm.trans h₁'
  obtain ⟨b₂, h₂', hw⟩ := bind_eq_ok.mp hw
  cases h₂.symm.trans h₂'
  obtain ⟨pos, hpos, hw⟩ := bind_eq_ok.mp hw
  cases hskip.symm.trans hpos
  obtain ⟨⟨q, hc⟩, hfirst⟩ := writeAnswerLoop_ok hv hw
  obtain ⟨a, rest, rfl⟩ := List.exists_cons_of_ne_nil hne
  obtain ⟨labels, ttl, rdata, hl, hlabels, hat⟩ := hfirst a (by simp)
  have htype : a.type < 256 := by
    rcases (hv a (by simp)).type with h | h <;> rw [h] <;> decide
  have hcount : readU16 buffer 6 = .ok (rest.length + 1) := by
    have hbuf := han.changed hc (Or.inl (show 6 + 2 ≤ d by omega))
    exact_mod_cast readU16_of_hasAt hlen hbuf
  have hqd : readU16 buffer 4 = .ok 1 := by
    have hbuf := hb.qdcount.changed hc (Or.inl (show 4 + 2 ≤ d by omega))
    exact_mod_cast readU16_of_hasAt (by decide) hbuf
  obtain ⟨ans, hans, hr⟩ := bind_eq_ok.mp hr
  cases hcount.symm.trans hans
  obtain ⟨question, hquestion, hr⟩ := bind_eq_ok.mp hr
  cases hqd.symm.trans hquestion
  obtain ⟨pos, hpos', hr⟩ := bind_eq_ok.mp hr
  rw [hread buffer fun k hk => hc.outside k (.inl hk)] at hpos'
  cases hpos'
  rw [readAnswerLoop] at hr
  split at hr
  · cases hr
  · obtain ⟨⟨a', size', good⟩, ha', hr⟩ := bind_eq_ok.mp hr
    have hgood := readDnsAnswer_uncompressed hl hlabels htype hat ha'
    subst hgood
    have hle := readAnswerLoop_le hr
    simp only [List.length_cons, Bool.false_eq_true, if_false] at hle
    omega

theorem roundTrips_nil (hq : SingleQuestion request) (dest : List Answer) :
    RoundTrips request [] dest := by
  obtain ⟨b, d, hheader, hskip, hb, -, han, hread⟩ := writeResponse_header hq []
  obtain ⟨b₁, h₁, h₂⟩ := bind_eq_ok.mp hheader
  have hcount : readU16 b 6 = .ok 0 := by
    exact_mod_cast readU16_of_hasAt (by decide) han
  have hqd : readU16 b 4 = .ok 1 := by
    exact_mod_cast readU16_of_hasAt (by decide) hb.qdcount
  refine ⟨b, d, dest, ?_, ?_, by simp⟩
  · simp only [writeDnsResponseByQuery, h₁, h₂, hskip, bind, Except.bind]
    rfl
  · simp only [readDnsAnswers, hcount, hqd, hread b fun _ _ => rfl, bind, Except.bind]
    rfl

/-- A response is read back exactly when it has no answers. -/
theorem roundTrips_iff (request : Bytes) (hq : SingleQuestion request) (answers : List Answer)
    (hlen : answers.length < 65536) (hv : ∀ a ∈ answers, ValidAnswer a) (dest : List Answer) :
    RoundTrips request answers dest ↔ answers = [] := by
  constructor
  · intro h
    by_contra hne
    exact not_roundTrips hq hlen hv hne dest h
  · rintro rfl
    exact roundTrips_nil hq dest

private def sampleRequest : Bytes :=
  [0, 1, 1, 0, 0, 1, 0, 0, 0, 0, 0, 0, 1, 97, 0, 0, 1, 0, 1] ++ List.replicate 40 0

private theorem sampleRequest_spec : SingleQuestion sampleRequest :=
  ⟨by decide, [[97]], 15,
    .label (by decide) (by decide) (by decide) (.zero (by decide)), by decide⟩

private def sampleAnswer : Answer :=
  ⟨97 :: List.replicate 255 0, ⟨Vector.replicate 16 7, 1⟩, 1, 1, 60⟩

private theorem sampleAnswer_valid : ValidAnswer sampleAnswer := by
  refine ⟨⟨[[97]], by simp, ?_, by simp [dotted], rfl⟩, .inl rfl, by decide, by decide⟩
  intro label hl
  obtain rfl : label = [97] := by simpa using hl
  exact ⟨by decide, by decide, by decide, by decide⟩

/-- The hypotheses are met by a request for a name and one answer for that name. -/
theorem roundTrips_iff_sample :
    RoundTrips sampleRequest [sampleAnswer] [sampleAnswer, sampleAnswer] ↔
      [sampleAnswer] = [] :=
  roundTrips_iff sampleRequest sampleRequest_spec [sampleAnswer] (by decide)
    (by simpa using sampleAnswer_valid) [sampleAnswer, sampleAnswer]

/-- One answer for the name of the question does not survive the round trip. -/
theorem roundTrip_loses_answer :
    SingleQuestion sampleRequest ∧ (∀ a ∈ [sampleAnswer], ValidAnswer a) ∧
      ¬ RoundTrips sampleRequest [sampleAnswer] [sampleAnswer, sampleAnswer] := by
  have hv : ∀ a ∈ [sampleAnswer], ValidAnswer a := by simpa using sampleAnswer_valid
  exact ⟨sampleRequest_spec, hv, not_roundTrips sampleRequest_spec (by decide) hv (by simp) _⟩

end Response

end DnsRelay.Message
