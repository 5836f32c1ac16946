import DnsRelay.Message.Answers
import DnsRelay.Message.Writers
import Mathlib.Data.List.TakeWhile

/-!
# Decoding questions

A question with an uncompressed name is read as it stands in the message, whatever
follows it and whatever the question structure held before.
-/

namespace DnsRelay.Message

open DnsRelay.Lib DnsRelay.Lib.Machine

variable {buffer array text : Bytes} {labels : List Bytes} {qtype qclass : ℕ}

/-- The string at the start of an array is what comes before its first NUL. -/
theorem cString_eq_ok :
    cString array = .ok text ↔ 0 ∉ text ∧ ∃ rest, array = text ++ 0 :: rest := by
  constructor
  · intro h
    unfold cString at h
    split at h
    next h0 =>
      cases h
      constructor
      · intro hmem
        simpa using List.mem_takeWhile_imp hmem
      · have hne : array.dropWhile (· != 0) ≠ [] := by
          rw [ne_eq, List.dropWhile_eq_nil_iff]
          intro hall
          simpa using hall 0 h0
        obtain ⟨b, rest, hrest⟩ := List.exists_cons_of_ne_nil hne
        have hb := List.head_dropWhile_not (· != 0) hne
        simp only [hrest, List.head_cons, bne_eq_false_iff_eq] at hb
        subst hb
        refine ⟨rest, ?_⟩
        rw [← hrest, List.takeWhile_append_dropWhile]
    next => cases h
  · rintro ⟨h0, rest, rfl⟩
    have htake : (text ++ 0 :: rest).takeWhile (· != 0) = text := by
      rw [List.takeWhile_append_of_pos]
      · simp
      · intro b hb
        simp only [bne_iff_ne, ne_eq]
        rintro rfl
        exact h0 hb
    rw [cString, if_pos (by simp), htake]

theorem cString_of_hasAt (h : HasAt array 0 (text ++ [0])) (h0 : 0 ∉ text) :
    cString array = .ok text := by
  obtain ⟨rest, rfl⟩ := h.front
  exact cString_eq_ok.mpr ⟨h0, rest, by simp⟩

theorem zero_notMem_dotted (h : ∀ label ∈ labels, ValidLabel label) : 0 ∉ dotted labels := by
  induction labels with
  | nil => simp [dotted]
  | cons label labels ih =>
      have hlabel := (h label (by simp)).no_nul
      have hrest := ih fun l hl => h l (List.mem_cons_of_mem _ hl)
      cases labels with
      | nil => simpa [dotted] using hlabel
      | cons label' labels =>
          rw [dotted_cons_cons]
          simp only [List.mem_append, List.mem_cons, not_or]
          exact ⟨hlabel, by decide, hrest⟩

theorem readU16_of_lt {i : ℕ} (h : i + 1 < buffer.length) : ∃ x, readU16 buffer i = .ok x := by
  have hhi := readByte_natCast.mpr (List.getElem?_eq_getElem (show i < buffer.length by omega))
  have hlo : readByte buffer ((i : ℤ) + 1) = .ok buffer[i + 1] := by
    exact_mod_cast readByte_natCast.mpr (List.getElem?_eq_getElem h)
  simp [readU16, hhi, hlo, bind, Except.bind, pure, Except.pure]

/-- Any two bytes are a field. -/
theorem exists_u16Bytes {i : ℕ} (h : i + 2 ≤ buffer.length) :
    ∃ x < 65536, HasAt buffer i (u16Bytes x) := by
  have hi : i < buffer.length := by omega
  have hi' : i + 1 < buffer.length := by omega
  have hhi := buffer[i].toNat_lt
  have hlo := buffer[i + 1].toNat_lt
  refine ⟨buffer[i].toNat * 256 + buffer[i + 1].toNat, by omega, ?_⟩
  have hdiv : (buffer[i].toNat * 256 + buffer[i + 1].toNat) / 256 = buffer[i].toNat := by omega
  simp only [u16Bytes, hasAt_cons, hasAt_nil, and_true, List.getElem?_eq_getElem hi,
    List.getElem?_eq_getElem hi', Option.some.injEq, hdiv, UInt8.ofNat_toNat, true_and]
  apply UInt8.toNat_inj.mp
  simp only [UInt8.toNat_ofNat']
  omega

/-- The bytes of a question section with one question. -/
def questionBytes (labels : List Bytes) (qtype qclass : ℕ) : Bytes :=
  wireName labels ++ u16Bytes qtype ++ u16Bytes qclass

/-- A message with one question of class 1 and nothing else. -/
def questionMessage (id flags : ℕ) (labels : List Bytes) (qtype : ℕ) : Bytes :=
  u16Bytes id ++ u16Bytes flags ++ u16Bytes 1 ++ [0, 0, 0, 0, 0, 0] ++
    questionBytes labels qtype 1

theorem hasAt_questionMessage (id flags : ℕ) (labels : List Bytes) (qtype : ℕ) :
    HasAt (questionMessage id flags labels qtype) 0 (u16Bytes id) ∧
    HasAt (questionMessage id flags labels qtype) 2 (u16Bytes flags) ∧
    HasAt (questionMessage id flags labels qtype) 4 (u16Bytes 1) ∧
    HasAt (questionMessage id flags labels qtype) 12 (questionBytes labels qtype 1) := by
  refine ⟨?_, ?_, ?_, hasAt_length_append _ _⟩ <;> simp [questionMessage, u16Bytes]

theorem questionMessage_length (id flags : ℕ) (hne : labels ≠ []) :
    (questionMessage id flags labels qtype).length = (dotted labels).length + 18 := by
  simp only [questionMessage, questionBytes, u16Bytes, List.length_append, List.length_cons,
    List.length_nil, wireName_length hne]
  omega

/-- `read_dns_question` on an uncompressed name: the type and the class are read from the zero
byte on. -/
theorem readDnsQuestion_wireName {question : Question} (hne : labels ≠ [])
    (hlabels : ∀ label ∈ labels, ValidLabel label)
    (hlen : (dotted labels).length < question.label.length)
    (hname : HasAt buffer 12 (wireName labels))
    (hend : 12 + (wireName labels).length + 3 ≤ buffer.length) :
    ∃ label t c, readDnsQuestion question buffer dnsHeaderSize =
        .ok (⟨label, t, c⟩, (wireName labels).length) ∧
      label.length = question.label.length ∧ cString label = .ok (dotted labels) := by
  have hw := wireName_length hne
  have hfetch := (nameAt_wireName hlabels hname).fetchLabel []
  have hret : ¬ ((lastCount 0 [labels] : ℕ) : ℤ) - 1 < 0 := by
    have : 0 < lastCount 0 [labels] := lastCount_pos (by simp) (by simpa using hne) 0
    omega
  obtain ⟨label, hstore, hlabel, hlabelat⟩ := storeName_dotted hne hlen
  obtain ⟨t, hzero⟩ := readU16_of_lt (show 12 + (wireName labels).length - 1 + 1 < buffer.length by
    omega)
  obtain ⟨c, hzero'⟩ := readU16_of_lt (show 12 + (wireName labels).length + 1 + 1 < buffer.length by
    omega)
  refine ⟨label, t, c, ?_, hlabel, cString_of_hasAt hlabelat (zero_notMem_dotted hlabels)⟩
  have hnext : nextOf [labels] (12 + (wireName labels).length) =
      ((12 + (wireName labels).length - 1 : ℕ) : ℤ) := by
    simp only [nextOf, List.length_singleton, if_true]
    omega
  have hnext' : ((12 + (wireName labels).length - 1 : ℕ) : ℤ) + 2 =
      ((12 + (wireName labels).length + 1 : ℕ) : ℤ) := by omega
  have hsize : ((12 + (wireName labels).length - 1 : ℕ) : ℤ) - 12 + 1 =
      (wireName labels).length := by omega
  rw [List.append_nil, hnext] at hfetch
  have hfetch' : fetchLabel buffer 12 = _ := hfetch
  simp only [readDnsQuestion, dnsHeaderSize, hfetch', List.flatten_singleton, hstore, hret,
    if_false, hzero, hnext', hzero', hsize, bind, Except.bind, pure, Except.pure]

/-- `read_dns_questions` on an uncompressed question. -/
theorem readDnsQuestions_wireName {question : Question} {n : ℕ} (hne : labels ≠ [])
    (hlabels : ∀ label ∈ labels, ValidLabel label)
    (hlen : (dotted labels).length < question.label.length) (hn : n < 65536)
    (hqtype : qtype < 65536) (hqclass : qclass < 65536) (hcount : HasAt buffer 4 (u16Bytes n))
    (hat : HasAt buffer 12 (questionBytes labels qtype qclass)) :
    ∃ label, readDnsQuestions question buffer = .ok (⟨label, qtype, qclass⟩, n) ∧
      label.length = question.label.length ∧ cString label = .ok (dotted labels) := by
  rw [questionBytes, List.append_assoc, hasAt_append, hasAt_append] at hat
  obtain ⟨hname, ht, hc⟩ := hat
  have hend := hc.le_length (by simp [u16Bytes])
  simp only [u16Bytes, List.length_cons, List.length_nil] at hend hc
  obtain ⟨label, t, c, hread, hlabel, hstring⟩ :=
    readDnsQuestion_wireName hne hlabels hlen hname (by omega)
  have hcount' : readU16 buffer 4 = .ok n := readU16_of_hasAt hn hcount
  have ht' : readU16 buffer ((12 + (wireName labels).length : ℕ) : ℤ) = .ok qtype :=
    readU16_of_hasAt hqtype ht
  have hc' : readU16 buffer ((12 + (wireName labels).length + 2 : ℕ) : ℤ) = .ok qclass :=
    readU16_of_hasAt hqclass hc
  refine ⟨label, ?_, hlabel, hstring⟩
  have hpos : dnsHeaderSize + (wireName labels).length =
      ((12 + (wireName labels).length : ℕ) : ℤ) := by
    push_cast
    rfl
  have hpos' : ((12 + (wireName labels).length : ℕ) : ℤ) + 2 =
      ((12 + (wireName labels).length + 2 : ℕ) : ℤ) := by
    push_cast
    rfl
  simp only [readDnsQuestions, hcount', hread, hpos, ht', hpos', hc', bind, Except.bind, pure,
    Except.pure]

end DnsRelay.Message
