import DnsRelay.Message.Questions

/-!
# Writing a query and reading it back

`write_dns_query` leaves a message with one question, and `read_dns_questions` finds the
host name, the type and the class in it. In the other direction `str_to_label` restores
the wire format of a name from the string that `fetch_label` makes of it.
-/

namespace DnsRelay.Message

open DnsRelay.Lib DnsRelay.Lib.Machine

variable {buffer buffer' host : Bytes} {labels : List Bytes} {d maxlen lastPos cumulate j : ℕ}

section Room

/-- The loop of `str_to_label` runs through a host name for which there is room. -/
theorem strToLabelLoop_of_le (buffer host : Bytes) (lastPos cumulate : ℕ)
    (hmax : j + host.length ≤ maxlen) (hpos : lastPos < j)
    (hroom : d + j + host.length ≤ buffer.length) :
    ∃ buffer' lastPos' cumulate', strToLabelLoop d maxlen host lastPos cumulate j buffer =
        .ok (buffer', some (lastPos', cumulate', j + host.length)) ∧
      buffer'.length = buffer.length ∧ lastPos' < j + host.length := by
  induction host generalizing lastPos cumulate j buffer with
  | nil => exact ⟨buffer, lastPos, cumulate, rfl, rfl, hpos⟩
  | cons ch host ih =>
      simp only [List.length_cons] at hmax hroom
      have hlen : j + (ch :: host).length = j + 1 + host.length := by
        simp only [List.length_cons]
        omega
      rw [strToLabelLoop, if_pos (by omega), hlen]
      split
      · have hw : writeByte buffer ((d : ℤ) + lastPos) (UInt8.ofNat cumulate) =
            .ok (buffer.set (d + lastPos) (UInt8.ofNat cumulate)) := by
          exact_mod_cast writeByte_of_lt (i := d + lastPos) (by omega)
        obtain ⟨buffer', p, c, hloop, hlength, hp⟩ :=
          ih (buffer.set (d + lastPos) (UInt8.ofNat cumulate)) j 0
            (show j + 1 + host.length ≤ maxlen by omega) (by omega) (by
              rw [List.length_set]
              omega)
        refine ⟨buffer', p, c, ?_, by simpa using hlength, hp⟩
        simp only [hw, bind, Except.bind, hloop]
      · have hw : writeByte buffer ((d : ℤ) + j) ch = .ok (buffer.set (d + j) ch) := by
          exact_mod_cast writeByte_of_lt (i := d + j) (by omega)
        obtain ⟨buffer', p, c, hloop, hlength, hp⟩ :=
          ih (buffer.set (d + j) ch) lastPos (cumulate + 1)
            (show j + 1 + host.length ≤ maxlen by omega) (by omega) (by
              rw [List.length_set]
              omega)
        refine ⟨buffer', p, c, ?_, by simpa using hlength, hp⟩
        simp only [hw, bind, Except.bind, hloop]

/-- `str_to_label` returns when there is room for the name. -/
theorem strToLabel_of_le (hmax : host.length < maxlen)
    (hroom : d + host.length + 2 ≤ buffer.length) :
    ∃ buffer' ret, strToLabel buffer d host maxlen = .ok (buffer', ret) := by
  obtain ⟨b₁, p, c, hloop, hlen, hp⟩ := strToLabelLoop_of_le (d := d) buffer host 0 0
    (show 1 + host.length ≤ maxlen by omega) (by omega) (by omega)
  have h₁ : writeByte b₁ ((d : ℤ) + p) (UInt8.ofNat c) =
      .ok (b₁.set (d + p) (UInt8.ofNat c)) := by
    exact_mod_cast writeByte_of_lt (i := d + p) (by omega)
  have h₂ : writeByte (b₁.set (d + p) (UInt8.ofNat c)) ((d : ℤ) + ((1 + host.length : ℕ) : ℤ)) 0 =
      .ok ((b₁.set (d + p) (UInt8.ofNat c)).set (d + (1 + host.length)) 0) := by
    have hlt : d + (1 + host.length) < (b₁.set (d + p) (UInt8.ofNat c)).length := by
      rw [List.length_set]
      omega
    exact_mod_cast writeByte_of_lt hlt
  simp only [strToLabel, hloop, strToLabelEnd, bind, Except.bind, h₁, h₂]
  exact ⟨_, _, rfl⟩

/-- Two writes, one right in front of the other. -/
theorem Wrote.prepend {s t b₁ : Bytes} (h : Wrote buffer b₁ (d + s.length) t)
    (h' : Wrote b₁ buffer' d s) : Wrote buffer buffer' d (s ++ t) := by
  constructor
  · rw [List.length_append]
    refine ChangedIn.trans (h.changed.mono ?_ ?_) (h'.changed.mono ?_ ?_) <;> omega
  · rw [hasAt_append]
    exact ⟨h'.here, h.here.changed h'.changed (by omega)⟩

end Room

section Query

variable {qtype : ℕ}

/-- The header of a query: the id, the flags and the counts. -/
theorem writeDnsHeader_query (rand : ℕ) (h : 12 ≤ buffer.length) :
    writeDnsHeader buffer 0 (-1) rand flagQuery 1 0 0 0 =
      .ok (u16Bytes (htons rand) ++ u16Bytes flagQuery ++ u16Bytes 1 ++ [0, 0, 0, 0, 0, 0] ++
        buffer.drop 12, dnsHeaderSize) := by
  match buffer, h with
  | _ :: _ :: _ :: _ :: _ :: _ :: _ :: _ :: _ :: _ :: _ :: _ :: rest, _ => rfl

/-- `write_dns_question` of a host name for which there is room. -/
theorem writeDnsQuestion_host (hne : labels ≠ []) (hlabels : ∀ label ∈ labels, ValidLabel label)
    (hlen : (dotted labels).length < maxDnsSize) (hqtype : qtype < 65536)
    (hroom : d + (dotted labels).length + 6 ≤ buffer.length) :
    ∃ buffer', writeDnsQuestion buffer d (dotted labels) httpClass qtype =
        .ok (buffer', (dotted labels).length + 6) ∧
      Wrote buffer buffer' d (questionBytes labels qtype 1) := by
  have hname : d + (dotted labels).length + 2 ≤ buffer.length := by omega
  obtain ⟨b₁, ret, hname⟩ := strToLabel_of_le hlen hname
  obtain ⟨hw, rfl⟩ := strToLabel_host hne hlabels hlen hname
  have hwl := wireName_length hne
  have hb₁ := hw.changed.length_eq
  have h₂ : d + (wireName labels).length + 2 + (u16Bytes 1).length ≤ b₁.length := by
    simp only [u16Bytes, List.length_cons, List.length_nil]
    omega
  obtain ⟨b₂, hclass⟩ := writeBytes_of_le h₂
  have hwc := writeBytes_ok hclass
  have h₀ : d + (wireName labels).length + (u16Bytes qtype).length ≤ b₂.length := by
    simp only [u16Bytes, List.length_cons, List.length_nil, hwc.changed.length_eq]
    omega
  obtain ⟨b₃, htype⟩ := writeBytes_of_le h₀
  have hwt := writeBytes_ok htype
  refine ⟨b₃, ?_, ?_⟩
  · have hcount : ((wireName labels).length : ℤ) ≠ -1 := by omega
    have hfield : field16 qtype = qtype := by
      rw [field16, if_pos ⟨by omega, by omega⟩, Int.toNat_natCast]
    have hclass' : writeBytes b₁ ((d : ℤ) + (wireName labels).length + 2)
        (u16Bytes (field16 httpClass)) = .ok b₂ := by
      exact_mod_cast hclass
    have htype' : writeBytes b₂ ((d : ℤ) + (wireName labels).length) (u16Bytes (field16 qtype)) =
        .ok b₃ := by
      rw [hfield]
      exact_mod_cast htype
    have hsize : ((wireName labels).length : ℤ) + 4 = (dotted labels).length + 6 := by omega
    simp only [writeDnsQuestion, hname, hcount, if_false, hclass', htype', bind, Except.bind, hsize]
    rfl
  · rw [questionBytes, List.append_assoc]
    exact hw.append (hwc.prepend hwt)

/-- The bytes that `write_dns_query` leaves: one question and nothing else. -/
theorem writeDnsQuery_host (rand : ℕ) (hne : labels ≠ [])
    (hlabels : ∀ label ∈ labels, ValidLabel label)
    (hlen : (dotted labels).length < maxDnsSize) (hqtype : qtype < 65536)
    (hroom : (dotted labels).length + 18 ≤ buffer.length) :
    ∃ buffer', writeDnsQuery buffer (dotted labels) qtype rand =
        .ok (buffer', 12 + (dotted labels).length + 2 + 4) ∧
      buffer'.take ((dotted labels).length + 18) =
        questionMessage (htons rand) flagQuery labels qtype := by
  have hheader := writeDnsHeader_query rand (show 12 ≤ buffer.length by omega)
  generalize hb : u16Bytes (htons rand) ++ u16Bytes flagQuery ++ u16Bytes 1 ++
    [0, 0, 0, 0, 0, 0] ++ buffer.drop 12 = b₁ at hheader
  have hlen₁ : b₁.length = buffer.length := by
    rw [← hb]
    simp only [u16Bytes, List.length_append, List.length_cons, List.length_nil, List.length_drop]
    omega
  have hroom₁ : 12 + (dotted labels).length + 6 ≤ b₁.length := by omega
  obtain ⟨b₂, hquestion, hw⟩ := writeDnsQuestion_host hne hlabels hlen hqtype hroom₁
  refine ⟨b₂, ?_, ?_⟩
  · have hsize : (12 : ℤ) + ((dotted labels).length + 6) = 12 + (dotted labels).length + 2 + 4 := by
      omega
    have hquestion' : writeDnsQuestion b₁ 12 (dotted labels) httpClass qtype = _ := hquestion
    simp only [writeDnsQuery, hheader, dnsHeaderSize, hquestion', bind, Except.bind, hsize]
    rfl
  · have hfront : HasAt b₁ 0 (u16Bytes (htons rand) ++ u16Bytes flagQuery ++ u16Bytes 1 ++
        [0, 0, 0, 0, 0, 0]) := by
      rw [← hb]
      exact (hasAt_length_append [] _).append_right _
    have hall : HasAt b₂ 0 (questionMessage (htons rand) flagQuery labels qtype) := by
      rw [questionMessage, hasAt_append]
      refine ⟨hfront.changed hw.changed (.inl ?_), hw.here⟩
      simp [u16Bytes]
    rw [← questionMessage_length (htons rand) flagQuery hne]
    obtain ⟨rest, rfl⟩ := hall.front
    exact List.take_left

end Query

/-- A query that was written is read back: one question with the host, the type and class
1, and the size is that of the header, the name and the two fields. Conversely the string
decoded from an uncompressed name is encoded as that name again. -/
theorem query_roundTrip (labels : List Bytes) (hne : labels ≠ [])
    (hlabels : ∀ label ∈ labels, ValidLabel label) (hlen : (dotted labels).length ≤ 253) :
    (∀ (qtype rand : ℕ) (buffer rest : Bytes) (question : Question), qtype ≤ 65535 →
      12 + (dotted labels).length + 2 + 4 ≤ buffer.length →
      question.label.length = maxNameLength →
      ∃ buffer' label, writeDnsQuery buffer (dotted labels) qtype rand =
          .ok (buffer', ((12 + (dotted labels).length + 2 + 4 : ℕ) : ℤ)) ∧
        readDnsQuestions question
            (buffer'.take (12 + (dotted labels).length + 2 + 4) ++ rest) =
          .ok (⟨label, qtype, 1⟩, 1) ∧
        cString label = .ok (dotted labels)) ∧
    ∀ (msg array buffer : Bytes) (i d maxlen : ℕ), HasAt msg i (wireName labels) →
      (dotted labels).length < array.length → (dotted labels).length < maxlen →
      d + (wireName labels).length ≤ buffer.length →
      ∃ fetched name host buffer', fetchLabel msg i = .ok fetched ∧
        storeName array fetched.out = .ok name ∧ cString name = .ok host ∧
        strToLabel buffer d host maxlen = .ok (buffer', (wireName labels).length) ∧
        HasAt buffer' d (wireName labels) := by
  constructor
  · intro qtype rand buffer rest question hqtype hroom hquestion
    have hmax : (dotted labels).length < maxDnsSize := by
      rw [maxDnsSize]
      omega
    obtain ⟨buffer', hwrite, htake⟩ := writeDnsQuery_host rand hne hlabels hmax
      (show qtype < 65536 by omega) (show _ + 18 ≤ buffer.length by omega)
    have hsize : 12 + (dotted labels).length + 2 + 4 = (dotted labels).length + 18 := by omega
    obtain ⟨-, -, hcount, hat⟩ := hasAt_questionMessage (htons rand) flagQuery labels qtype
    have hlabel : (dotted labels).length < question.label.length := by
      rw [hquestion, maxNameLength]
      omega
    obtain ⟨label, hread, -, hstring⟩ := readDnsQuestions_wireName hne hlabels hlabel
      (by decide : 1 < 65536) (show qtype < 65536 by omega) (by decide : 1 < 65536)
      (hcount.append_right rest) (hat.append_right rest)
    refine ⟨buffer', label, ?_, ?_, hstring⟩
    · rw [hwrite]
      push_cast
      rfl
    · rw [hsize, htake]
      exact hread
  · intro msg array buffer i d maxlen hat harray hmax hroom
    have hfetch := (nameAt_wireName hlabels hat).fetchLabel []
    rw [List.append_nil] at hfetch
    obtain ⟨name, hstore, -, hname⟩ := storeName_dotted hne harray
    have hwl := wireName_length hne
    have hroom' : d + (dotted labels).length + 2 ≤ buffer.length := by omega
    obtain ⟨buffer', ret, hwrite⟩ := strToLabel_of_le hmax hroom'
    obtain ⟨hw, rfl⟩ := strToLabel_host hne hlabels hmax hwrite
    refine ⟨_, name, dotted labels, buffer', hfetch, ?_, ?_, hwrite, hw.here⟩
    · simpa using hstore
    · exact cString_of_hasAt hname (zero_notMem_dotted hlabels)

/-- The host `a.b`, in a query and as a name. -/
theorem query_roundTrip_sample :
    (∃ buffer' label, writeDnsQuery (List.replicate 21 7) [97, 46, 98] 28 513 =
        .ok (buffer', 21) ∧
      readDnsQuestions ⟨List.replicate maxNameLength 0, 0, 0⟩ (buffer'.take 21 ++ []) =
        .ok (⟨label, 28, 1⟩, 1) ∧
      cString label = .ok [97, 46, 98]) ∧
    ∃ fetched name host buffer', fetchLabel [1, 97, 1, 98, 0] (0 : ℕ) = .ok fetched ∧
      storeName (List.replicate 4 0) fetched.out = .ok name ∧ cString name = .ok host ∧
      strToLabel (List.replicate 5 7) (0 : ℕ) host 4 = .ok (buffer', (5 : ℕ)) ∧
      HasAt buffer' 0 [1, 97, 1, 98, 0] := by
  have hlabels : ∀ label ∈ [[97], [98]], ValidLabel label := by
    intro label h
    rcases List.mem_pair.mp h with rfl | rfl
    · exact ⟨by decide, by decide, by decide, by decide⟩
    · exact ⟨by decide, by decide, by decide, by decide⟩
  have h := query_roundTrip [[97], [98]] (by decide) hlabels (by decide)
  exact ⟨h.1 28 513 (List.replicate 21 7) [] ⟨List.replicate maxNameLength 0, 0, 0⟩ (by decide)
      (by decide) (by simp),
    h.2 [1, 97, 1, 98, 0] (List.replicate 4 0) (List.replicate 5 7) 0 0 4 (by decide) (by decide)
      (by decide) (by decide)⟩

end DnsRelay.Message
