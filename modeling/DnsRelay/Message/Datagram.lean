import DnsRelay.Message.Questions
import DnsRelay.Message.Sizes

/-!
# Decoding from the received bytes alone

The decoders read a buffer that holds the datagram in front and older bytes behind it,
into structures that hold older contents. The decoders of this module see the received
bytes only, and stop where the others would go on with something older: behind the end of
the datagram, at a name without labels, or at an address that is too short for the type
that was asked for. What they return is what the others return, whatever stood in the
buffer and in the structures.
-/

namespace DnsRelay.Message

open DnsRelay.Lib DnsRelay.Lib.Machine

variable {data : Bytes} {pos : ℤ} {n fuel cnt : ℕ}

section Longer

/-- A read that succeeds is not affected by what follows the buffer. -/
theorem readByte_append {b : UInt8} (h : readByte data pos = .ok b) (rest : Bytes) :
    readByte (data ++ rest) pos = .ok b := by
  obtain ⟨i, rfl, hcell, hlt⟩ := readByte_ok h
  rw [readByte_natCast, List.getElem?_append_left hlt, hcell]

theorem readBytes_append {bytes : Bytes} (h : readBytes data pos n = .ok bytes) (rest : Bytes) :
    readBytes (data ++ rest) pos n = .ok bytes := by
  induction n generalizing pos bytes with
  | zero => exact h
  | succ n ih =>
      obtain ⟨b, hb, h⟩ := bind_eq_ok.mp h
      obtain ⟨bs, hbs, h⟩ := bind_eq_ok.mp h
      cases h
      simp only [readBytes, readByte_append hb rest, ih hbs, bind, Except.bind]
      rfl

theorem readU16_append {x : ℕ} (h : readU16 data pos = .ok x) (rest : Bytes) :
    readU16 (data ++ rest) pos = .ok x := by
  obtain ⟨hi, hhi, h⟩ := bind_eq_ok.mp h
  obtain ⟨lo, hlo, h⟩ := bind_eq_ok.mp h
  cases h
  simp only [readU16, readByte_append hhi rest, readByte_append hlo rest, bind, Except.bind]
  rfl

theorem readU32_append {x : ℕ} (h : readU32 data pos = .ok x) (rest : Bytes) :
    readU32 (data ++ rest) pos = .ok x := by
  obtain ⟨hi, hhi, h⟩ := bind_eq_ok.mp h
  obtain ⟨lo, hlo, h⟩ := bind_eq_ok.mp h
  cases h
  simp only [readU32, readU16_append hhi rest, readU16_append hlo rest, bind, Except.bind]
  rfl

theorem fetchLoop_append {out : Bytes} {f : Fetched} (h : fetchLoop data fuel pos out = .ok f)
    (rest : Bytes) : fetchLoop (data ++ rest) fuel pos out = .ok f := by
  induction fuel generalizing pos out f with
  | zero => cases h
  | succ fuel ih =>
      obtain ⟨b, hb, h⟩ := bind_eq_ok.mp h
      simp only [fetchLoop, readByte_append hb rest, bind, Except.bind]
      split at h
      next h₀ => rw [if_pos h₀]; exact h
      next h₀ =>
        rw [if_neg h₀]
        split at h
        next hc =>
          obtain ⟨lo, hlo, h⟩ := bind_eq_ok.mp h
          obtain ⟨inner, hinner, h⟩ := bind_eq_ok.mp h
          rw [if_pos hc]
          simp only [readByte_append hlo rest, ih hinner]
          exact h
        next hc =>
          obtain ⟨label, hlabel, h⟩ := bind_eq_ok.mp h
          rw [if_neg hc]
          simp only [readBytes_append hlabel rest]
          exact ih h

theorem fetchLabel_append {f : Fetched} (h : fetchLabel data pos = .ok f) (rest : Bytes) :
    fetchLabel (data ++ rest) pos = .ok f :=
  fetchLabel_of_fetchLoop (fetchLoop_append h rest)

/-- A name that was read to its end ends inside the buffer. -/
theorem fetchLoop_next {out : Bytes} {f : Fetched} (h : fetchLoop data fuel pos out = .ok f) :
    ∃ i : ℕ, f.next = i ∧ i ≤ data.length := by
  induction fuel generalizing pos out f with
  | zero => cases h
  | succ fuel ih =>
      obtain ⟨b, hb, h⟩ := bind_eq_ok.mp h
      obtain ⟨i, rfl, -, hlt⟩ := readByte_ok hb
      split at h
      · cases h
        exact ⟨i, rfl, hlt.le⟩
      · split at h
        · obtain ⟨lo, hlo, h⟩ := bind_eq_ok.mp h
          obtain ⟨j, hj, -, hlt'⟩ := readByte_ok hlo
          obtain ⟨inner, -, h⟩ := bind_eq_ok.mp h
          cases h
          exact ⟨i + 2, by push_cast; rfl, by omega⟩
        · obtain ⟨label, -, h⟩ := bind_eq_ok.mp h
          exact ih h

theorem skipLoop_append {r : ℤ} (h : skipLoop data fuel pos = .ok r) (rest : Bytes) :
    skipLoop (data ++ rest) fuel pos = .ok r := by
  induction fuel generalizing pos with
  | zero => cases h
  | succ fuel ih =>
      obtain ⟨b, hb, h⟩ := bind_eq_ok.mp h
      simp only [skipLoop, readByte_append hb rest, bind, Except.bind]
      split at h
      next h₀ => rw [if_pos h₀]; exact h
      next h₀ => rw [if_neg h₀]; exact ih h

theorem skipQuestion_append {r : ℤ} (h : skipQuestion data pos = .ok r) (rest : Bytes) :
    skipQuestion (data ++ rest) pos = .ok r := by
  obtain ⟨p, hp, h⟩ := bind_eq_ok.mp h
  cases h
  exact skipQuestion_of_skipLoop (skipLoop_append hp rest)

theorem skipQuestions_append {r : ℤ} (h : skipQuestions data n pos = .ok r) (rest : Bytes) :
    skipQuestions (data ++ rest) n pos = .ok r := by
  induction n generalizing pos with
  | zero => exact h
  | succ n ih =>
      obtain ⟨p, hp, h⟩ := bind_eq_ok.mp h
      simp only [skipQuestions, skipQuestion_append hp rest, bind, Except.bind]
      exact ih h

end Longer

section Names

variable {array array' out : Bytes}

/-- The C string that a decoded name becomes. -/
def nameText (out : Bytes) : Bytes := out.dropLast.takeWhile (· != 0)

/-- The text of a name with at least one label that fits into a name array. -/
def nameAlone (out : Bytes) : Exec Bytes :=
  if out = [] ∨ maxNameLength < out.length then .error .fault else .ok (nameText out)

/-- What a name array holds behind the name does not matter. -/
theorem exists_storeName (h : out.length ≤ array.length) :
    ∃ array', storeName array out = .ok array' := by
  unfold storeName
  split
  · exact ⟨_, rfl⟩
  · rw [if_neg (by omega)]
    exact ⟨_, rfl⟩

theorem storeName_alone {text : Bytes} (h : nameAlone out = .ok text)
    (harray : array.length = maxNameLength) :
    ∃ array', storeName array out = .ok array' ∧ array'.length = maxNameLength ∧
      cString array' = .ok text := by
  unfold nameAlone at h
  split at h
  next => cases h
  next hout =>
    cases h
    obtain ⟨hne, hlen⟩ := not_or.mp hout
    have hstore : storeName array out = .ok (out.dropLast ++ 0 :: array.drop out.length) := by
      rw [storeName, if_neg hne, if_neg (by omega)]
    refine ⟨_, hstore, (storeName_length hstore).trans harray, ?_⟩
    rw [cString, if_pos (by simp), nameText, List.takeWhile_append]
    split
    next hall =>
      rw [List.takeWhile_cons_of_neg (by simp), List.append_nil,
        (List.takeWhile_prefix _).eq_of_length hall]
    next => rfl

end Names

section Question

/-- The label and the type of the first question. -/
def questionAlone (data : Bytes) : Exec (Bytes × ℕ) := do
  let fetched ← fetchLabel data dnsHeaderSize
  let label ← nameAlone fetched.out
  let size := if fetched.ret < 0 then -1 else fetched.next - dnsHeaderSize + 1
  return (label, ← readU16 data (dnsHeaderSize + size))

/-- The label of the first question, as the handler of replies reads it. -/
def labelAlone (data : Bytes) : Exec Bytes := do
  nameAlone (← fetchLabel data dnsHeaderSize).out

end Question

section Answers

/-- What the program can see of a decoded answer. -/
structure DecodedAnswer where
  name : Bytes
  type : ℕ
  class_ : ℕ
  ttl : ℕ
  address : Bytes
  deriving DecidableEq

/-- The entry of the output array seen with addresses of `width` bytes, which is the size
for the type that was asked for. -/
def viewAnswer (width : ℕ) (a : Answer) : Exec DecodedAnswer := do
  return ⟨← cString a.name, a.type, a.class_, a.ttl, a.address.addr.toList.take width⟩

/-- One record: what is delivered of it, if it is an address, and its size. -/
def answerAlone (data : Bytes) (width : ℕ) (pos : ℤ) : Exec (Option DecodedAnswer × ℤ) := do
  let fetched ← fetchLabel data pos
  if maxNameLength < fetched.out.length then .error .fault
  else if fetched.ret = -1 then return (none, -1)
  else
    let name ← nameAlone fetched.out
    let type ← readU16 data fetched.next
    let class_ ← readU16 data (fetched.next + 2)
    let ttl ← readU32 data (fetched.next + 4)
    let length ← readU16 data (fetched.next + 8)
    let size := fetched.next + 10 + length - pos
    if type = rrtypeA ∨ type = rrtypeAAAA then
      if length < width ∨ sizeofIP < length then .error .fault
      else
        let bytes ← readBytes data (fetched.next + 10) length
        return (some ⟨name, type, class_, ttl, (bytes.take 16).take width⟩, size)
    else return (none, size)

/-- The records of the answer section, when `cnt` entries are filled so far. -/
def answerLoopAlone (data : Bytes) (width : ℕ) : ℕ → ℤ → ℕ → Exec (List DecodedAnswer)
  | 0, _, _ => .ok []
  | n + 1, pos, cnt =>
      if 20 ≤ cnt then .error .fault
      else do
        let (answer, size) ← answerAlone data width pos
        let rest ← answerLoopAlone data width n (pos + size)
          (if answer.isSome then cnt + 1 else cnt)
        return answer.toList ++ rest

/-- The answers of a reply. -/
def answersAlone (data : Bytes) (width : ℕ) : Exec (List DecodedAnswer) := do
  let ans ← readU16 data 6
  let question ← readU16 data 4
  let pos ← skipQuestions data question dnsHeaderSize
  answerLoopAlone data width ans pos 0

variable {width : ℕ} {dest : Answer} {answer : Option DecodedAnswer} {size : ℤ}

theorem readDnsAnswer_alone (h : answerAlone data width pos = .ok (answer, size)) (rest : Bytes)
    (hname : dest.name.length = maxNameLength) :
    ∃ dest', readDnsAnswer dest (data ++ rest) pos = .ok (dest', size, answer.isSome) ∧
      dest'.name.length = maxNameLength ∧
      ∀ d, answer = some d → viewAnswer width dest' = .ok d := by
  obtain ⟨f, hf, h⟩ := bind_eq_ok.mp h
  split at h
  next => cases h
  next hlong =>
    split at h
    next hret =>
      cases h
      have hfits : f.out.length ≤ dest.name.length := by omega
      obtain ⟨name, hstore⟩ := exists_storeName hfits
      refine ⟨{ dest with name := name }, ?_, (storeName_length hstore).trans hname, by simp⟩
      simp only [readDnsAnswer, fetchLabel_append hf rest, hstore, hret, if_true, bind, Except.bind]
      rfl
    next hret =>
      obtain ⟨text, htext, h⟩ := bind_eq_ok.mp h
      obtain ⟨type, htype, h⟩ := bind_eq_ok.mp h
      obtain ⟨class_, hclass, h⟩ := bind_eq_ok.mp h
      obtain ⟨ttl, httl, h⟩ := bind_eq_ok.mp h
      obtain ⟨length, hlength, h⟩ := bind_eq_ok.mp h
      obtain ⟨name, hstore, hlen, hstring⟩ := storeName_alone htext hname
      simp only [readDnsAnswer, fetchLabel_append hf rest, hstore, hret, if_false,
        readU16_append htype rest, readU16_append hclass rest, readU32_append httl rest,
        readU16_append hlength rest, bind, Except.bind]
      split at h
      next ht =>
        split at h
        next => cases h
        next hshort =>
          obtain ⟨hlow, hhigh⟩ := not_or.mp hshort
          obtain ⟨bytes, hbytes, h⟩ := bind_eq_ok.mp h
          cases h
          rw [if_pos ht, if_neg hhigh, readBytes_append hbytes rest]
          refine ⟨_, rfl, hlen, ?_⟩
          rintro d ⟨⟩
          have hbl := readBytes_length hbytes
          simp only [viewAnswer, hstring, bind, Except.bind, pure, Except.pure]
          rw [take_copyAddr (by omega)]
      next ht =>
        cases h
        rw [if_neg ht]
        exact ⟨_, rfl, hlen, by simp⟩

/-- The entries of the output array from `cnt` on show these answers. -/
def Shows (width : ℕ) (ans : List Answer) (cnt : ℕ) (answers : List DecodedAnswer) : Prop :=
  ∀ (k : ℕ) d, answers[k]? = some d →
    ∃ a, ans[cnt + k]? = some a ∧ viewAnswer width a = .ok d

/-- An entry in front of those that show the other answers. -/
theorem Shows.cons {ans : List Answer} {answers : List DecodedAnswer} {a : Answer}
    {d : DecodedAnswer} (ha : ans[cnt]? = some a) (hview : viewAnswer width a = .ok d)
    (h : Shows width ans (cnt + 1) answers) : Shows width ans cnt (d :: answers) := by
  intro k d' hk
  cases k with
  | zero =>
      obtain rfl : d = d' := by simpa using hk
      exact ⟨a, ha, hview⟩
  | succ k =>
      obtain ⟨a', ha', hview'⟩ := h k d' (by simpa using hk)
      refine ⟨a', ?_, hview'⟩
      rw [← ha']
      congr 1
      omega

theorem Shows.mapM_take {ans : List Answer} {answers : List DecodedAnswer}
    (h : Shows width ans 0 answers) :
    (ans.take answers.length).mapM (viewAnswer width) = .ok answers := by
  induction answers generalizing ans with
  | nil => rfl
  | cons d answers ih =>
      obtain ⟨a, ha, hview⟩ := h 0 d rfl
      match ans, ha with
      | a' :: ans, ha =>
          obtain rfl : a' = a := by simpa using ha
          have hrest : Shows width ans 0 answers := by
            intro k d' hk
            simpa using h (k + 1) d' (by simpa using hk)
          rw [List.length_cons, List.take_succ_cons, List.mapM_cons, hview, ih hrest]
          rfl

theorem readAnswerLoop_alone {answers : List DecodedAnswer} {ans : List Answer}
    (h : answerLoopAlone data width n pos cnt = .ok answers) (rest : Bytes)
    (hans : AnswersSized ans) :
    ∃ ans', readAnswerLoop (data ++ rest) n ans pos cnt = .ok (ans', cnt + answers.length) ∧
      (∀ k < cnt, ans'[k]? = ans[k]?) ∧ Shows width ans' cnt answers := by
  induction n generalizing pos cnt answers ans with
  | zero =>
      cases h
      exact ⟨ans, rfl, fun _ _ => rfl, by simp [Shows]⟩
  | succ n ih =>
      rw [answerLoopAlone] at h
      split at h
      next => cases h
      next hcnt =>
        obtain ⟨⟨answer, size⟩, hanswer, h⟩ := bind_eq_ok.mp h
        obtain ⟨others, hothers, h⟩ := bind_eq_ok.mp h
        cases h
        have hlt : cnt < ans.length := by
          rw [hans.length]
          omega
        obtain ⟨dest', hread, hname, hview⟩ := readDnsAnswer_alone hanswer rest
          (hans.name _ (List.getElem_mem hlt))
        obtain ⟨ans', hloop, hkept, hshows⟩ := ih hothers (hans.set cnt hname)
        refine ⟨ans', ?_, ?_, ?_⟩
        · simp only [readAnswerLoop, List.getElem?_eq_getElem hlt, hread, bind, Except.bind, hloop]
          cases answer with
          | none => simp
          | some d =>
              simp
              omega
        · intro k hk
          rw [hkept k (by split <;> omega), List.getElem?_set_ne (by omega)]
        · cases answer with
          | none => simpa using hshows
          | some d =>
              -- the entry of this record is not touched by the later ones
              have hentry : ans'[cnt]? = some dest' := by
                rw [hkept cnt (by simp), List.getElem?_set_self hlt]
              exact Shows.cons hentry (hview d rfl) hshows

/-- `read_dns_answers` delivers the answers of the datagram. -/
theorem readDnsAnswers_alone {answers : List DecodedAnswer} {ans : List Answer}
    (h : answersAlone data width = .ok answers) (rest : Bytes) (hans : AnswersSized ans) :
    ∃ ans', readDnsAnswers ans (data ++ rest) = .ok (ans', answers.length) ∧
      Shows width ans' 0 answers := by
  obtain ⟨an, han, h⟩ := bind_eq_ok.mp h
  obtain ⟨qd, hqd, h⟩ := bind_eq_ok.mp h
  obtain ⟨p, hp, h⟩ := bind_eq_ok.mp h
  obtain ⟨ans', hloop, -, hshows⟩ := readAnswerLoop_alone h rest hans
  refine ⟨ans', ?_, hshows⟩
  simp only [readDnsAnswers, readU16_append han rest, readU16_append hqd rest,
    skipQuestions_append hp rest, bind, Except.bind, hloop, Nat.zero_add]

end Answers

section Questions

variable {label : Bytes} {qtype : ℕ} {question : Question}

/-- `read_dns_question` delivers the label of the datagram. -/
theorem readDnsQuestion_alone {f : Fetched} (rest : Bytes)
    (hf : fetchLabel data dnsHeaderSize = .ok f) (hlabel : nameAlone f.out = .ok label)
    (hquestion : question.label.length = maxNameLength)
    (hroom : data.length + 4 ≤ (data ++ rest).length) :
    ∃ question', readDnsQuestion question (data ++ rest) dnsHeaderSize =
        .ok (question', if f.ret < 0 then -1 else f.next - dnsHeaderSize + 1) ∧
      cString question'.label = .ok label := by
  obtain ⟨array, hstore, -, hstring⟩ := storeName_alone hlabel hquestion
  simp only [readDnsQuestion, fetchLabel_append hf rest, hstore, bind, Except.bind]
  split
  next => exact ⟨_, rfl, hstring⟩
  next =>
    -- the type and the class are read at the end of the name and are not used
    obtain ⟨i, hi, hle⟩ := fetchLoop_next hf
    rw [hi]
    obtain ⟨t, ht⟩ := readU16_of_lt (show i + 1 < (data ++ rest).length by omega)
    obtain ⟨c, hc⟩ := readU16_of_lt (show i + 2 + 1 < (data ++ rest).length by omega)
    have hc' : readU16 (data ++ rest) ((i : ℤ) + 2) = .ok c := by exact_mod_cast hc
    rw [ht]
    simp only [hc']
    exact ⟨_, rfl, hstring⟩

/-- `read_dns_questions` delivers the label and the type of the datagram. -/
theorem readDnsQuestions_alone (rest : Bytes) (h : questionAlone data = .ok (label, qtype))
    (hquestion : question.label.length = maxNameLength)
    (hroom : data.length + 5 ≤ (data ++ rest).length) (hlen : 16 ≤ (data ++ rest).length) :
    ∃ question' n, readDnsQuestions question (data ++ rest) = .ok (question', n) ∧
      cString question'.label = .ok label ∧ question'.qtype = qtype := by
  obtain ⟨f, hf, h⟩ := bind_eq_ok.mp h
  obtain ⟨text, htext, h⟩ := bind_eq_ok.mp h
  obtain ⟨t, ht, h⟩ := bind_eq_ok.mp h
  cases h
  obtain ⟨question', hread, hstring⟩ := readDnsQuestion_alone rest hf htext hquestion (by omega)
  obtain ⟨n, hn⟩ := readU16_of_lt (show 4 + 1 < (data ++ rest).length by omega)
  obtain ⟨i, hi, hle⟩ := fetchLoop_next hf
  -- the class may lie behind the datagram, but not behind the buffer
  obtain ⟨j, hj, hjlt⟩ : ∃ j : ℕ,
      dnsHeaderSize + (if f.ret < 0 then -1 else f.next - dnsHeaderSize + 1) + 2 = j ∧
        j + 1 < (data ++ rest).length := by
    rw [hi, dnsHeaderSize]
    split
    · exact ⟨13, rfl, by omega⟩
    · exact ⟨i + 3, by omega, by omega⟩
  obtain ⟨c, hc⟩ := readU16_of_lt hjlt
  refine ⟨{ question' with qtype := qtype, qclass := c }, n, ?_, hstring, rfl⟩
  rw [← hj] at hc
  have hn' : readU16 (data ++ rest) 4 = .ok n := hn
  simp only [readDnsQuestions, hn', hread, readU16_append ht rest, hc, bind, Except.bind]
  rfl

end Questions

end DnsRelay.Message
