import DnsRelay.Lib.Machine
import DnsRelay.Message.Model

/-!
# Sizes of arrays

No function of `common.c` changes the size of the buffer or of the arrays it writes to.
-/

namespace DnsRelay.Message

open DnsRelay.Lib.Machine

variable {buffer buffer' bytes : Bytes} {pos ret : ℤ}

section Buffer

theorem writeByte_length {b : UInt8} (h : writeByte buffer pos b = .ok buffer') :
    buffer'.length = buffer.length := by
  cases pos with
  | negSucc n => cases h
  | ofNat n =>
      change (if n < buffer.length then Except.ok (buffer.set n b) else .error Stop.fault) = _ at h
      split at h
      · cases h
        simp
      · cases h

theorem writeBytes_length (h : writeBytes buffer pos bytes = .ok buffer') :
    buffer'.length = buffer.length := by
  induction bytes generalizing buffer pos with
  | nil =>
      cases h
      rfl
  | cons b bytes ih =>
      obtain ⟨buffer₁, hb, h⟩ := bind_eq_ok.mp h
      exact (ih h).trans (writeByte_length hb)

theorem setHeaderRcode_length {rcode : ℕ} (h : setHeaderRcode buffer rcode = .ok buffer') :
    buffer'.length = buffer.length := by
  obtain ⟨b, -, h⟩ := bind_eq_ok.mp h
  exact writeByte_length h

theorem strToLabelLoop_length {dest : ℤ} {maxlen lastPos cumulate j : ℕ} {host : Bytes}
    {r : Option (ℕ × ℕ × ℕ)}
    (h : strToLabelLoop dest maxlen host lastPos cumulate j buffer = .ok (buffer', r)) :
    buffer'.length = buffer.length := by
  induction host generalizing lastPos cumulate j buffer with
  | nil =>
      cases h
      rfl
  | cons ch host ih =>
      rw [strToLabelLoop] at h
      split at h
      · split at h
        · obtain ⟨buffer₁, hb, h⟩ := bind_eq_ok.mp h
          exact (ih h).trans (writeByte_length hb)
        · obtain ⟨buffer₁, hb, h⟩ := bind_eq_ok.mp h
          exact (ih h).trans (writeByte_length hb)
      · cases h
        rfl

theorem strToLabel_length {dest : ℤ} {maxlen : ℕ} {host : Bytes}
    (h : strToLabel buffer dest host maxlen = .ok (buffer', ret)) :
    buffer'.length = buffer.length := by
  obtain ⟨⟨buffer₁, r⟩, hl, h⟩ := bind_eq_ok.mp h
  cases r with
  | none =>
      cases h
      exact strToLabelLoop_length hl
  | some p =>
      obtain ⟨lastPos, cumulate, j⟩ := p
      obtain ⟨buffer₂, h₂, h⟩ := bind_eq_ok.mp h
      obtain ⟨buffer₃, h₃, h⟩ := bind_eq_ok.mp h
      cases h
      exact (writeByte_length h₃).trans ((writeByte_length h₂).trans (strToLabelLoop_length hl))

theorem writeDnsAnswer_length {dest : ℤ} {name rdata : Bytes} {type class_ ttl : ℕ}
    (h : writeDnsAnswer buffer dest name type class_ ttl rdata = .ok (buffer', ret)) :
    buffer'.length = buffer.length := by
  obtain ⟨⟨buffer₀, count⟩, h₀, h⟩ := bind_eq_ok.mp h
  rw [← strToLabel_length h₀]
  dsimp only at h
  split at h
  · cases h
    rfl
  · obtain ⟨buffer₁, h₁, h⟩ := bind_eq_ok.mp h
    obtain ⟨buffer₂, h₂, h⟩ := bind_eq_ok.mp h
    obtain ⟨buffer₃, h₃, h⟩ := bind_eq_ok.mp h
    rw [← writeBytes_length h₁, ← writeBytes_length h₂, ← writeBytes_length h₃]
    split at h
    · obtain ⟨buffer₄, h₄, h⟩ := bind_eq_ok.mp h
      obtain ⟨buffer₅, h₅, h⟩ := bind_eq_ok.mp h
      cases h
      rw [← writeBytes_length h₄, ← writeBytes_length h₅]
    · split at h
      · obtain ⟨buffer₄, h₄, h⟩ := bind_eq_ok.mp h
        obtain ⟨buffer₅, h₅, h⟩ := bind_eq_ok.mp h
        cases h
        rw [← writeBytes_length h₄, ← writeBytes_length h₅]
      · split at h
        · obtain ⟨cname, -, h⟩ := bind_eq_ok.mp h
          obtain ⟨⟨buffer₄, size⟩, h₄, h⟩ := bind_eq_ok.mp h
          obtain ⟨buffer₅, h₅, h⟩ := bind_eq_ok.mp h
          cases h
          rw [← strToLabel_length h₄, ← writeBytes_length h₅]
        · cases h
          rfl

theorem writeAnswerLoop_length {answers : List Answer}
    (h : writeAnswerLoop answers buffer pos = .ok (buffer', ret)) :
    buffer'.length = buffer.length := by
  induction answers generalizing buffer pos with
  | nil =>
      cases h
      rfl
  | cons answer answers ih =>
      obtain ⟨name, -, h⟩ := bind_eq_ok.mp h
      obtain ⟨⟨buffer₁, size⟩, hw, h⟩ := bind_eq_ok.mp h
      exact (ih h).trans (writeDnsAnswer_length hw)

theorem writeDnsResponseByQuery_length {answers : List Answer}
    (h : writeDnsResponseByQuery buffer answers = .ok (buffer', ret)) :
    buffer'.length = buffer.length := by
  obtain ⟨buffer₁, h₁, h⟩ := bind_eq_ok.mp h
  obtain ⟨buffer₂, h₂, h⟩ := bind_eq_ok.mp h
  obtain ⟨start, -, h⟩ := bind_eq_ok.mp h
  rw [writeAnswerLoop_length h, writeBytes_length h₂, writeBytes_length h₁]

end Buffer

section Arrays

variable {array array' : Bytes}

theorem storeName_length {out : Bytes} (h : storeName array out = .ok array') :
    array'.length = array.length := by
  unfold storeName at h
  split at h
  · cases h
    rfl
  next hne =>
    split at h
    · cases h
    next hle =>
      cases h
      have := List.length_pos_iff.mpr hne
      simp only [List.length_append, List.length_dropLast, List.length_cons, List.length_drop]
      omega

theorem strcpy_length {text : Bytes} (h : strcpy array text = .ok array') :
    array'.length = array.length := by
  unfold strcpy at h
  split at h
  · cases h
  · cases h
    simp only [List.length_append, List.length_cons, List.length_drop]
    omega

theorem readDnsQuestion_length {question question' : Question} {src : ℤ}
    (h : readDnsQuestion question buffer src = .ok (question', ret)) :
    question'.label.length = question.label.length := by
  obtain ⟨fetched, -, h⟩ := bind_eq_ok.mp h
  obtain ⟨label, hs, h⟩ := bind_eq_ok.mp h
  split at h
  · cases h
    exact storeName_length hs
  · obtain ⟨qtype, -, h⟩ := bind_eq_ok.mp h
    obtain ⟨qclass, -, h⟩ := bind_eq_ok.mp h
    cases h
    exact storeName_length hs

theorem readDnsQuestions_length {question question' : Question} {n : ℕ}
    (h : readDnsQuestions question buffer = .ok (question', n)) :
    question'.label.length = question.label.length := by
  obtain ⟨m, -, h⟩ := bind_eq_ok.mp h
  obtain ⟨⟨question₁, size⟩, hq, h⟩ := bind_eq_ok.mp h
  have hlen := readDnsQuestion_length hq
  obtain ⟨qtype, -, h⟩ := bind_eq_ok.mp h
  obtain ⟨qclass, -, h⟩ := bind_eq_ok.mp h
  cases h
  exact hlen

theorem readDnsAnswer_length {dest dest' : Answer} {src : ℤ} {good : Bool}
    (h : readDnsAnswer dest buffer src = .ok (dest', ret, good)) :
    dest'.name.length = dest.name.length := by
  obtain ⟨fetched, -, h⟩ := bind_eq_ok.mp h
  obtain ⟨name, hs, h⟩ := bind_eq_ok.mp h
  have hlen := storeName_length hs
  split at h
  · cases h
    exact hlen
  · obtain ⟨type, -, h⟩ := bind_eq_ok.mp h
    obtain ⟨class_, -, h⟩ := bind_eq_ok.mp h
    obtain ⟨ttl, -, h⟩ := bind_eq_ok.mp h
    obtain ⟨length, -, h⟩ := bind_eq_ok.mp h
    dsimp only at h
    split at h
    · split at h
      · cases h
      · obtain ⟨rdata, -, h⟩ := bind_eq_ok.mp h
        cases h
        exact hlen
    · cases h
      exact hlen

/-- The array `ans` of `main` with its name fields. -/
structure AnswersSized (ans : List Answer) : Prop where
  length : ans.length = 20
  name : ∀ a ∈ ans, a.name.length = maxNameLength

theorem AnswersSized.set {ans : List Answer} (h : AnswersSized ans) (i : ℕ) {a : Answer}
    (ha : a.name.length = maxNameLength) : AnswersSized (ans.set i a) := by
  constructor
  · rw [List.length_set, h.length]
  · intro b hb
    rcases List.mem_or_eq_of_mem_set hb with hb | rfl
    · exact h.name b hb
    · exact ha

theorem readAnswerLoop_sized {n cnt m : ℕ} {answers answers' : List Answer}
    (hs : AnswersSized answers) (h : readAnswerLoop buffer n answers pos cnt = .ok (answers', m)) :
    AnswersSized answers' := by
  induction n generalizing answers pos cnt with
  | zero =>
      cases h
      exact hs
  | succ n ih =>
      rw [readAnswerLoop] at h
      split at h
      · cases h
      next dest hdest =>
        obtain ⟨⟨dest', size, good⟩, hr, h⟩ := bind_eq_ok.mp h
        apply ih _ h
        apply hs.set
        rw [readDnsAnswer_length hr]
        exact hs.name dest (List.mem_of_getElem? hdest)

theorem readDnsAnswers_sized {n : ℕ} {answers answers' : List Answer} (hs : AnswersSized answers)
    (h : readDnsAnswers answers buffer = .ok (answers', n)) : AnswersSized answers' := by
  obtain ⟨ans, -, h⟩ := bind_eq_ok.mp h
  obtain ⟨question, -, h⟩ := bind_eq_ok.mp h
  obtain ⟨start, -, h⟩ := bind_eq_ok.mp h
  exact readAnswerLoop_sized hs h

end Arrays

end DnsRelay.Message
