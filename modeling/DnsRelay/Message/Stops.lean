import DnsRelay.Message.Model
import DnsRelay.Lib.Machine

/-!
# How the message code can stop

No function of `common.c` leaves the program. Where one does not return, its behaviour is
undefined or a loop over a name never ends.
-/

namespace DnsRelay.Message

open DnsRelay.Lib.Machine

/-- A stop other than by a call of `exit`. -/
def Stuck (e : Stop) : Prop := e = .fault ∨ e = .hang

variable {α : Type} {buffer : Bytes} {i : ℤ} {n : ℕ}

theorem stuck_fault : Confined Stuck (.error .fault : Exec α) := confined_error (.inl rfl)

theorem stuck_hang : Confined Stuck (.error .hang : Exec α) := confined_error (.inr rfl)

section Memory

theorem readByte_stuck (buffer : Bytes) (i : ℤ) : Confined Stuck (readByte buffer i) := by
  unfold readByte
  split
  · split
    · exact confined_ok _
    · exact stuck_fault
  · exact stuck_fault

theorem readBytes_stuck (buffer : Bytes) (i : ℤ) (n : ℕ) :
    Confined Stuck (readBytes buffer i n) := by
  induction n generalizing i with
  | zero => exact confined_ok _
  | succ n ih =>
      refine (readByte_stuck buffer i).bind fun _ _ => ?_
      exact (ih (i + 1)).bind fun _ _ => confined_ok _

theorem readU16_stuck (buffer : Bytes) (i : ℤ) : Confined Stuck (readU16 buffer i) := by
  refine (readByte_stuck buffer i).bind fun _ _ => ?_
  exact (readByte_stuck buffer (i + 1)).bind fun _ _ => confined_ok _

theorem readU32_stuck (buffer : Bytes) (i : ℤ) : Confined Stuck (readU32 buffer i) := by
  refine (readU16_stuck buffer i).bind fun _ _ => ?_
  exact (readU16_stuck buffer (i + 2)).bind fun _ _ => confined_ok _

theorem writeByte_stuck (buffer : Bytes) (i : ℤ) (b : UInt8) :
    Confined Stuck (writeByte buffer i b) := by
  unfold writeByte
  split
  · split
    · exact confined_ok _
    · exact stuck_fault
  · exact stuck_fault

theorem writeBytes_stuck (buffer : Bytes) (i : ℤ) (bytes : Bytes) :
    Confined Stuck (writeBytes buffer i bytes) := by
  induction bytes generalizing buffer i with
  | nil => exact confined_ok _
  | cons b bytes ih =>
      exact (writeByte_stuck buffer i b).bind fun buffer' _ => ih buffer' (i + 1)

theorem cString_stuck (array : Bytes) : Confined Stuck (cString array) := by
  unfold cString
  split
  · exact confined_ok _
  · exact stuck_fault

theorem strcpy_stuck (array text : Bytes) : Confined Stuck (strcpy array text) := by
  unfold strcpy
  split
  · exact stuck_fault
  · exact confined_ok _

end Memory

section Readers

theorem fetchLoop_stuck (buffer : Bytes) (fuel : ℕ) (pos : ℤ) (out : Bytes) :
    Confined Stuck (fetchLoop buffer fuel pos out) := by
  induction fuel generalizing pos out with
  | zero => exact stuck_hang
  | succ fuel ih =>
      refine (readByte_stuck buffer pos).bind fun b _ => ?_
      split
      · exact confined_ok _
      · split
        · refine (readByte_stuck buffer (pos + 1)).bind fun lo _ => ?_
          exact (ih _ []).bind fun _ _ => confined_ok _
        · exact (readBytes_stuck buffer (pos + 1) b.toNat).bind fun _ _ => ih _ _

theorem fetchLabel_stuck (buffer : Bytes) (src : ℤ) :
    Confined Stuck (fetchLabel buffer src) := fetchLoop_stuck buffer _ src []

theorem storeName_stuck (array out : Bytes) : Confined Stuck (storeName array out) := by
  unfold storeName
  split
  · exact confined_ok _
  · split
    · exact stuck_fault
    · exact confined_ok _

theorem skipLoop_stuck (buffer : Bytes) (fuel : ℕ) (pos : ℤ) :
    Confined Stuck (skipLoop buffer fuel pos) := by
  induction fuel generalizing pos with
  | zero => exact stuck_hang
  | succ fuel ih =>
      refine (readByte_stuck buffer pos).bind fun b _ => ?_
      split
      · exact confined_ok _
      · exact ih _

theorem skipQuestion_stuck (buffer : Bytes) (pos : ℤ) :
    Confined Stuck (skipQuestion buffer pos) :=
  (skipLoop_stuck buffer _ pos).bind fun _ _ => confined_ok _

theorem skipQuestions_stuck (buffer : Bytes) (n : ℕ) (pos : ℤ) :
    Confined Stuck (skipQuestions buffer n pos) := by
  induction n generalizing pos with
  | zero => exact confined_ok _
  | succ n ih => exact (skipQuestion_stuck buffer pos).bind fun pos' _ => ih pos'

theorem readDnsHeader_stuck (buffer : Bytes) : Confined Stuck (readDnsHeader buffer) := by
  refine (readU16_stuck buffer 0).bind fun _ _ => ?_
  exact (readU16_stuck buffer 2).bind fun _ _ => confined_ok _

theorem readDnsQuestion_stuck (question : Question) (buffer : Bytes) (src : ℤ) :
    Confined Stuck (readDnsQuestion question buffer src) := by
  refine (fetchLabel_stuck buffer src).bind fun fetched _ => ?_
  refine (storeName_stuck question.label fetched.out).bind fun label _ => ?_
  split
  · exact confined_ok _
  · refine (readU16_stuck buffer _).bind fun _ _ => ?_
    exact (readU16_stuck buffer _).bind fun _ _ => confined_ok _

theorem readDnsQuestions_stuck (question : Question) (buffer : Bytes) :
    Confined Stuck (readDnsQuestions question buffer) := by
  refine (readU16_stuck buffer 4).bind fun _ _ => ?_
  refine (readDnsQuestion_stuck question buffer _).bind fun _ _ => ?_
  refine (readU16_stuck buffer _).bind fun _ _ => ?_
  exact (readU16_stuck buffer _).bind fun _ _ => confined_ok _

theorem readDnsAnswer_stuck (dest : Answer) (buffer : Bytes) (src : ℤ) :
    Confined Stuck (readDnsAnswer dest buffer src) := by
  refine (fetchLabel_stuck buffer src).bind fun fetched _ => ?_
  refine (storeName_stuck dest.name fetched.out).bind fun name _ => ?_
  split
  · exact confined_ok _
  · refine (readU16_stuck buffer _).bind fun type _ => ?_
    refine (readU16_stuck buffer _).bind fun _ _ => ?_
    refine (readU32_stuck buffer _).bind fun _ _ => ?_
    refine (readU16_stuck buffer _).bind fun length _ => ?_
    dsimp only
    split
    · split
      · exact stuck_fault
      · exact (readBytes_stuck buffer _ _).bind fun _ _ => confined_ok _
    · exact confined_ok _

theorem readAnswerLoop_stuck (buffer : Bytes) (n : ℕ) (answers : List Answer) (pos : ℤ)
    (cnt : ℕ) : Confined Stuck (readAnswerLoop buffer n answers pos cnt) := by
  induction n generalizing answers pos cnt with
  | zero => exact confined_ok _
  | succ n ih =>
      unfold readAnswerLoop
      split
      · exact stuck_fault
      · exact (readDnsAnswer_stuck _ buffer pos).bind fun _ _ => ih _ _ _

theorem readDnsAnswers_stuck (answers : List Answer) (buffer : Bytes) :
    Confined Stuck (readDnsAnswers answers buffer) := by
  refine (readU16_stuck buffer 6).bind fun ans _ => ?_
  refine (readU16_stuck buffer 4).bind fun question _ => ?_
  refine (skipQuestions_stuck buffer question _).bind fun pos _ => ?_
  exact readAnswerLoop_stuck buffer ans answers pos 0

end Readers

section Writers

theorem setHeaderRcode_stuck (buffer : Bytes) (rcode : ℕ) :
    Confined Stuck (setHeaderRcode buffer rcode) :=
  (readByte_stuck buffer 3).bind fun _ _ => writeByte_stuck buffer 3 _

theorem strToLabelLoop_stuck (dest : ℤ) (maxlen : ℕ) (host : Bytes) (lastPos cumulate j : ℕ)
    (buffer : Bytes) :
    Confined Stuck (strToLabelLoop dest maxlen host lastPos cumulate j buffer) := by
  induction host generalizing lastPos cumulate j buffer with
  | nil => exact confined_ok _
  | cons ch host ih =>
      unfold strToLabelLoop
      split
      · split
        · exact (writeByte_stuck buffer _ _).bind fun _ _ => ih _ _ _ _
        · exact (writeByte_stuck buffer _ _).bind fun _ _ => ih _ _ _ _
      · exact confined_ok _

theorem strToLabel_stuck (buffer : Bytes) (dest : ℤ) (host : Bytes) (maxlen : ℕ) :
    Confined Stuck (strToLabel buffer dest host maxlen) := by
  refine (strToLabelLoop_stuck dest maxlen host 0 0 1 buffer).bind fun p _ => ?_
  unfold strToLabelEnd
  split
  · exact confined_ok _
  · refine (writeByte_stuck _ _ _).bind fun buffer' _ => ?_
    exact (writeByte_stuck buffer' _ _).bind fun _ _ => confined_ok _

theorem writeDnsAnswer_stuck (buffer : Bytes) (dest : ℤ) (name : Bytes) (type class_ ttl : ℕ)
    (rdata : Bytes) : Confined Stuck (writeDnsAnswer buffer dest name type class_ ttl rdata) := by
  refine (strToLabel_stuck buffer dest name maxDnsSize).bind fun p _ => ?_
  obtain ⟨buffer₁, count⟩ := p
  dsimp only
  split
  · exact confined_ok _
  · refine (writeBytes_stuck buffer₁ _ _).bind fun buffer₂ _ => ?_
    refine (writeBytes_stuck buffer₂ _ _).bind fun buffer₃ _ => ?_
    refine (writeBytes_stuck buffer₃ _ _).bind fun buffer₄ _ => ?_
    split
    · refine (writeBytes_stuck buffer₄ _ _).bind fun buffer₅ _ => ?_
      exact (writeBytes_stuck buffer₅ _ _).bind fun _ _ => confined_ok _
    · split
      · refine (writeBytes_stuck buffer₄ _ _).bind fun buffer₅ _ => ?_
        exact (writeBytes_stuck buffer₅ _ _).bind fun _ _ => confined_ok _
      · split
        · refine (cString_stuck rdata).bind fun cname _ => ?_
          refine (strToLabel_stuck buffer₄ _ cname maxDnsSize).bind fun p _ => ?_
          exact (writeBytes_stuck p.1 _ _).bind fun _ _ => confined_ok _
        · exact confined_ok _

theorem writeAnswerLoop_stuck (answers : List Answer) (buffer : Bytes) (pos : ℤ) :
    Confined Stuck (writeAnswerLoop answers buffer pos) := by
  induction answers generalizing buffer pos with
  | nil => exact confined_ok _
  | cons answer rest ih =>
      refine (cString_stuck answer.name).bind fun name _ => ?_
      exact (writeDnsAnswer_stuck buffer pos name _ _ _ _).bind fun p _ => ih p.1 _

theorem writeDnsResponseByQuery_stuck (buffer : Bytes) (answers : List Answer) :
    Confined Stuck (writeDnsResponseByQuery buffer answers) := by
  refine (writeBytes_stuck buffer _ _).bind fun buffer₁ _ => ?_
  refine (writeBytes_stuck buffer₁ _ _).bind fun buffer₂ _ => ?_
  refine (skipQuestion_stuck buffer₂ _).bind fun pos _ => ?_
  exact writeAnswerLoop_stuck answers buffer₂ pos

end Writers

end DnsRelay.Message
