import DnsRelay.Lib.Output
import DnsRelay.Message.Answers
import Mathlib.Logic.Function.Basic

/-!
# The assignments of `fetch_label`

`fetch_label` writes each label and a dot behind it, calls itself at a shifted destination for
a pointer, and replaces the last dot of the innermost call by the terminator. Here all its
assignments are recorded, as places relative to the `dest` of the outermost call, so that what
it leaves in memory and where it writes can be told apart from what it returns. A returned
value counts the characters of the innermost call only.
-/

namespace DnsRelay.Message

open DnsRelay.Lib DnsRelay.Lib.Machine Function

variable {buffer msg out : Bytes} {pos dest : ℤ} {fuel i e : ℕ}

section Model

/-- An assignment `dest[index] = byte`. -/
structure Store where
  index : ℤ
  byte : UInt8
  deriving DecidableEq

/-- The loop that copies the characters of a label. -/
def copyStores (buffer : Bytes) : ℕ → ℤ → ℤ → Output Store Stop Unit
  | 0, _, _ => pure ()
  | n + 1, pos, index => do
      let b ← Output.lift (readByte buffer pos)
      Output.emit ⟨index, b⟩
      copyStores buffer n (pos + 1) (index + 1)

/-- The loop of `fetch_label` with its assignments, in a call whose destination is `dest`, when
`i` characters have been written; it gives the returned value and `*next`. -/
def storesLoop (buffer : Bytes) : ℕ → ℤ → ℤ → ℕ → Output Store Stop (ℤ × ℤ)
  | 0, _, _, _ => Output.lift (.error .hang)
  | fuel + 1, pos, dest, i => do
      let b ← Output.lift (readByte buffer pos)
      if b = 0 then
        Output.emit ⟨dest + i - 1, 0⟩
        return ((i : ℤ) - 1, pos)
      else if isCompress b then
        let lo ← Output.lift (readByte buffer (pos + 1))
        let (ret, _) ← storesLoop buffer fuel (compressPos b lo) (dest + i) 0
        return (ret, pos + 2)
      else
        copyStores buffer b.toNat (pos + 1) (dest + i)
        Output.emit ⟨dest + i + b.toNat, dot⟩
        storesLoop buffer fuel (pos + b.toNat + 1) dest (i + b.toNat + 1)

/-- `fetch_label` with its assignments. -/
def fetchStores (buffer : Bytes) (src : ℤ) : Output Store Stop (ℤ × ℤ) :=
  storesLoop buffer (buffer.length + 1) src 0 0

/-- The memory around `dest` after some assignments. -/
def applyStores (mem : ℤ → UInt8) (stores : List Store) : ℤ → UInt8 :=
  stores.foldl (fun mem s => update mem s.index s.byte) mem

/-- The assignments of consecutive characters. -/
def textStores : ℤ → Bytes → List Store
  | _, [] => []
  | index, b :: text => ⟨index, b⟩ :: textStores (index + 1) text

end Model

section Erasure

theorem textStores_append (index : ℤ) (s t : Bytes) :
    textStores index (s ++ t) = textStores index s ++ textStores (index + s.length) t := by
  induction s generalizing index with
  | nil => simp [textStores]
  | cons b s ih =>
      rw [List.cons_append, textStores, ih, textStores, List.length_cons]
      simp only [List.cons_append, List.cons.injEq, true_and, List.append_cancel_left_eq]
      congr 1
      push_cast
      omega

/-- The characters of a label are read before they are written. -/
theorem copyStores_of_readBytes {n : ℕ} {label : Bytes} (h : readBytes buffer pos n = .ok label)
    (index : ℤ) : copyStores buffer n pos index = ⟨textStores index label, .ok ()⟩ := by
  induction n generalizing pos index label with
  | zero =>
      cases h
      rfl
  | succ n ih =>
      obtain ⟨b, hb, h⟩ := bind_eq_ok.mp h
      obtain ⟨rest, hrest, h⟩ := bind_eq_ok.mp h
      cases h
      rw [copyStores, hb, Output.lift_ok_bind, ih hrest]
      rfl

/-- A call that returns has written the characters that it adds to those before, and then the
terminator in place of the last one. -/
theorem storesLoop_of_fetchLoop {f : Fetched} (h : fetchLoop buffer fuel pos out = .ok f)
    (dest : ℤ) : ∃ text, f.out = out ++ text ∧ storesLoop buffer fuel pos dest out.length =
      ⟨textStores (dest + out.length) text ++ [⟨dest + f.out.length - 1, 0⟩],
        .ok (f.ret, f.next)⟩ := by
  induction fuel generalizing pos out dest f with
  | zero => cases h
  | succ fuel ih =>
      obtain ⟨b, hb, h⟩ := bind_eq_ok.mp h
      rw [storesLoop, hb, Output.lift_ok_bind]
      split at h
      next h₀ =>
        cases h
        exact ⟨[], by simp, by rw [if_pos h₀]; rfl⟩
      next h₀ =>
        rw [if_neg h₀]
        split at h
        next hc =>
          obtain ⟨lo, hlo, h⟩ := bind_eq_ok.mp h
          obtain ⟨inner, hinner, h⟩ := bind_eq_ok.mp h
          cases h
          -- the nested call starts at the next free character
          obtain ⟨text, htext, hstores⟩ := ih hinner (dest + out.length)
          rw [List.nil_append] at htext
          subst htext
          refine ⟨inner.out, rfl, ?_⟩
          rw [if_pos hc, hlo, Output.lift_ok_bind, ← List.length_nil, hstores,
            Output.bind_of_ok rfl]
          simp [Int.add_assoc]
        next hc =>
          obtain ⟨label, hlabel, h⟩ := bind_eq_ok.mp h
          obtain ⟨text, htext, hstores⟩ := ih h dest
          have hlen : label.length = b.toNat := readBytes_length hlabel
          refine ⟨label ++ [dot] ++ text, by simp [htext], ?_⟩
          have hi : (out ++ label ++ [dot]).length = out.length + b.toNat + 1 := by
            simp [hlen, Nat.add_assoc]
          rw [hi] at hstores
          rw [if_neg hc, copyStores_of_readBytes hlabel, Output.bind_of_ok rfl]
          simp only [hstores, Output.sent_emit_bind, Output.result_emit_bind, textStores_append,
            textStores, hlen, List.append_assoc, List.cons_append, List.nil_append]
          push_cast
          simp only [Int.add_assoc]

/-- The assignments for a name in the format. -/
theorem NameAt.fetchStores {segs : List (List Bytes)} (h : NameAt msg i segs e) :
    fetchStores msg i =
      ⟨textStores 0 (dottedEach segs.flatten) ++ [⟨(dottedEach segs.flatten).length - 1, 0⟩],
        .ok (lastCount 0 segs - 1, nextOf segs e)⟩ := by
  have hfetch := h.fetchLabel []
  rw [List.append_nil] at hfetch
  obtain ⟨text, htext, hstores⟩ := storesLoop_of_fetchLoop hfetch 0
  simp only [List.nil_append] at htext
  subst htext
  simpa [Message.fetchStores] using hstores

end Erasure

section Memory

variable {stores : List Store} {text : Bytes} {index : ℤ} {s : Store}

theorem index_mem_textStores (h : s ∈ textStores index text) :
    index ≤ s.index ∧ s.index < index + text.length := by
  induction text generalizing index with
  | nil => cases h
  | cons b text ih =>
      rw [List.length_cons]
      rcases List.mem_cons.mp h with rfl | h
      · push_cast
        omega
      · have := ih h
        push_cast
        omega

theorem applyStores_concat (mem : ℤ → UInt8) (stores : List Store) (s : Store) :
    applyStores mem (stores ++ [s]) = update (applyStores mem stores) s.index s.byte := by
  rw [applyStores, List.foldl_append]
  rfl

/-- What is not assigned stays. -/
theorem applyStores_of_ne (mem : ℤ → UInt8) {k : ℤ} (h : ∀ s ∈ stores, s.index ≠ k) :
    applyStores mem stores k = mem k := by
  induction stores generalizing mem with
  | nil => rfl
  | cons s stores ih =>
      have hrest := ih (update mem s.index s.byte) fun s' hs' => h s' (by simp [hs'])
      rw [update_of_ne (h s (by simp)).symm] at hrest
      exact hrest

/-- Consecutive characters stand in memory one behind the other. -/
theorem applyStores_text (mem : ℤ → UInt8) (index : ℤ) {k : ℕ} {b : UInt8}
    (h : text[k]? = some b) : applyStores mem (textStores index text) (index + k) = b := by
  induction text generalizing index mem k with
  | nil => cases h
  | cons b' text ih =>
      cases k with
      | zero =>
          obtain rfl : b' = b := by simpa using h
          have hrest : ∀ s ∈ textStores (index + 1) text, s.index ≠ index := by
            intro s hs
            have := index_mem_textStores hs
            omega
          rw [Int.natCast_zero, Int.add_zero]
          exact (applyStores_of_ne _ hrest).trans (update_self _ _ _)
      | succ k =>
          have hrest := ih (update mem index b') (index + 1) (by simpa using h)
          rw [show index + ((k + 1 : ℕ) : ℤ) = index + 1 + k by push_cast; omega]
          exact hrest

end Memory

section Expansion

/-- The memory holds the C string `text` at `dest`. -/
def StringAt (mem : ℤ → UInt8) (text : Bytes) : Prop :=
  ∀ (k : ℕ) b, (text ++ [0])[k]? = some b → mem k = b

/-- The terminator takes the place of the last dot. -/
theorem stringAt_dotted {labels : List Bytes} (hne : labels ≠ []) (mem : ℤ → UInt8) :
    StringAt (applyStores mem
      (textStores 0 (dottedEach labels) ++ [⟨(dottedEach labels).length - 1, 0⟩]))
      (dotted labels) := by
  intro k b hk
  have hlast : ((dottedEach labels).length : ℤ) - 1 = (dotted labels).length := by
    simp [dottedEach_eq hne]
  rw [hlast, applyStores_concat, dottedEach_eq hne]
  dsimp only
  rcases Nat.lt_trichotomy k (dotted labels).length with hlt | rfl | hgt
  · have hchar : (dotted labels ++ [dot])[k]? = some b := by
      rw [List.getElem?_append_left hlt] at hk ⊢
      exact hk
    have htext := applyStores_text mem 0 hchar
    rw [Int.zero_add] at htext
    rw [update_of_ne (by omega), htext]
  · rw [update_self]
    simpa using hk
  · rw [List.getElem?_eq_none (by simp; omega)] at hk
    cases hk

/-- `fetch_label` leaves the labels of a name joined by dots at its destination, for every name
whose last segment starts with a label. Where the name is split by pointers makes no
difference. -/
theorem fetchLabel_expands (msg : Bytes) (i e : ℕ) (segs : List (List Bytes))
    (h : NameAt msg i segs e) (hlast : ∀ seg ∈ segs.getLast?, seg ≠ []) :
    (∃ ret next, (fetchStores msg i).result = .ok (ret, next)) ∧
    (∀ mem, StringAt (applyStores mem (fetchStores msg i).sent) (dotted segs.flatten)) ∧
    ∀ (msg' : Bytes) (i' e' : ℕ) (segs' : List (List Bytes)), NameAt msg' i' segs' e' →
      segs'.flatten = segs.flatten → ∀ mem,
        applyStores mem (fetchStores msg' i').sent = applyStores mem (fetchStores msg i).sent := by
  rw [h.fetchStores]
  refine ⟨⟨_, _, rfl⟩, ?_, ?_⟩
  · exact stringAt_dotted (flatten_ne_nil h.segs_ne_nil hlast)
  · intro msg' i' e' segs' h' hsame mem
    rw [h'.fetchStores, hsame]

/-- A message with a question for `a.b` and two answers, whose owners `b` and `a.b` are written
with pointers into it. -/
def compressedMessage : Bytes :=
  [0, 1, 0x81, 0x80, 0, 1, 0, 2, 0, 0, 0, 0, 1, 97, 1, 98, 0, 0, 1, 0, 1, 0xc0, 14, 1, 97, 0xc0, 14]

theorem compressedMessage_question : NameAt compressedMessage 12 [[[97], [98]]] 17 :=
  .label (by decide) (by decide) (by decide)
    (.label (by decide) (by decide) (by decide) (.zero (by decide)))

theorem compressedMessage_tail : NameAt compressedMessage 14 [[[98]]] 17 :=
  .label (by decide) (by decide) (by decide) (.zero (by decide))

theorem compressedMessage_owner : NameAt compressedMessage 23 [[[97]], [[98]]] 27 :=
  .label (by decide) (by decide) (by decide) (.pointer (by decide) (by decide)
    compressedMessage_tail)

/-- The two ways to write `a.b` leave the same string. -/
theorem fetchLabel_expands_sample :
    StringAt (applyStores (fun _ => 7) (fetchStores compressedMessage (23 : ℕ)).sent)
        [97, 46, 98] ∧
      applyStores (fun _ => 7) (fetchStores compressedMessage (12 : ℕ)).sent =
        applyStores (fun _ => 7) (fetchStores compressedMessage (23 : ℕ)).sent := by
  obtain ⟨-, hstring, hsame⟩ := fetchLabel_expands compressedMessage 23 27 _
    compressedMessage_owner (by decide)
  exact ⟨hstring _, hsame _ 12 17 _ compressedMessage_question rfl _⟩

end Expansion

section Contract

/-- What is documented of a call on a name that decodes to `text`: it returns the length of the
string, and writes no place but those of the string and its terminator. -/
def MeetsContract (msg : Bytes) (i : ℕ) (text : Bytes) : Prop :=
  (∃ next, (fetchStores msg i).result = .ok ((text.length : ℤ), next)) ∧
    ∀ s ∈ (fetchStores msg i).sent, 0 ≤ s.index ∧ s.index ≤ text.length

theorem dottedEach_append (labels more : List Bytes) :
    dottedEach (labels ++ more) = dottedEach labels ++ dottedEach more := List.flatMap_append

theorem dottedEach_length_eq_zero {labels : List Bytes} :
    (dottedEach labels).length = 0 ↔ labels = [] := by
  constructor
  · intro h
    by_contra hne
    have := dottedEach_length_pos hne
    omega
  · rintro rfl
    rfl

/-- The innermost call writes the last segment. -/
theorem lastCount_concat (segs : List (List Bytes)) (last : List Bytes) :
    lastCount 0 (segs ++ [last]) = (dottedEach last).length := by
  induction segs with
  | nil => exact Nat.zero_add _
  | cons seg segs ih =>
      rw [List.cons_append, lastCount]
      · exact ih
      · simp

/-- The contract holds exactly for the names with a label in which no label stands before a
pointer. -/
theorem fetchLabel_meetsContract_iff (msg : Bytes) (i e : ℕ) (segs : List (List Bytes))
    (h : NameAt msg i segs e) :
    MeetsContract msg i (dotted segs.flatten) ↔
      segs.flatten ≠ [] ∧ ∀ seg ∈ segs.dropLast, seg = [] := by
  obtain ⟨front, last, rfl⟩ : ∃ front last, segs = front ++ [last] :=
    ⟨_, _, (List.dropLast_append_getLast h.segs_ne_nil).symm⟩
  have hstores := h.fetchStores
  rw [lastCount_concat] at hstores
  rw [List.flatten_append, List.flatten_singleton] at hstores ⊢
  rw [List.dropLast_concat, ← List.flatten_eq_nil_iff, MeetsContract, hstores]
  have hsum := congrArg List.length (dottedEach_append front.flatten last)
  rw [List.length_append] at hsum
  by_cases hne : front.flatten ++ last = []
  · -- the root name: the terminator goes to the byte before the destination
    obtain ⟨hfront, rfl⟩ := List.append_eq_nil_iff.mp hne
    refine iff_of_false ?_ ?_
    · rintro ⟨⟨next, hret⟩, -⟩
      simp [hfront, dotted, dottedEach] at hret
    · simp [hne]
  · have hlong : (dottedEach (front.flatten ++ last)).length =
        (dotted (front.flatten ++ last)).length + 1 := by
      rw [dottedEach_eq hne, List.length_append, List.length_singleton]
    have hplaces : ∀ s ∈ textStores 0 (dottedEach (front.flatten ++ last)) ++
        [⟨(dottedEach (front.flatten ++ last)).length - 1, 0⟩],
        0 ≤ s.index ∧ s.index ≤ ((dotted (front.flatten ++ last)).length : ℤ) := by
      intro s hs
      rcases List.mem_append.mp hs with hs | hs
      · have := index_mem_textStores hs
        omega
      · obtain rfl := List.mem_singleton.mp hs
        dsimp only
        omega
    rw [and_iff_left hplaces, and_iff_right hne, ← dottedEach_length_eq_zero]
    constructor
    · rintro ⟨next, hret⟩
      have hret' := congrArg Prod.fst (Except.ok.inj hret)
      dsimp only at hret'
      omega
    · intro hzero
      refine ⟨_, congrArg Except.ok (Prod.ext ?_ rfl)⟩
      dsimp only
      omega

/-- The question of the message is uncompressed and meets the contract. -/
theorem fetchLabel_meetsContract_sample :
    MeetsContract compressedMessage 12 (dotted [[97], [98]]) :=
  (fetchLabel_meetsContract_iff compressedMessage 12 17 [[[97], [98]]]
    compressedMessage_question).mpr ⟨by decide, by decide⟩

/-- The owner name `a.b` has the length three and is reported with the length one. The root name
is reported with the length minus one, and its terminator goes to the byte before. -/
theorem fetchLabel_not_meetsContract :
    (NameAt compressedMessage 23 [[[97]], [[98]]] 27 ∧
      (fetchStores compressedMessage (23 : ℕ)).result = .ok (1, 27) ∧
      ¬ MeetsContract compressedMessage 23 (dotted [[97], [98]])) ∧
    (NameAt compressedMessage 16 [[]] 17 ∧
      (fetchStores compressedMessage (16 : ℕ)).result = .ok (-1, 16) ∧
      (fetchStores compressedMessage (16 : ℕ)).sent = [⟨-1, 0⟩] ∧
      ¬ MeetsContract compressedMessage 16 (dotted [])) := by
  have howner : (fetchStores compressedMessage (23 : ℕ)).result = .ok (1, 27) := by decide +kernel
  have hroot : (fetchStores compressedMessage (16 : ℕ)).result = .ok (-1, 16) := by decide +kernel
  refine ⟨⟨compressedMessage_owner, howner, ?_⟩, .zero (by decide), hroot, by decide +kernel, ?_⟩
  · rintro ⟨⟨next, hret⟩, -⟩
    cases howner.symm.trans hret
  · rintro ⟨⟨next, hret⟩, -⟩
    cases hroot.symm.trans hret

end Contract

end DnsRelay.Message
