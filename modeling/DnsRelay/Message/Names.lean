import DnsRelay.Message.Model
import DnsRelay.Lib.Machine
import DnsRelay.Lib.Region
import DnsRelay.Lib.Walk
import Mathlib.Data.Finset.Image

/-!
# Decoding names

`NameAt msg i segs e` is the format of RFC 1035: the name that starts at `i` and ends
before `e` consists of the labels of `segs`, where every segment but the last one ends in
a pointer to the next. A derivation exists exactly when the chain of pointers comes to an
end inside the message. `fetch_label` walks such a name, whatever stands around it.
-/

namespace DnsRelay.Message

open DnsRelay.Lib DnsRelay.Lib.Machine DnsRelay.Lib.Walk

variable {buffer msg out : Bytes} {pos : ℤ} {i n e fuel : ℕ} {b : UInt8}

section Memory

@[simp] theorem readByte_natCast : readByte buffer (i : ℤ) = .ok b ↔ buffer[i]? = some b := by
  rw [readByte.eq_def]
  cases hcell : buffer[i]? with
  | some c => simp [hcell]
  | none => simp [hcell]

/-- A byte that could be read lies in the buffer. -/
theorem readByte_ok (h : readByte buffer pos = .ok b) :
    ∃ i : ℕ, pos = i ∧ buffer[i]? = some b ∧ i < buffer.length := by
  cases pos with
  | ofNat i =>
      have hcell : buffer[i]? = some b := readByte_natCast.mp h
      exact ⟨i, rfl, hcell, (List.getElem?_eq_some_iff.mp hcell).1⟩
  | negSucc i => cases h

theorem readBytes_of_hasAt {s : Bytes} (h : HasAt buffer i s) :
    readBytes buffer i s.length = .ok s := by
  induction s generalizing i with
  | nil => rfl
  | cons b s ih =>
      rw [hasAt_cons] at h
      have hrest : readBytes buffer ((i : ℤ) + 1) s.length = .ok s := by
        exact_mod_cast ih h.2
      simp [readBytes, readByte_natCast.mpr h.1, hrest, bind, Except.bind, pure, Except.pure]

theorem readBytes_length {bytes : Bytes} (h : readBytes buffer pos n = .ok bytes) :
    bytes.length = n := by
  induction n generalizing pos bytes with
  | zero =>
      cases h
      rfl
  | succ n ih =>
      obtain ⟨b, -, h⟩ := bind_eq_ok.mp h
      obtain ⟨bs, hbs, h⟩ := bind_eq_ok.mp h
      cases h
      rw [List.length_cons, ih hbs]

/-- What could be read ends inside the buffer. -/
theorem readBytes_le {bytes : Bytes} (hi : i ≤ buffer.length)
    (h : readBytes buffer i n = .ok bytes) : i + n ≤ buffer.length := by
  induction n generalizing i bytes with
  | zero => exact hi
  | succ n ih =>
      obtain ⟨b, hb, h⟩ := bind_eq_ok.mp h
      obtain ⟨bs, hbs, -⟩ := bind_eq_ok.mp h
      obtain ⟨hlt, -⟩ := List.getElem?_eq_some_iff.mp (readByte_natCast.mp hb)
      have hrest := ih (i := i + 1) (by omega) (by exact_mod_cast hbs)
      omega

@[simp] theorem u16Bytes_length (x : ℕ) : (u16Bytes x).length = 2 := rfl

theorem readU16_of_hasAt {x : ℕ} (hx : x < 65536) (h : HasAt buffer i (u16Bytes x)) :
    readU16 buffer i = .ok x := by
  simp only [u16Bytes, hasAt_cons, hasAt_nil, and_true] at h
  have hlo : readByte buffer ((i : ℤ) + 1) = .ok (UInt8.ofNat x) := by
    exact_mod_cast readByte_natCast.mpr h.2
  have hval : (UInt8.ofNat (x / 256)).toNat * 256 + (UInt8.ofNat x).toNat = x := by
    simp only [UInt8.toNat_ofNat']
    omega
  simp only [readU16, readByte_natCast.mpr h.1, hlo, bind, Except.bind, pure, Except.pure]
  rw [hval]

theorem readU32_of_hasAt {x : ℕ} (hx : x < 2 ^ 32) (h : HasAt buffer i (u32Bytes x)) :
    readU32 buffer i = .ok x := by
  rw [u32Bytes, hasAt_append] at h
  have hhi := readU16_of_hasAt (by omega) h.1
  have hmod : u16Bytes x = u16Bytes (x % 65536) := by
    simp only [u16Bytes, List.cons.injEq, and_true]
    constructor
    · apply UInt8.toNat_inj.mp
      simp only [UInt8.toNat_ofNat']
      omega
    · apply UInt8.toNat_inj.mp
      simp only [UInt8.toNat_ofNat']
      omega
  have hlo : readU16 buffer ((i : ℤ) + 2) = .ok (x % 65536) := by
    have h2 := h.2
    rw [hmod] at h2
    exact_mod_cast readU16_of_hasAt (by omega) h2
  have hval : x / 65536 * 65536 + x % 65536 = x := by omega
  simp [readU32, hhi, hlo, bind, Except.bind, pure, Except.pure, hval]

end Memory

section Fuel

/-- Where the name walk continues after the byte at `pos`. -/
def nameNext (buffer : Bytes) (pos : ℤ) : Option ℤ :=
  match readByte buffer pos with
  | .error _ => none
  | .ok b =>
      if b = 0 then none
      else if isCompress b then
        match readByte buffer (pos + 1) with
        | .error _ => none
        | .ok lo => some (compressPos b lo)
      else
        match readBytes buffer (pos + 1) b.toNat with
        | .error _ => none
        | .ok _ => some (pos + b.toNat + 1)

/-- Where the question skipper continues after the byte at `pos`. -/
def skipNext (buffer : Bytes) (pos : ℤ) : Option ℤ :=
  match readByte buffer pos with
  | .error _ => none
  | .ok b => if b = 0 then none else some (pos + signedChar b + 1)

/-- The offsets of the bytes of a buffer. -/
def offsets (buffer : Bytes) : Finset ℤ :=
  (Finset.range buffer.length).map ⟨fun (i : ℕ) => (i : ℤ), fun _ _ h => Int.ofNat.inj h⟩

theorem mem_offsets (h : readByte buffer pos = .ok b) : pos ∈ offsets buffer := by
  obtain ⟨i, rfl, -, hi⟩ := readByte_ok h
  exact Finset.mem_map.mpr ⟨i, Finset.mem_range.mpr hi, rfl⟩

theorem card_offsets : (offsets buffer).card = buffer.length := by
  simp [offsets]

theorem nameNext_mem (p q : ℤ) (h : nameNext buffer p = some q) : p ∈ offsets buffer := by
  cases hb : readByte buffer p with
  | ok b => exact mem_offsets hb
  | error e => simp [nameNext, hb] at h

theorem skipNext_mem (p q : ℤ) (h : skipNext buffer p = some q) : p ∈ offsets buffer := by
  cases hb : readByte buffer p with
  | ok b => exact mem_offsets hb
  | error e => simp [skipNext, hb] at h

theorem fetchLoop_unrolls :
    Unrolls (nameNext buffer) (fetchLoop buffer) (.error .hang) where
  zero := fun pos out => rfl
  stop := by
    intro pos out h m n
    simp only [nameNext] at h
    rw [fetchLoop, fetchLoop]
    cases hb : readByte buffer pos with
    | error e => rfl
    | ok b =>
        simp only [hb] at h
        by_cases h0 : b = 0
        · simp [h0, bind, Except.bind]
        · cases hc : isCompress b with
          | true =>
              cases hlo : readByte buffer (pos + 1) with
              | ok lo => simp [h0, hc, hlo] at h
              | error e => simp [h0, hc, bind, Except.bind]
          | false =>
              cases hl : readBytes buffer (pos + 1) b.toNat with
              | ok label => simp [h0, hc, hl] at h
              | error e => simp [h0, hc, hl, bind, Except.bind]
  step := by
    intro pos q out h
    simp only [nameNext] at h
    cases hb : readByte buffer pos with
    | error e => simp [hb] at h
    | ok b =>
        simp only [hb] at h
        by_cases h0 : b = 0
        · simp [h0] at h
        · cases hc : isCompress b with
          | true =>
              cases hlo : readByte buffer (pos + 1) with
              | error e => simp [h0, hc, hlo] at h
              | ok lo =>
                  simp only [h0, hc, hlo, if_true, if_false, Option.some.injEq] at h
                  refine ⟨[], fun r => r >>= fun inner =>
                    pure ⟨out ++ inner.out, inner.ret, pos + 2⟩, rfl, fun n => ?_⟩
                  rw [fetchLoop, ← h]
                  simp [hb, h0, hc, hlo, bind, Except.bind]
          | false =>
              cases hl : readBytes buffer (pos + 1) b.toNat with
              | error e => simp [h0, hc, hl] at h
              | ok label =>
                  simp only [h0, hc, hl, if_false, Bool.false_eq_true, Option.some.injEq] at h
                  refine ⟨out ++ label ++ [dot], id, rfl, fun n => ?_⟩
                  rw [fetchLoop, ← h]
                  simp [hb, h0, hc, hl, bind, Except.bind]

theorem skipLoop_unrolls :
    Unrolls (skipNext buffer) (fun n pos (_ : Unit) => skipLoop buffer n pos)
      (.error .hang) where
  zero := fun pos _ => rfl
  stop := by
    intro pos _ h m n
    simp only [skipNext] at h
    simp only [skipLoop]
    cases hb : readByte buffer pos with
    | error e => rfl
    | ok b =>
        by_cases h0 : b = 0
        · simp [h0, bind, Except.bind]
        · simp [hb, h0] at h
  step := by
    intro pos q _ h
    simp only [skipNext] at h
    cases hb : readByte buffer pos with
    | error e => simp [hb] at h
    | ok b =>
        by_cases h0 : b = 0
        · simp [hb, h0] at h
        · simp only [hb, h0, if_false, Option.some.injEq] at h
          refine ⟨(), id, rfl, fun n => ?_⟩
          simp [skipLoop, hb, h0, ← h, bind, Except.bind]

/-- `fetch_label` returns whatever any number of rounds returns. -/
theorem fetchLabel_of_fetchLoop {r : Fetched} (h : fetchLoop buffer fuel pos [] = .ok r) :
    fetchLabel buffer pos = .ok r := by
  rw [← h]
  apply fetchLoop_unrolls.eq_of_card_lt nameNext_mem
  · rw [card_offsets]
    omega
  · simp [h]

theorem skipQuestion_of_skipLoop {r : ℤ} (h : skipLoop buffer fuel pos = .ok r) :
    skipQuestion buffer pos = .ok (r + 5) := by
  have hloop : skipLoop buffer (buffer.length + 1) pos = .ok r := by
    rw [← h]
    apply skipLoop_unrolls.eq_of_card_lt (a := ()) skipNext_mem
    · rw [card_offsets]
      omega
    · simp [h]
  simp [skipQuestion, hloop, bind, Except.bind, pure, Except.pure]

end Fuel

section Format

/-- The name at `i`, in the format of RFC 1035: its labels by segment, and its end. -/
inductive NameAt (msg : Bytes) : ℕ → List (List Bytes) → ℕ → Prop
  | zero {i : ℕ} : HasAt msg i [0] → NameAt msg i [[]] (i + 1)
  | label {i e : ℕ} {label : Bytes} {seg : List Bytes} {segs : List (List Bytes)} :
      1 ≤ label.length → label.length ≤ 63 →
      HasAt msg i (UInt8.ofNat label.length :: label) →
      NameAt msg (i + label.length + 1) (seg :: segs) e →
      NameAt msg i ((label :: seg) :: segs) e
  | pointer {i t e : ℕ} {segs : List (List Bytes)} :
      t < 0x4000 → HasAt msg i (u16Bytes (0xc000 + t)) → NameAt msg t segs e →
      NameAt msg i ([] :: segs) (i + 2)

/-- The labels of a name joined by dots. -/
def dotted (labels : List Bytes) : Bytes := List.intercalate [dot] labels

/-- The labels of a name, each followed by a dot. -/
def dottedEach (labels : List Bytes) : Bytes := labels.flatMap (· ++ [dot])

theorem dottedEach_eq {labels : List Bytes} (h : labels ≠ []) :
    dottedEach labels = dotted labels ++ [dot] := by
  induction labels with
  | nil => exact absurd rfl h
  | cons label labels ih =>
      cases labels with
      | nil => simp [dottedEach, dotted]
      | cons label' labels =>
          have ih := ih (by simp)
          rw [dottedEach, List.flatMap_cons]
          change label ++ [dot] ++ dottedEach (label' :: labels) = _
          rw [ih]
          simp [dotted, List.intercalate]

/-- How many characters the innermost call of `fetch_label` writes, when the outermost
one has written `k` of them before. -/
def lastCount : ℕ → List (List Bytes) → ℕ
  | k, [] => k
  | k, [seg] => k + (dottedEach seg).length
  | _, _ :: segs => lastCount 0 segs

/-- Where `fetch_label` says that a name ends: at the zero byte, or behind the pointer. -/
def nextOf (segs : List (List Bytes)) (e : ℕ) : ℤ :=
  if segs.length = 1 then e - 1 else e

theorem isCompress_iff : isCompress b = true ↔ 64 ≤ b.toNat := by
  have hall : ∀ n : Fin 256, isCompress (UInt8.ofNat n) = true ↔ 64 ≤ (n : ℕ) := by
    decide +kernel
  simpa using hall ⟨b.toNat, b.toNat_lt⟩

theorem NameAt.segs_ne_nil {segs : List (List Bytes)} (h : NameAt msg i segs e) :
    segs ≠ [] := by
  cases h <;> simp

/-- The length byte of a label is neither the end of the name nor a pointer. -/
theorem labelByte {k : ℕ} (h₁ : 1 ≤ k) (h₂ : k ≤ 63) :
    UInt8.ofNat k ≠ 0 ∧ isCompress (UInt8.ofNat k) = false ∧ (UInt8.ofNat k).toNat = k ∧
      signedChar (UInt8.ofNat k) = k := by
  have hk : (UInt8.ofNat k).toNat = k := by
    rw [UInt8.toNat_ofNat']
    omega
  refine ⟨?_, ?_, hk, ?_⟩
  · intro h0
    rw [h0] at hk
    simp at hk
    omega
  · rw [← Bool.not_eq_true, isCompress_iff]
    omega
  · rw [signedChar, hk, if_pos (by omega)]

/-- The walk over a name in the format. -/
theorem NameAt.fetchLoop {segs : List (List Bytes)} (h : NameAt msg i segs e)
    (rest : Bytes) : ∃ n, ∀ out, fetchLoop (msg ++ rest) n i out =
      .ok ⟨out ++ dottedEach segs.flatten, lastCount out.length segs - 1, nextOf segs e⟩ := by
  induction h with
  | @zero i h0 =>
      refine ⟨1, fun out => ?_⟩
      have hb : readByte (msg ++ rest) i = .ok 0 :=
        readByte_natCast.mpr (hasAt_cons.mp (h0.append_right rest)).1
      simp [Message.fetchLoop, hb, bind, Except.bind, pure, Except.pure, dottedEach, lastCount,
        nextOf]
  | @label i e label seg segs h₁ h₂ hat hname ih =>
      obtain ⟨n, ih⟩ := ih
      refine ⟨n + 1, fun out => ?_⟩
      obtain ⟨hne, hc, hk, -⟩ := labelByte h₁ h₂
      obtain ⟨hbyte, hlabel⟩ := hasAt_cons.mp (hat.append_right rest)
      have hb := readByte_natCast.mpr hbyte
      have hl : readBytes (msg ++ rest) ((i : ℤ) + 1) label.length = .ok label := by
        exact_mod_cast readBytes_of_hasAt hlabel
      have hrest := ih (out ++ label ++ [dot])
      have hpos : ((i + label.length + 1 : ℕ) : ℤ) = (i : ℤ) + label.length + 1 := by
        push_cast
        rfl
      rw [hpos] at hrest
      simp only [Message.fetchLoop, hb, hne, hc, hk, hl, if_false, Bool.false_eq_true, bind,
        Except.bind, hrest]
      cases segs with
      | nil =>
          simp [dottedEach, lastCount, nextOf]
          omega
      | cons seg' segs => simp [dottedEach, lastCount, nextOf]
  | @pointer i t e segs ht hat hname ih =>
      obtain ⟨n, ih⟩ := ih
      refine ⟨n + 1, fun out => ?_⟩
      have hcells := hat.append_right rest
      simp only [u16Bytes, hasAt_cons, hasAt_nil, and_true] at hcells
      have hb := readByte_natCast.mpr hcells.1
      have hlo : readByte (msg ++ rest) ((i : ℤ) + 1) = .ok (UInt8.ofNat (0xc000 + t)) := by
        exact_mod_cast readByte_natCast.mpr hcells.2
      have hhi : (UInt8.ofNat ((0xc000 + t) / 256)).toNat = (0xc000 + t) / 256 := by
        rw [UInt8.toNat_ofNat']
        omega
      have hlow : (UInt8.ofNat (0xc000 + t)).toNat = t % 256 := by
        rw [UInt8.toNat_ofNat']
        omega
      have hc : isCompress (UInt8.ofNat ((0xc000 + t) / 256)) = true := by
        rw [isCompress_iff, hhi]
        omega
      have hne : UInt8.ofNat ((0xc000 + t) / 256) ≠ 0 := by
        intro h0
        rw [h0] at hhi
        simp at hhi
        omega
      have htarget : compressPos (UInt8.ofNat ((0xc000 + t) / 256)) (UInt8.ofNat (0xc000 + t)) =
          t := by
        rw [compressPos, hhi, hlow]
        omega
      simp only [Message.fetchLoop, hb, hne, hc, hlo, htarget, if_false, if_true, bind,
        Except.bind, ih [], pure, Except.pure]
      cases segs with
      | nil => exact absurd rfl hname.segs_ne_nil
      | cons seg segs => simp [lastCount, nextOf]

theorem NameAt.fetchLabel {segs : List (List Bytes)} (h : NameAt msg i segs e)
    (rest : Bytes) : fetchLabel (msg ++ rest) i =
      .ok ⟨dottedEach segs.flatten, lastCount 0 segs - 1, nextOf segs e⟩ := by
  obtain ⟨n, hn⟩ := h.fetchLoop rest
  exact fetchLabel_of_fetchLoop (hn [])

/-- The question skipper finds the zero byte of an uncompressed name. -/
theorem NameAt.skipLoop {segs : List (List Bytes)} (h : NameAt msg i segs e)
    (hone : segs.length = 1) (rest : Bytes) : ∃ n, skipLoop (msg ++ rest) n i = .ok (e - 1) := by
  induction h with
  | @zero i h0 =>
      have hb : readByte (msg ++ rest) i = .ok 0 :=
        readByte_natCast.mpr (hasAt_cons.mp (h0.append_right rest)).1
      exact ⟨1, by simp [Message.skipLoop, hb, bind, Except.bind, pure, Except.pure]⟩
  | @label i e label seg segs h₁ h₂ hat hname ih =>
      obtain ⟨n, ih⟩ := ih (by simpa using hone)
      refine ⟨n + 1, ?_⟩
      obtain ⟨hne, -, -, hk⟩ := labelByte h₁ h₂
      have hb := readByte_natCast.mpr (hasAt_cons.mp (hat.append_right rest)).1
      have hpos : ((i + label.length + 1 : ℕ) : ℤ) = (i : ℤ) + label.length + 1 := by
        push_cast
        rfl
      rw [hpos] at ih
      simp [Message.skipLoop, hb, hne, hk, ih, bind, Except.bind]
  | @pointer i t e segs ht hat hname ih =>
      have hpos := List.length_pos_iff.mpr hname.segs_ne_nil
      simp only [List.length_cons] at hone
      omega

theorem NameAt.skipQuestion {segs : List (List Bytes)} (h : NameAt msg i segs e)
    (hone : segs.length = 1) (rest : Bytes) :
    skipQuestion (msg ++ rest) i = .ok ((e + 4 : ℕ) : ℤ) := by
  obtain ⟨n, hn⟩ := h.skipLoop hone rest
  rw [skipQuestion_of_skipLoop hn]
  congr 1
  push_cast
  omega

end Format

end DnsRelay.Message
