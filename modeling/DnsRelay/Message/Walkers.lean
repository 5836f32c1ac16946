import DnsRelay.Message.Names

/-!
# The walkers over the first question

`fetch_label` treats a byte from 64 on as a pointer and knows that a name ends behind it. The
loops of `skip_to_answer` and `read_dns_answers` take every byte as the length of a label, and a
byte from 128 on as a negative one. So they find the end of a name that ends in a zero byte, and
that of a compressed name only if their way happens to lead from the first byte of the pointer
to the second and this one is zero.
-/

namespace DnsRelay.Message

open DnsRelay.Lib DnsRelay.Lib.Machine DnsRelay.Lib.Walk Relation

variable {msg : Bytes} {pos r : ℤ} {i e : ℕ} {pointer : Option ℕ}

/-- The name at `i` ends before `e`, behind a zero byte or behind a pointer at the given
place. -/
inductive NameEnd (msg : Bytes) : ℕ → ℕ → Option ℕ → Prop
  | zero {i : ℕ} : msg[i]? = some 0 → NameEnd msg i (i + 1) none
  | pointer {i : ℕ} {b : UInt8} :
      msg[i]? = some b → isCompress b = true → NameEnd msg i (i + 2) (some i)
  | label {i e : ℕ} {b : UInt8} {pointer : Option ℕ} :
      msg[i]? = some b → b ≠ 0 → isCompress b = false →
      NameEnd msg (i + b.toNat + 1) e pointer → NameEnd msg i e pointer

/-- The byte at which the first segment of the name stops. -/
def nameStop (e : ℕ) : Option ℕ → ℕ
  | none => e - 1
  | some p => p

/-- A name that `fetch_label` decodes has an end. -/
theorem exists_nameEnd {fuel : ℕ} {out : Bytes} {f : Fetched}
    (h : fetchLoop msg fuel i out = .ok f) : ∃ e pointer, NameEnd msg i e pointer := by
  induction fuel generalizing i out with
  | zero => cases h
  | succ fuel ih =>
      obtain ⟨b, hb, h⟩ := bind_eq_ok.mp h
      rw [readByte_natCast] at hb
      split at h
      next h₀ => exact ⟨_, _, .zero (h₀ ▸ hb)⟩
      next h₀ =>
        split at h
        next hc => exact ⟨_, _, .pointer hb hc⟩
        next hc =>
          obtain ⟨label, -, h⟩ := bind_eq_ok.mp h
          have hcast : (i : ℤ) + b.toNat + 1 = ((i + b.toNat + 1 : ℕ) : ℤ) := by
            push_cast
            rfl
          rw [hcast] at h
          obtain ⟨e, pointer, hend⟩ := ih h
          exact ⟨e, pointer, .label hb h₀ (Bool.eq_false_iff.mpr hc) hend⟩

/-- The skipper stops where its way comes to a zero byte. -/
theorem skipLoop_reaches {fuel : ℕ} (h : skipLoop msg fuel pos = .ok r) :
    ReflTransGen (Moves (skipNext msg)) pos r ∧ readByte msg r = .ok 0 := by
  induction fuel generalizing pos with
  | zero => cases h
  | succ fuel ih =>
      obtain ⟨b, hb, h⟩ := bind_eq_ok.mp h
      split at h
      next h₀ =>
        cases h
        exact ⟨.refl, h₀ ▸ hb⟩
      next h₀ =>
        obtain ⟨hreach, hzero⟩ := ih h
        exact ⟨.head (by simp [Moves, skipNext, hb, h₀]) hreach, hzero⟩

theorem skipLoop_of_reaches (h : ReflTransGen (Moves (skipNext msg)) pos r)
    (hzero : readByte msg r = .ok 0) : ∃ fuel, skipLoop msg fuel pos = .ok r := by
  induction h using ReflTransGen.head_induction_on with
  | refl => exact ⟨1, by simp [skipLoop, hzero, bind, Except.bind, pure, Except.pure]⟩
  | @head p q hpq _ ih =>
      obtain ⟨fuel, hloop⟩ := ih
      refine ⟨fuel + 1, ?_⟩
      rw [Moves, skipNext] at hpq
      cases hb : readByte msg p with
      | error e => simp [hb] at hpq
      | ok b =>
          by_cases h₀ : b = 0
          · simp [hb, h₀] at hpq
          · simp only [hb, h₀, if_false, Option.some.injEq] at hpq
            simp [skipLoop, hb, h₀, hpq, hloop, bind, Except.bind]

theorem skipQuestion_eq_ok_iff :
    skipQuestion msg pos = .ok (r + 5) ↔
      ReflTransGen (Moves (skipNext msg)) pos r ∧ readByte msg r = .ok 0 := by
  constructor
  · intro h
    obtain ⟨q, hq, h⟩ := bind_eq_ok.mp h
    have hqr : q + 5 = r + 5 := Except.ok.inj h
    obtain rfl : q = r := by omega
    exact skipLoop_reaches hq
  · rintro ⟨hreach, hzero⟩
    obtain ⟨fuel, hloop⟩ := skipLoop_of_reaches hreach hzero
    exact skipQuestion_of_skipLoop hloop

/-- The labels of the first segment are skipped as they are decoded. -/
theorem NameEnd.skips (h : NameEnd msg i e pointer) :
    ReflTransGen (Moves (skipNext msg)) i (nameStop e pointer) := by
  induction h with
  | @zero i h₀ => simpa [nameStop] using ReflTransGen.refl
  | @pointer i b hb hc => exact .refl
  | @label i e b pointer hb h₀ hc _ ih =>
      refine .head ?_ ih
      have hsmall : signedChar b = b.toNat := by
        rw [signedChar, if_pos]
        by_contra hbig
        have : isCompress b = true := isCompress_iff.mpr (by omega)
        rw [hc] at this
        cases this
      simp [Moves, skipNext, readByte_natCast.mpr hb, h₀, hsmall]

/-- A name that does not end in a pointer ends in a zero byte. -/
theorem NameEnd.zero_of_none (h : NameEnd msg i e none) :
    1 ≤ e ∧ msg[e - 1]? = some 0 := by
  generalize hp : (none : Option ℕ) = pointer at h
  induction h with
  | zero h₀ => exact ⟨by omega, by simpa using h₀⟩
  | pointer hb hc => cases hp
  | label _ _ _ _ ih => exact ih hp

theorem NameEnd.end_of_some {p : ℕ} (h : NameEnd msg i e (some p)) : e = p + 2 := by
  generalize hp : some p = pointer at h
  induction h with
  | zero h₀ => cases hp
  | pointer hb hc =>
      cases hp
      rfl
  | label _ _ _ _ ih => exact ih hp

/-- A name has one end. -/
theorem NameEnd.unique {e' : ℕ} {pointer' : Option ℕ} (h : NameEnd msg i e pointer)
    (h' : NameEnd msg i e' pointer') : e' = e ∧ pointer' = pointer := by
  induction h with
  | @zero i hb =>
      cases h' with
      | zero _ => exact ⟨rfl, rfl⟩
      | pointer hb' hc =>
          cases hb.symm.trans hb'
          cases hc
      | label hb' h₀ =>
          cases hb.symm.trans hb'
          exact absurd rfl h₀
  | @pointer i b hb hc =>
      cases h' with
      | zero hb' =>
          cases hb.symm.trans hb'
          cases hc
      | pointer _ _ => exact ⟨rfl, rfl⟩
      | label hb' _ hc' =>
          cases hb.symm.trans hb'
          rw [hc] at hc'
          cases hc'
  | @label i e b pointer hb h₀ hc _ ih =>
      cases h' with
      | zero hb' =>
          cases hb.symm.trans hb'
          exact absurd rfl h₀
      | pointer hb' hc' =>
          cases hb.symm.trans hb'
          rw [hc] at hc'
          cases hc'
      | label hb' _ _ hrest =>
          cases hb.symm.trans hb'
          exact ih hrest

/-- Both skippers stop right behind the type and the class of a question whose name ends
before `e`. -/
def WalkersAgree (msg : Bytes) (e : ℕ) : Prop :=
  skipToAnswer msg = .ok ((e + 4 : ℕ) : ℤ) ∧
    skipQuestions msg 1 dnsHeaderSize = .ok ((e + 4 : ℕ) : ℤ)

theorem skipQuestions_one : skipQuestions msg 1 pos = skipQuestion msg pos := by
  rw [skipQuestions]
  cases skipQuestion msg pos <;> rfl

/-- The name ends in a zero byte, or the skippers find their way from the first byte of the
pointer to the second, and this one is zero. -/
def SkipsPointer (msg : Bytes) : Option ℕ → Prop
  | none => True
  | some p => msg[p + 1]? = some 0 ∧
      ReflTransGen (Moves (skipNext msg)) (p : ℤ) ((p + 1 : ℕ) : ℤ)

theorem NameEnd.walkersAgree_iff (h : NameEnd msg 12 e pointer) :
    WalkersAgree msg e ↔ SkipsPointer msg pointer := by
  have hskip : WalkersAgree msg e ↔ ReflTransGen (Moves (skipNext msg)) ((12 : ℕ) : ℤ) (e - 1) ∧
      readByte msg (e - 1) = .ok 0 := by
    rw [WalkersAgree, skipQuestions_one, skipToAnswer, and_self, ← skipQuestion_eq_ok_iff,
      show ((e + 4 : ℕ) : ℤ) = (e : ℤ) - 1 + 5 by push_cast; omega]
    rfl
  have hway := h.skips
  rw [hskip]
  cases pointer with
  | none =>
      obtain ⟨hpos, hzero⟩ := h.zero_of_none
      have hcast : (e : ℤ) - 1 = ((e - 1 : ℕ) : ℤ) := by omega
      rw [hcast]
      exact iff_of_true ⟨hway, readByte_natCast.mpr hzero⟩ trivial
  | some p =>
      obtain rfl := h.end_of_some
      have hcast : ((p + 2 : ℕ) : ℤ) - 1 = ((p + 1 : ℕ) : ℤ) := by
        push_cast
        omega
      rw [hcast]
      constructor
      · rintro ⟨hreach, hzero⟩
        refine ⟨readByte_natCast.mp hzero, reaches_end hway hreach ?_⟩
        simp only [skipNext, hzero, if_true]
      · rintro ⟨hzero, hreach⟩
        exact ⟨hway.trans hreach, readByte_natCast.mpr hzero⟩

/-- The question of a message whose name `fetch_label` decodes has one end, and the other walkers
stop behind its type and class exactly when the name ends in a zero byte, or the two bytes of its
pointer lead them there. -/
theorem walkers_agree_iff (msg : Bytes) (f : Fetched) (h : fetchLabel msg dnsHeaderSize = .ok f) :
    ∃ e pointer, (∀ e' pointer', NameEnd msg 12 e' pointer' ↔ e' = e ∧ pointer' = pointer) ∧
      (WalkersAgree msg e ↔ SkipsPointer msg pointer) := by
  obtain ⟨e, pointer, hend⟩ := exists_nameEnd (i := 12) h
  refine ⟨e, pointer, fun e' pointer' => ⟨hend.unique, ?_⟩, hend.walkersAgree_iff⟩
  rintro ⟨rfl, rfl⟩
  exact hend

/-- A query for `a` without pointers. -/
def plainQuery : Bytes := [0, 7, 1, 0, 0, 1, 0, 0, 0, 0, 0, 0, 1, 97, 0, 0, 1, 0, 1]

theorem walkers_agree_sample : WalkersAgree plainQuery 15 := by
  obtain ⟨e, pointer, hend, hiff⟩ := walkers_agree_iff plainQuery ⟨[97, 46], 1, 14⟩ (by decide)
  have hplain : NameEnd plainQuery 12 15 none := .label rfl (by decide) rfl (.zero rfl)
  obtain ⟨rfl, rfl⟩ := (hend 15 none).mp hplain
  exact hiff.mpr trivial

/-- A query whose name is a pointer to `a`, which stands behind the question. -/
def pointerQuery : Bytes :=
  [0, 7, 1, 0, 0, 1, 0, 0, 0, 0, 0, 0, 0xc0, 18, 0, 1, 0, 1, 1, 97, 0]

/-- The name is decoded and ends before the byte 14, and the other walkers leave the message. -/
theorem walkers_not_agree :
    fetchLabel pointerQuery dnsHeaderSize = .ok ⟨[97, 46], 1, 14⟩ ∧
      NameEnd pointerQuery 12 14 (some 12) ∧ skipToAnswer pointerQuery = .error .fault ∧
      ¬ WalkersAgree pointerQuery 14 := by
  have hskip : skipToAnswer pointerQuery = .error .fault := by decide
  refine ⟨by decide, .pointer rfl rfl, hskip, ?_⟩
  rintro ⟨hagree, -⟩
  rw [hskip] at hagree
  cases hagree

end DnsRelay.Message
