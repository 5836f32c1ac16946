import DnsRelay.Message.Names

/-!
# Termination of name decoding

`fetch_label` follows compression pointers to any offset and counts neither its steps nor
its calls. Labels lead forward only, so a walk that does not end comes back to one of its
pointers: decoding ends exactly when no pointer on the way leads back to itself.
-/

namespace DnsRelay.Message

open DnsRelay.Lib DnsRelay.Lib.Machine DnsRelay.Lib.Walk Relation

variable {buffer : Bytes} {p q t : ℤ}

/-- Some number of rounds of its loop and its calls is enough for `fetch_label`. -/
def Terminates (buffer : Bytes) (src : ℤ) : Prop :=
  ∃ rounds, fetchLoop buffer rounds src [] ≠ .error .hang

/-- The bytes at `p` are a compression pointer to `t`. -/
def PointerAt (buffer : Bytes) (p t : ℤ) : Prop :=
  ∃ hi lo, readByte buffer p = .ok hi ∧ hi ≠ 0 ∧ isCompress hi = true ∧
    readByte buffer (p + 1) = .ok lo ∧ t = compressPos hi lo

/-- Labels and pointers lead from `p` to `q`. -/
def Leads (buffer : Bytes) : ℤ → ℤ → Prop := ReflTransGen (Moves (nameNext buffer))

theorem readByte_ne_hang : readByte buffer p ≠ .error .hang := by
  unfold readByte
  split
  · split <;> nofun
  · nofun

theorem readBytes_ne_hang (n : ℕ) : readBytes buffer p n ≠ .error .hang := by
  induction n generalizing p with
  | zero => nofun
  | succ n ih =>
      refine bind_ne_error readByte_ne_hang fun b _ => bind_ne_error ih fun l _ => ?_
      nofun

/-- The loop does not run out of rounds before the end of the walk. -/
theorem fetchLoop_ne_hang {n : ℕ} (h : HaltsIn (nameNext buffer) n p) (out : Bytes) :
    fetchLoop buffer (n + 1) p out ≠ .error .hang := by
  induction n using Nat.strong_induction_on generalizing p out with
  | _ n ih =>
      rw [fetchLoop]
      refine bind_ne_error readByte_ne_hang fun b hb => ?_
      split
      · intro hstop
        cases hstop
      · split
        · refine bind_ne_error readByte_ne_hang fun lo hlo => ?_
          have hnext : nameNext buffer p = some (compressPos b lo) := by
            simp [nameNext, *]
          obtain ⟨m, rfl, hrest⟩ := h.of_next hnext
          refine bind_ne_error (ih m (by omega) hrest []) fun inner _ => ?_
          intro hstop
          cases hstop
        · refine bind_ne_error (readBytes_ne_hang b.toNat) fun label hl => ?_
          have hnext : nameNext buffer p = some (p + b.toNat + 1) := by
            simp [nameNext, *]
          obtain ⟨m, rfl, hrest⟩ := h.of_next hnext
          exact ih m (by omega) hrest _

theorem terminates_iff_halts : Terminates buffer p ↔ ∃ n, HaltsIn (nameNext buffer) n p := by
  constructor
  · rintro ⟨rounds, h⟩
    obtain ⟨n, -, hn⟩ := fetchLoop_unrolls.haltsIn_of_ne h
    exact ⟨n, hn⟩
  · rintro ⟨n, hn⟩
    exact ⟨n + 1, fetchLoop_ne_hang hn []⟩

/-- A pointer goes to its target, a label to an offset behind it. -/
theorem pointerAt_or_lt (h : Moves (nameNext buffer) p q) : PointerAt buffer p q ∨ p < q := by
  rw [Moves, nameNext] at h
  cases hb : readByte buffer p with
  | error e => simp [hb] at h
  | ok b =>
      by_cases h0 : b = 0
      · simp [hb, h0] at h
      · cases hc : isCompress b with
        | true =>
            cases hlo : readByte buffer (p + 1) with
            | error e => simp [hb, h0, hc, hlo] at h
            | ok lo =>
                simp only [hb, h0, hc, hlo, if_true, if_false, Option.some.injEq] at h
                exact .inl ⟨b, lo, hb, h0, hc, hlo, h.symm⟩
        | false =>
            cases hl : readBytes buffer (p + 1) b.toNat with
            | error e => simp [hb, h0, hc, hl] at h
            | ok label =>
                simp only [hb, h0, hc, hl, if_false, Bool.false_eq_true, Option.some.injEq] at h
                exact .inr (by omega)

theorem PointerAt.moves (h : PointerAt buffer p t) : Moves (nameNext buffer) p t := by
  obtain ⟨hi, lo, hb, h0, hc, hlo, rfl⟩ := h
  simp [Moves, nameNext, hb, h0, hc, hlo]

/-- A walk that never takes a pointer only goes forward. -/
theorem pointer_or_lt_of_walk (h : TransGen (Moves (nameNext buffer)) p q) :
    (∃ r t, Leads buffer p r ∧ PointerAt buffer r t ∧ Leads buffer t q) ∨ p < q := by
  induction h with
  | single h =>
      rcases pointerAt_or_lt h with hp | hlt
      · exact .inl ⟨p, _, .refl, hp, .refl⟩
      · exact .inr hlt
  | tail hwalk h ih =>
      rcases ih with ⟨r, t, hr, hp, ht⟩ | hlt
      · exact .inl ⟨r, t, hr, hp, ht.tail h⟩
      · rcases pointerAt_or_lt h with hp | hlt'
        · exact .inl ⟨_, _, hwalk.to_reflTransGen, hp, .refl⟩
        · exact .inr (lt_trans hlt hlt')

/-- Some pointer on the way from `p` leads back to itself. -/
def PointerLoop (buffer : Bytes) (p : ℤ) : Prop :=
  ∃ r t, Leads buffer p r ∧ PointerAt buffer r t ∧ Leads buffer t r

/-- Every cycle of the walk goes through a pointer. -/
theorem pointerLoop_iff_cycle :
    PointerLoop buffer p ↔ ∃ r, ReflTransGen (Moves (nameNext buffer)) p r ∧
      TransGen (Moves (nameNext buffer)) r r := by
  constructor
  · rintro ⟨r, t, hr, hp, ht⟩
    exact ⟨r, hr, TransGen.head' hp.moves ht⟩
  · rintro ⟨r, hr, hcycle⟩
    rcases pointer_or_lt_of_walk hcycle with ⟨r', t, hr', hp, ht⟩ | hlt
    · exact ⟨r', t, hr.trans hr', hp, ht.trans hr'⟩
    · exact absurd hlt (lt_irrefl r)

/-- Name decoding ends exactly when no compression pointer that it comes to leads back to
itself. The decoder counts with `short`, so this speaks for buffers of at most `32767` bytes.
Those of the program have `1024`. -/
theorem fetchLabel_terminates_iff (msg : Bytes) (start : ℕ) :
    Terminates msg start ↔ ¬ PointerLoop msg start := by
  rw [terminates_iff_halts, halts_iff_no_cycle nameNext_mem, pointerLoop_iff_cycle]

/-- A query whose question name is a pointer to itself. -/
def selfPointer : Bytes := [0, 7, 1, 0, 0, 1, 0, 0, 0, 0, 0, 0, 0xc0, 12, 0, 1, 0, 1]

theorem fetchLabel_not_terminates :
    ¬ ∀ (msg : Bytes) (start : ℕ), start < msg.length → Terminates msg start := by
  intro h
  obtain ⟨n, hn⟩ := terminates_iff_halts.mp (h selfPointer 12 (by decide))
  exact hn.no_cycle (.single (by decide : nameNext selfPointer 12 = some 12))

end DnsRelay.Message
