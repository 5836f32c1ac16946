import DnsRelay.Message.Queries

/-!
# The limit of `str_to_label`

The loop stops when its output cursor reaches `maxlen`, and the test behind it asks only
whether a character of the host is left over. A host that the loop has just finished at the
limit passes this test, and its terminator is written one byte behind the limit.
-/

namespace DnsRelay.Message

open DnsRelay.Lib DnsRelay.Lib.Machine

variable {buffer buffer' host : Bytes} {d maxlen lastPos cumulate j : ℕ}

/-- A loop that comes to the end of the host has written in front of its cursor only. -/
theorem strToLabelLoop_changed {p c k : ℕ} (hpos : lastPos < j)
    (h : strToLabelLoop d maxlen host lastPos cumulate j buffer = .ok (buffer', some (p, c, k))) :
    ChangedIn buffer buffer' d (d + k) ∧ k = j + host.length ∧ p < k := by
  induction host generalizing lastPos cumulate j buffer with
  | nil =>
      cases h
      exact ⟨.refl, rfl, hpos⟩
  | cons ch host ih =>
      -- the byte written in this round, and the rest of the loop
      have hround : ∀ (i : ℕ) (b : UInt8) (p' c' : ℕ) (buffer₁ : Bytes), i ≤ j → p' ≤ j →
          writeByte buffer ((d : ℤ) + i) b = .ok buffer₁ →
          strToLabelLoop d maxlen host p' c' (j + 1) buffer₁ = .ok (buffer', some (p, c, k)) →
          ChangedIn buffer buffer' d (d + k) ∧ k = j + (ch :: host).length ∧ p < k := by
        intro i b p' c' buffer₁ hi hp' hw hloop
        obtain ⟨hchanged, hk, hp⟩ := ih (by omega) hloop
        rw [← Int.natCast_add] at hw
        obtain ⟨-, rfl⟩ := writeByte_ok hw
        refine ⟨(changedIn_set (by omega) (by omega)).trans hchanged, ?_, hp⟩
        rw [hk, List.length_cons]
        omega
      rw [strToLabelLoop] at h
      split at h
      · split at h
        · obtain ⟨buffer₁, hw, h⟩ := bind_eq_ok.mp h
          exact hround lastPos _ j 0 buffer₁ (by omega) le_rfl hw h
        · obtain ⟨buffer₁, hw, h⟩ := bind_eq_ok.mp h
          exact hround j _ lastPos _ buffer₁ le_rfl (by omega) hw h
      · cases h

/-- A host that is too long stops the loop at the limit, with every write in front of it. -/
theorem strToLabelLoop_over (buffer host : Bytes) (lastPos cumulate : ℕ)
    (hlong : maxlen < j + host.length) (hj : j ≤ maxlen) (hpos : lastPos < j)
    (hroom : d + maxlen ≤ buffer.length) :
    ∃ buffer', strToLabelLoop d maxlen host lastPos cumulate j buffer = .ok (buffer', none) := by
  induction host generalizing lastPos cumulate j buffer with
  | nil =>
      simp only [List.length_nil] at hlong
      omega
  | cons ch host ih =>
      simp only [List.length_cons] at hlong
      rw [strToLabelLoop]
      by_cases hlt : j < maxlen
      · rw [if_pos hlt]
        have hset : ∀ (i : ℕ) (b : UInt8), i ≤ j →
            writeByte buffer ((d : ℤ) + i) b = .ok (buffer.set (d + i) b) := by
          intro i b hi
          exact_mod_cast writeByte_of_lt (i := d + i) (by omega)
        split
        · rw [hset lastPos _ (by omega)]
          exact ih _ j 0 (by omega) (by omega) (by omega) (by rwa [List.length_set])
        · rw [hset j _ le_rfl]
          exact ih _ lastPos (cumulate + 1) (by omega) (by omega) (by omega)
            (by rwa [List.length_set])
      · rw [if_neg hlt]
        exact ⟨buffer, rfl⟩

/-- Only a host that is too long stops the loop early. -/
theorem lt_of_strToLabelLoop
    (h : strToLabelLoop d maxlen host lastPos cumulate j buffer = .ok (buffer', none)) :
    maxlen < j + host.length := by
  induction host generalizing lastPos cumulate j buffer with
  | nil => cases h
  | cons ch host ih =>
      rw [List.length_cons]
      rw [strToLabelLoop] at h
      split at h
      · split at h
        · obtain ⟨buffer₁, -, h⟩ := bind_eq_ok.mp h
          have := ih h
          omega
        · obtain ⟨buffer₁, -, h⟩ := bind_eq_ok.mp h
          have := ih h
          omega
      · omega

/-- A call for a host below the limit writes from `dest` up to what it returns, and nothing
else. -/
theorem strToLabel_changed {ret : ℤ} (h : strToLabel buffer d host maxlen = .ok (buffer', ret))
    (hmax : host.length < maxlen) :
    ret = ((host.length + 2 : ℕ) : ℤ) ∧ ChangedIn buffer buffer' d (d + (host.length + 2)) ∧
      d + host.length + 2 ≤ buffer.length := by
  obtain ⟨⟨buffer₁, r⟩, hloop, h⟩ := bind_eq_ok.mp h
  cases r with
  | none =>
      have := lt_of_strToLabelLoop hloop
      omega
  | some q =>
      obtain ⟨p, c, k⟩ := q
      obtain ⟨hchanged, rfl, hp⟩ := strToLabelLoop_changed (by omega) hloop
      obtain ⟨buffer₂, h₂, h⟩ := bind_eq_ok.mp h
      obtain ⟨buffer₃, h₃, h⟩ := bind_eq_ok.mp h
      cases h
      rw [← Int.natCast_add] at h₂ h₃
      obtain ⟨-, rfl⟩ := writeByte_ok h₂
      obtain ⟨hlt, rfl⟩ := writeByte_ok h₃
      rw [List.length_set, hchanged.length_eq] at hlt
      refine ⟨by push_cast; omega, ?_, by omega⟩
      refine (hchanged.mono le_rfl (by omega)).trans ?_
      exact (changedIn_set (by omega) (by omega)).trans (changedIn_set (by omega) (by omega))

/-- In an array of `maxlen` bytes, `str_to_label` stays inside and returns `-1`, or a number of
bytes that is not above the limit, with nothing behind them changed. -/
def RespectsLimit (host : Bytes) (maxlen : ℕ) : Prop :=
  ∀ dest : Bytes, dest.length = maxlen → ∃ dest' ret,
    strToLabel dest (0 : ℕ) host maxlen = .ok (dest', ret) ∧
      (ret = -1 ∨ ∃ r : ℕ, ret = r ∧ r ≤ maxlen ∧ ChangedIn dest dest' 0 r)

/-- The limit is respected for every host but those that end just at it. -/
theorem strToLabel_respectsLimit_iff (host : Bytes) (maxlen : ℕ) (hmax : 2 ≤ maxlen) :
    RespectsLimit host maxlen ↔ host.length + 1 ≠ maxlen := by
  constructor
  · intro h hfit
    obtain ⟨dest', ret, hcall, -⟩ := h (List.replicate maxlen 0) List.length_replicate
    -- the terminator would need one byte more
    obtain ⟨-, -, hroom⟩ := strToLabel_changed hcall (by omega)
    rw [List.length_replicate] at hroom
    omega
  · intro hne dest hdest
    by_cases hlong : maxlen < 1 + host.length
    · obtain ⟨dest', hloop⟩ := strToLabelLoop_over (d := 0) dest host 0 0 hlong (by omega)
        (by omega) (by omega)
      exact ⟨dest', -1, bind_eq_ok.mpr ⟨_, hloop, rfl⟩, .inl rfl⟩
    · have hroom : 0 + host.length + 2 ≤ dest.length := by omega
      obtain ⟨dest', ret, hcall⟩ := strToLabel_of_le (show host.length < maxlen by omega) hroom
      obtain ⟨hret, hchanged, -⟩ := strToLabel_changed hcall (by omega)
      rw [Nat.zero_add] at hchanged
      exact ⟨dest', ret, hcall, .inr ⟨_, hret, by omega, hchanged⟩⟩

/-- The host `a` fits a limit of three bytes. -/
theorem strToLabel_respectsLimit_sample : RespectsLimit [97] 3 :=
  (strToLabel_respectsLimit_iff [97] 3 (by decide)).mpr (by decide)

/-- With the limit 2 its terminator is written to `dest[2]`, and 3 is returned. -/
theorem strToLabel_exceedsLimit :
    strToLabel [7, 7, 7] (0 : ℕ) [97] 2 = .ok ([1, 97, 0], 3) ∧ ¬ RespectsLimit [97] 2 := by
  refine ⟨rfl, fun h => ?_⟩
  obtain ⟨dest', ret, hcall, -⟩ := h [7, 7] rfl
  have hstop : stopOf (strToLabel [7, 7] (0 : ℕ) [97] 2) = some .fault := by decide
  rw [hcall] at hstop
  cases hstop

end DnsRelay.Message
