import DnsRelay.Message.Pointers
import DnsRelay.Message.Stores
import DnsRelay.Message.Writers
import Mathlib.Algebra.BigOperators.Group.Finset.Basic
import Mathlib.Data.Int.Interval

/-!
# The room that a decoded name takes

The labels that a walk comes to are written one behind the other, each with a dot, and nothing
relates their total to the destination. A walk that ends comes to each label once, so the
number of bytes written is a sum over the offsets that labels and pointers lead to.
-/

namespace DnsRelay.Message

open DnsRelay.Lib DnsRelay.Lib.Machine DnsRelay.Lib.Walk Relation

variable {buffer : Bytes} {p q dest : ℤ} {n fuel i : ℕ}

section Room

/-- The bytes that a label at an offset takes: its characters and a dot, or the characters that
are there when the end of the message cuts it off. -/
def labelRoom (buffer : Bytes) (p : ℤ) : ℕ :=
  match readByte buffer p with
  | .error _ => 0
  | .ok b =>
      if b = 0 ∨ isCompress b = true then 0
      else if p.toNat + b.toNat < buffer.length then b.toNat + 1
      else buffer.length - (p.toNat + 1)

open Classical in
/-- The offsets of the message that labels and pointers lead to. -/
noncomputable def reached (buffer : Bytes) (p : ℤ) : Finset ℤ :=
  (offsets buffer).filter (Leads buffer p)

/-- The bytes that the labels on the way take together. -/
noncomputable def nameRoom (buffer : Bytes) (p : ℤ) : ℕ :=
  ∑ q ∈ reached buffer p, labelRoom buffer q

theorem mem_reached : q ∈ reached buffer p ↔ q ∈ offsets buffer ∧ Leads buffer p q := by
  classical
  exact Finset.mem_filter

/-- The walk ends here. -/
theorem nameRoom_of_none (h : nameNext buffer p = none) :
    nameRoom buffer p = labelRoom buffer p := by
  have hself : ∀ q, Leads buffer p q ↔ q = p := by
    intro q
    constructor
    · intro hq
      rcases hq.cases_head with rfl | ⟨r, hr, -⟩
      · rfl
      · rw [Moves, h] at hr
        cases hr
    · rintro rfl
      exact .refl
  by_cases hp : p ∈ offsets buffer
  · have hreached : reached buffer p = {p} := by
      ext q
      rw [mem_reached, hself, Finset.mem_singleton]
      exact ⟨And.right, by rintro rfl; exact ⟨hp, rfl⟩⟩
    rw [nameRoom, hreached, Finset.sum_singleton]
  · have hreached : reached buffer p = ∅ := by
      ext q
      rw [mem_reached, hself]
      refine iff_of_false ?_ (Finset.notMem_empty q)
      rintro ⟨hq, rfl⟩
      exact hp hq
    have hroom : labelRoom buffer p = 0 := by
      rw [labelRoom]
      cases hb : readByte buffer p with
      | error e => rfl
      | ok b => exact absurd (mem_offsets hb) hp
    rw [nameRoom, hreached, Finset.sum_empty, hroom]

/-- The walk goes on, and does not come back. -/
theorem nameRoom_of_next (h : nameNext buffer p = some q) (hq : HaltsIn (nameNext buffer) n q) :
    nameRoom buffer p = labelRoom buffer p + nameRoom buffer q := by
  have hnot : p ∉ reached buffer q := by
    intro hp
    obtain ⟨-, hback⟩ := mem_reached.mp hp
    have hcycle : TransGen (Moves (nameNext buffer)) p p := TransGen.head' h hback
    have hhalt : HaltsIn (nameNext buffer) (n + 1) p := ⟨q, h, hq⟩
    exact hhalt.no_cycle hcycle
  have hreached : reached buffer p = insert p (reached buffer q) := by
    ext r
    rw [mem_reached, Finset.mem_insert, mem_reached]
    constructor
    · rintro ⟨hr, hlead⟩
      rcases hlead.cases_head with rfl | ⟨q', hq', hrest⟩
      · exact .inl rfl
      · cases h.symm.trans hq'
        exact .inr ⟨hr, hrest⟩
    · rintro (rfl | ⟨hr, hlead⟩)
      · exact ⟨nameNext_mem _ _ h, .refl⟩
      · exact ⟨hr, .head h hlead⟩
  rw [nameRoom, hreached, Finset.sum_insert hnot, nameRoom]

end Room

section Stores

theorem readByte_of_le {k : ℕ} (h : buffer.length ≤ k) :
    readByte buffer k = .error .fault := by
  have hcell : buffer[k]? = none := List.getElem?_eq_none h
  rw [readByte.eq_def]
  simp [hcell]

theorem readBytes_of_le {k : ℕ} (h : k + n ≤ buffer.length) :
    ∃ bytes, readBytes buffer k n = .ok bytes := by
  have hlen : ((buffer.drop k).take n).length = n := by
    rw [List.length_take, List.length_drop]
    omega
  have hat : HasAt buffer k ((buffer.drop k).take n) := by
    have hfront := hasAt_zero_take (buffer.drop k) n
    rwa [hasAt_drop, Nat.add_zero] at hfront
  have hread := readBytes_of_hasAt hat
  rw [hlen] at hread
  exact ⟨_, hread⟩

/-- A label that the end of the message cuts off is copied up to there. -/
theorem copyStores_cut {k : ℕ} (hk : k ≤ buffer.length) (h : buffer.length < k + n) (index : ℤ) :
    ∃ text, copyStores buffer n k index = ⟨textStores index text, .error .fault⟩ ∧
      text.length = buffer.length - k := by
  induction n generalizing k index with
  | zero => omega
  | succ n ih =>
      rw [copyStores]
      by_cases hlt : k < buffer.length
      · have hb : readByte buffer k = .ok buffer[k] :=
          readByte_natCast.mpr (List.getElem?_eq_getElem hlt)
        obtain ⟨text, hrest, hlen⟩ := ih (k := k + 1) (by omega) (by omega) (index + 1)
        refine ⟨buffer[k] :: text, ?_, by rw [List.length_cons, hlen]; omega⟩
        push_cast at hrest
        rw [hb, Output.lift_ok_bind, hrest]
        rfl
      · obtain rfl : k = buffer.length := by omega
        refine ⟨[], ?_, by simp⟩
        rw [readByte_of_le le_rfl]
        rfl

theorem labelRoom_eq {k : ℕ} {b : UInt8} (hb : readByte buffer k = .ok b) (h₀ : b ≠ 0)
    (hc : isCompress b = false) :
    labelRoom buffer k = if k + b.toNat < buffer.length then b.toNat + 1
      else buffer.length - (k + 1) := by
  simp [labelRoom, hb, h₀, hc]

/-- Where the walk ends, what is left of a label is written, or a terminator in place of the
last character. -/
theorem storesLoop_of_none (h : nameNext buffer p = none) (fuel : ℕ) (dest : ℤ) (i : ℕ) :
    ∃ text tail, (storesLoop buffer (fuel + 1) p dest i).sent =
        textStores (dest + i) text ++ tail ∧
      text.length = labelRoom buffer p ∧ ∀ s ∈ tail, s.index = dest + i + text.length - 1 := by
  rw [storesLoop]
  cases hb : readByte buffer p with
  | error e => exact ⟨[], [], rfl, by simp [labelRoom, hb], by simp⟩
  | ok b =>
      rw [Output.lift_ok_bind]
      by_cases h₀ : b = 0
      · rw [if_pos h₀]
        exact ⟨[], [⟨dest + i - 1, 0⟩], rfl, by simp [labelRoom, hb, h₀], by simp⟩
      · rw [if_neg h₀]
        cases hc : isCompress b with
        | true =>
            rw [if_pos rfl]
            cases hlo : readByte buffer (p + 1) with
            | ok lo => simp [nameNext, hb, h₀, hc, hlo] at h
            | error e => exact ⟨[], [], rfl, by simp [labelRoom, hb, hc], by simp⟩
        | false =>
            rw [if_neg Bool.false_ne_true]
            obtain ⟨k, rfl, -, hk⟩ := readByte_ok hb
            have hcut : buffer.length < k + 1 + b.toNat := by
              by_contra hfit
              obtain ⟨label, hlabel⟩ := readBytes_of_le (not_lt.mp hfit)
              push_cast at hlabel
              simp [nameNext, hb, h₀, hc, hlabel] at h
            obtain ⟨text, hcopy, hlen⟩ := copyStores_cut (show k + 1 ≤ buffer.length by omega) hcut
              (dest + i)
            push_cast at hcopy
            refine ⟨text, [], ?_, ?_, by simp⟩
            · rw [hcopy, Output.bind_of_error rfl, List.append_nil]
            · rw [labelRoom_eq hb h₀ hc, if_neg (by omega), hlen]

/-- A label is written with its dot, a pointer writes nothing, and the rest of the walk writes
on from there. -/
theorem storesLoop_of_next (h : nameNext buffer p = some q) (dest : ℤ) (i : ℕ) :
    ∃ text dest' i', text.length = labelRoom buffer p ∧
      dest' + ((i' : ℕ) : ℤ) = dest + i + text.length ∧
      ∀ fuel, (storesLoop buffer (fuel + 1) p dest i).sent =
        textStores (dest + i) text ++ (storesLoop buffer fuel q dest' i').sent := by
  simp only [nameNext] at h
  cases hb : readByte buffer p with
  | error e => simp [hb] at h
  | ok b =>
      by_cases h₀ : b = 0
      · simp [hb, h₀] at h
      · cases hc : isCompress b with
        | true =>
            cases hlo : readByte buffer (p + 1) with
            | error e => simp [hb, h₀, hc, hlo] at h
            | ok lo =>
                simp only [hb, h₀, hc, hlo, if_true, if_false, Option.some.injEq] at h
                subst h
                refine ⟨[], dest + i, 0, by simp [labelRoom, hb, hc], by simp, fun fuel => ?_⟩
                rw [storesLoop, hb, Output.lift_ok_bind, if_neg h₀, if_pos hc, hlo,
                  Output.lift_ok_bind, Output.sent_bind_of_nil _ fun _ => rfl]
                rfl
        | false =>
            cases hl : readBytes buffer (p + 1) b.toNat with
            | error e => simp [hb, h₀, hc, hl] at h
            | ok label =>
                simp only [hb, h₀, hc, hl, if_false, Bool.false_eq_true, Option.some.injEq] at h
                subst h
                obtain ⟨k, rfl, -, hk⟩ := readByte_ok hb
                have hlen : label.length = b.toNat := readBytes_length hl
                have hfit : k + b.toNat < buffer.length := by
                  by_contra hcut
                  obtain ⟨text, hcopy, -⟩ := copyStores_cut (n := b.toNat)
                    (show k + 1 ≤ buffer.length by omega) (by omega) 0
                  push_cast at hcopy
                  have hresult := congrArg Output.result hcopy
                  rw [copyStores_of_readBytes hl] at hresult
                  cases hresult
                refine ⟨label ++ [dot], dest, i + b.toNat + 1, ?_, ?_, fun fuel => ?_⟩
                · rw [labelRoom_eq hb h₀ hc, if_pos hfit]
                  simp [hlen]
                · simp only [List.length_append, List.length_singleton, hlen]
                  push_cast
                  omega
                · rw [storesLoop, hb, Output.lift_ok_bind, if_neg h₀, if_neg (by simp [hc]),
                    copyStores_of_readBytes hl, Output.bind_of_ok rfl]
                  simp [textStores_append, textStores, hlen]

/-- The characters of all labels on the way are written one behind the other, and then at most
a terminator in place of the last one. -/
theorem storesLoop_of_haltsIn (h : HaltsIn (nameNext buffer) n p) (hf : n < fuel) (dest : ℤ)
    (i : ℕ) :
    ∃ text tail, (storesLoop buffer fuel p dest i).sent = textStores (dest + i) text ++ tail ∧
      text.length = nameRoom buffer p ∧ ∀ s ∈ tail, s.index = dest + i + text.length - 1 := by
  induction n generalizing p fuel dest i with
  | zero =>
      obtain ⟨fuel, rfl⟩ : ∃ k, fuel = k + 1 := ⟨fuel - 1, by omega⟩
      rw [nameRoom_of_none h]
      exact storesLoop_of_none h fuel dest i
  | succ n ih =>
      obtain ⟨fuel, rfl⟩ : ∃ k, fuel = k + 1 := ⟨fuel - 1, by omega⟩
      obtain ⟨q, hnext, hrest⟩ := h
      obtain ⟨first, dest', i', hfirst, hplace, hsent⟩ := storesLoop_of_next hnext dest i
      obtain ⟨text, tail, hmore, hlen, htail⟩ := ih hrest (show n < fuel by omega) dest' i'
      refine ⟨first ++ text, tail, ?_, ?_, ?_⟩
      · rw [hsent, hmore, hplace, textStores_append, List.append_assoc]
      · rw [List.length_append, nameRoom_of_next hnext hrest, hfirst, hlen]
      · intro s hs
        rw [htail s hs, hplace, List.length_append]
        push_cast
        omega

end Stores

section Fits

variable {text : Bytes} {tail : List Store} {index : ℤ}

/-- The number of bytes that are written. -/
def bytesWritten (stores : List Store) : ℕ := (stores.map (·.index)).toFinset.card

theorem mem_indices_textStores {k : ℤ} :
    k ∈ (textStores index text).map (·.index) ↔ index ≤ k ∧ k < index + text.length := by
  induction text generalizing index with
  | nil =>
      simp only [textStores, List.map_nil, List.not_mem_nil, List.length_nil, false_iff]
      push_cast
      omega
  | cons b text ih =>
      rw [textStores, List.map_cons, List.mem_cons, ih, List.length_cons]
      push_cast
      omega

/-- The terminator takes no byte of its own behind a character. -/
theorem bytesWritten_le_iff (htail : ∀ s ∈ tail, s.index = index + text.length - 1) {m : ℕ}
    (hm : 1 ≤ m) : bytesWritten (textStores index text ++ tail) ≤ m ↔ text.length ≤ m := by
  have hcard : (Finset.Ico index (index + text.length)).card = text.length := by
    rw [Int.card_Ico]
    omega
  have hlow : Finset.Ico index (index + text.length) ⊆
      ((textStores index text ++ tail).map (·.index)).toFinset := by
    intro k hk
    rw [List.mem_toFinset, List.map_append, List.mem_append]
    exact .inl (mem_indices_textStores.mpr (Finset.mem_Ico.mp hk))
  have hle := Finset.card_le_card hlow
  rw [hcard] at hle
  constructor
  · intro h
    exact hle.trans h
  · intro h
    by_cases hnil : text.length = 0
    · -- at most the terminator is written
      have hone : ((textStores index text ++ tail).map (·.index)).toFinset ⊆ {index - 1} := by
        intro k hk
        obtain rfl := List.length_eq_zero_iff.mp hnil
        rw [List.mem_toFinset] at hk
        obtain ⟨s, hs, rfl⟩ := List.mem_map.mp hk
        rw [htail s (by simpa [textStores] using hs)]
        simp
      exact (Finset.card_le_card hone).trans (by simpa using hm)
    · have hhigh : ((textStores index text ++ tail).map (·.index)).toFinset ⊆
          Finset.Ico index (index + text.length) := by
        intro k hk
        rw [List.mem_toFinset, List.map_append, List.mem_append] at hk
        rw [Finset.mem_Ico]
        rcases hk with hk | hk
        · exact mem_indices_textStores.mp hk
        · obtain ⟨s, hs, rfl⟩ := List.mem_map.mp hk
          rw [htail s hs]
          omega
      exact (Finset.card_le_card hhigh).trans (by rwa [hcard])

/-- The bytes that `fetch_label` writes fit into the array of a label or a name. -/
def NameFits (msg : Bytes) (start : ℕ) : Prop :=
  bytesWritten (fetchStores msg start).sent ≤ maxNameLength

/-- A decoded name fits exactly when the labels to which labels and pointers lead from its start
take, with a dot each, no more bytes than the array has. -/
theorem nameFits_iff (msg : Bytes) (start : ℕ) (h : Terminates msg start) :
    NameFits msg start ↔ nameRoom msg start ≤ maxNameLength := by
  obtain ⟨n, hn⟩ := terminates_iff_halts.mp h
  have hle := hn.le_card nameNext_mem
  rw [card_offsets] at hle
  obtain ⟨text, tail, hsent, hlen, htail⟩ := storesLoop_of_haltsIn hn (Nat.lt_succ_of_le hle) 0 0
  rw [NameFits, fetchStores, hsent, bytesWritten_le_iff htail (by decide), hlen]

theorem NameAt.terminates {segs : List (List Bytes)} {msg : Bytes} {e : ℕ}
    (h : NameAt msg i segs e) : Terminates msg i := by
  have hfetch := h.fetchLabel []
  rw [List.append_nil] at hfetch
  rw [Message.fetchLabel] at hfetch
  exact ⟨msg.length + 1, by simp [hfetch]⟩

/-- The question `a.b` takes four bytes. -/
theorem nameFits_sample :
    nameRoom compressedMessage (12 : ℕ) = 4 ∧ NameFits compressedMessage 12 := by
  have hlast : nameNext compressedMessage 16 = none := by decide
  have hb : nameNext compressedMessage 14 = some 16 := by decide
  have ha : nameNext compressedMessage (12 : ℕ) = some 14 := by decide
  have hroom : nameRoom compressedMessage (12 : ℕ) = 4 := by
    rw [nameRoom_of_next (n := 1) ha ⟨16, hb, hlast⟩, nameRoom_of_next (n := 0) hb hlast,
      nameRoom_of_none hlast]
    decide
  refine ⟨hroom, (nameFits_iff compressedMessage 12 compressedMessage_question.terminates).mpr ?_⟩
  rw [hroom]
  decide

/-- A name of five labels with 63 characters each. -/
def longLabels : List Bytes := List.replicate 5 (List.replicate 63 97)

/-- A query for it. -/
def longQuery : Bytes :=
  [0, 7, 1, 0, 0, 1, 0, 0, 0, 0, 0, 0] ++ wireName longLabels ++ [0, 1, 0, 1]

theorem longQuery_name : NameAt longQuery 12 [longLabels] (12 + (wireName longLabels).length) := by
  apply nameAt_wireName
  · intro label hlabel
    rw [List.eq_of_mem_replicate hlabel]
    exact ⟨by decide, by decide, by decide, by decide⟩
  · exact (hasAt_length_append _ _).append_right _

/-- Its characters and dots do not fit into the array of a label. -/
theorem longQuery_not_fits :
    longQuery.length ≤ maxDnsSize ∧ Terminates longQuery 12 ∧ ¬ NameFits longQuery 12 := by
  refine ⟨by decide +kernel, longQuery_name.terminates, ?_⟩
  rw [NameFits, longQuery_name.fetchStores, bytesWritten_le_iff (by simp) (by decide)]
  decide +kernel

end Fits

end DnsRelay.Message
