import Mathlib.Data.List.Basic

/-!
# Regions of a list

`HasAt l p s` says that the cells of `l` from place `p` on are those of `s`. It
is how the contents of a buffer are described: a region is split along an
append, and it survives every write outside of it.
-/

namespace DnsRelay.Lib

variable {α : Type*} {l s t : List α} {p k : ℕ} {a : α}

/-- The list `l` contains `s` at place `p`. -/
def HasAt (l : List α) (p : ℕ) (s : List α) : Prop := ∀ k < s.length, l[p + k]? = s[k]?

instance [DecidableEq α] : Decidable (HasAt l p s) :=
  inferInstanceAs (Decidable (∀ k < s.length, l[p + k]? = s[k]?))

@[simp] theorem hasAt_nil : HasAt l p [] := by
  intro k hk
  simp at hk

@[simp] theorem hasAt_cons : HasAt l p (a :: s) ↔ l[p]? = some a ∧ HasAt l (p + 1) s := by
  constructor
  · intro h
    constructor
    · simpa using h 0 (by simp)
    · intro k hk
      have := h (k + 1) (by simpa using hk)
      rwa [List.getElem?_cons_succ, show p + (k + 1) = p + 1 + k by omega] at this
  · rintro ⟨ha, hs⟩ k hk
    cases k with
    | zero => simpa using ha
    | succ k =>
        have := hs k (by simpa using hk)
        rwa [List.getElem?_cons_succ, show p + (k + 1) = p + 1 + k by omega]

theorem hasAt_append : HasAt l p (s ++ t) ↔ HasAt l p s ∧ HasAt l (p + s.length) t := by
  induction s generalizing p with
  | nil => simp
  | cons a s ih =>
      rw [List.cons_append, hasAt_cons, hasAt_cons, ih, and_assoc, List.length_cons,
        show p + 1 + s.length = p + (s.length + 1) by omega]

/-- A region of a list is a region of every longer list. -/
theorem HasAt.append_right (h : HasAt l p s) (r : List α) : HasAt (l ++ r) p s := by
  intro k hk
  have hcell := h k hk
  rw [List.getElem?_eq_getElem hk] at hcell ⊢
  obtain ⟨hlt, -⟩ := List.getElem?_eq_some_iff.mp hcell
  rwa [List.getElem?_append_left hlt]

/-- What is appended to a list stands behind it. -/
theorem hasAt_length_append (l s : List α) : HasAt (l ++ s) l.length s := by
  intro k _
  rw [List.getElem?_append_right (Nat.le_add_right _ _), Nat.add_sub_cancel_left]

theorem hasAt_drop {q : ℕ} : HasAt (l.drop p) q s ↔ HasAt l (p + q) s := by
  simp only [HasAt, List.getElem?_drop, Nat.add_assoc]

theorem HasAt.le_length (h : HasAt l p s) (hs : s ≠ []) : p + s.length ≤ l.length := by
  have hpos := List.length_pos_iff.mpr hs
  have hlast := h (s.length - 1) (by omega)
  rw [List.getElem?_eq_getElem (show s.length - 1 < s.length by omega)] at hlast
  obtain ⟨hlt, -⟩ := List.getElem?_eq_some_iff.mp hlast
  omega

/-- A region at the start of a list is its front part. -/
theorem HasAt.front (h : HasAt l 0 s) : ∃ rest, l = s ++ rest := by
  have hfront : s <+: l := by
    rw [List.prefix_iff_getElem?]
    intro i hi
    simpa [List.getElem?_eq_getElem hi] using h i hi
  obtain ⟨rest, hrest⟩ := hfront
  exact ⟨rest, hrest.symm⟩

theorem hasAt_zero_take (l : List α) (n : ℕ) : HasAt l 0 (l.take n) := by
  intro k hk
  rw [List.length_take] at hk
  rw [Nat.zero_add, List.getElem?_take_of_lt (by omega)]

/-- Only the cells of the region matter. -/
theorem HasAt.congr {l' : List α} (h : HasAt l p s)
    (hl : ∀ i, p ≤ i → i < p + s.length → l'[i]? = l[i]?) : HasAt l' p s := by
  intro k hk
  rw [hl (p + k) (by omega) (by omega)]
  exact h k hk

/-- A region that ends inside a list does not see what follows the list. -/
theorem hasAt_append_left {r : List α} (h : p + s.length ≤ l.length) :
    HasAt (l ++ r) p s ↔ HasAt l p s := by
  constructor
  · intro hat
    apply hat.congr
    intro i _ hi
    rw [List.getElem?_append_left (by omega)]
  · intro hat
    exact hat.append_right r

theorem hasAt_take {n : ℕ} (hn : n ≤ l.length) (h : p + s.length ≤ n) :
    HasAt (l.take n) p s ↔ HasAt l p s := by
  have hlen : p + s.length ≤ (l.take n).length := by rwa [List.length_take, Nat.min_eq_left hn]
  rw [← hasAt_append_left (r := l.drop n) hlen, List.take_append_drop]

/-- The list `l'` differs from `l` only in the cells from `p` up to `q`. -/
structure ChangedIn (l l' : List α) (p q : ℕ) : Prop where
  length_eq : l'.length = l.length
  outside : ∀ k, k < p ∨ q ≤ k → l'[k]? = l[k]?

section ChangedIn

variable {l₁ l₂ : List α} {q p' q' : ℕ}

theorem ChangedIn.refl : ChangedIn l l p q := ⟨rfl, fun _ _ => rfl⟩

theorem ChangedIn.trans (h₁ : ChangedIn l l₁ p q) (h₂ : ChangedIn l₁ l₂ p q) :
    ChangedIn l l₂ p q :=
  ⟨h₂.length_eq.trans h₁.length_eq, fun k hk => (h₂.outside k hk).trans (h₁.outside k hk)⟩

theorem ChangedIn.mono (h : ChangedIn l l₁ p q) (hp : p' ≤ p) (hq : q ≤ q') :
    ChangedIn l l₁ p' q' :=
  ⟨h.length_eq, fun k hk => h.outside k (by omega)⟩

/-- A change further on in the list. -/
theorem ChangedIn.extend (h₁ : ChangedIn l l₁ p q) (h₂ : ChangedIn l₁ l₂ p' q')
    (hp : p ≤ p') : ChangedIn l l₂ p (max q q') := by
  apply (h₁.mono (Nat.le_refl p) (Nat.le_max_left q q')).trans
  exact h₂.mono hp (Nat.le_max_right q q')

theorem changedIn_set (hp : p ≤ k) (hq : k < q) : ChangedIn l (l.set k a) p q := by
  refine ⟨by simp, fun i hi => List.getElem?_set_ne ?_⟩
  omega

/-- A region survives changes outside of it. -/
theorem HasAt.changed {i : ℕ} (h : HasAt l i s) (hc : ChangedIn l l₁ p q)
    (hout : i + s.length ≤ p ∨ q ≤ i) : HasAt l₁ i s := by
  apply h.congr
  intro k h₁ h₂
  exact hc.outside k (by omega)

end ChangedIn

end DnsRelay.Lib
