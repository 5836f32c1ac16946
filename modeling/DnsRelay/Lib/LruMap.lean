import Mathlib.Data.List.Nodup
import Mathlib.Logic.Function.Basic

/-!
# Finite maps with a recency order

The keys of the map are kept in the order of their last use, the most recent
one first. The map carries the proof that the order lists exactly its keys.
-/

namespace DnsRelay.Lib

open Function

structure LruMap (κ α : Type*) where
  order : List κ
  value : κ → Option α
  nodup : order.Nodup
  mem_order : ∀ k, k ∈ order ↔ (value k).isSome

namespace LruMap

variable {κ α : Type*} [BEq κ] [LawfulBEq κ]

def empty : LruMap κ α where
  order := []
  value := fun _ => none
  nodup := List.nodup_nil
  mem_order := by simp

/-- Bind a key to a new value; the key becomes the most recent one. -/
def set [DecidableEq κ] (m : LruMap κ α) (k : κ) (a : α) : LruMap κ α where
  order := k :: m.order.erase k
  value := update m.value k (some a)
  nodup := List.nodup_cons.mpr ⟨m.nodup.not_mem_erase, m.nodup.erase k⟩
  mem_order := by
    intro x
    by_cases hx : x = k
    · simp [hx]
    · simp [hx, List.mem_erase_of_ne hx, m.mem_order]

theorem set_value [DecidableEq κ] (m : LruMap κ α) (k : κ) (a : α) :
    (m.set k a).value = update m.value k (some a) := rfl

/-- Make a key the most recent one. -/
def touch (m : LruMap κ α) (k : κ) (hk : k ∈ m.order) : LruMap κ α where
  order := k :: m.order.erase k
  value := m.value
  nodup := List.nodup_cons.mpr ⟨m.nodup.not_mem_erase, m.nodup.erase k⟩
  mem_order := fun x => (List.perm_cons_erase hk).mem_iff.symm.trans (m.mem_order x)

/-- Look a key up; a key that is found becomes the most recent one. -/
def get (m : LruMap κ α) (k : κ) : LruMap κ α × Option α :=
  if hk : k ∈ m.order then (m.touch k hk, m.value k) else (m, none)

theorem get_of_mem {m : LruMap κ α} {k : κ} (hk : k ∈ m.order) :
    m.get k = (m.touch k hk, m.value k) := dif_pos hk

theorem get_of_notMem {m : LruMap κ α} {k : κ} (hk : k ∉ m.order) :
    m.get k = (m, none) := dif_neg hk

/-- Change the values and keep the order. -/
def map {β : Type*} (f : α → β) (m : LruMap κ α) : LruMap κ β where
  order := m.order
  value := fun k => (m.value k).map f
  nodup := m.nodup
  mem_order := by
    intro k
    rw [m.mem_order, Option.isSome_map]

theorem map_set {β : Type*} [DecidableEq κ] (f : α → β) (m : LruMap κ α) (k : κ) (a : α) :
    (m.set k a).map f = (m.map f).set k (f a) := by
  have hvalue : (fun x => (update m.value k (some a) x).map f) =
      update (fun x => (m.value x).map f) k (some (f a)) := by
    funext x
    by_cases hx : x = k
    · rw [hx, update_self, update_self, Option.map_some]
    · rw [update_of_ne hx, update_of_ne hx]
  simp only [map, set, hvalue]

theorem map_get {β : Type*} (f : α → β) (m : LruMap κ α) (k : κ) :
    (m.map f).get k = ((m.get k).1.map f, (m.get k).2.map f) := by
  by_cases hk : k ∈ m.order
  · have hk' : k ∈ (m.map f).order := hk
    rw [get_of_mem hk, get_of_mem hk']
    rfl
  · have hk' : k ∉ (m.map f).order := hk
    rw [get_of_notMem hk, get_of_notMem hk']
    rfl

theorem get_of_none {m : LruMap κ α} {k : κ} (h : m.value k = none) : m.get k = (m, none) :=
  get_of_notMem fun hk => by simpa [h] using (m.mem_order k).mp hk

/-- A lookup changes no value. -/
theorem value_get (m : LruMap κ α) (k : κ) : (m.get k).1.value = m.value := by
  by_cases hk : k ∈ m.order
  · rw [get_of_mem hk]
    rfl
  · rw [get_of_notMem hk]

theorem get_snd (m : LruMap κ α) (k : κ) : (m.get k).2 = m.value k := by
  by_cases hk : k ∈ m.order
  · rw [get_of_mem hk]
  · rw [get_of_notMem hk]
    exact (Option.not_isSome_iff_eq_none.mp fun h => hk ((m.mem_order k).mpr h)).symm

/-- Removing a cell and removing its key come to the same when the keys are distinct. -/
theorem erase_map_some {β : Type*} [BEq β] [LawfulBEq β] {f : β → Option κ} {l : List β}
    {order : List κ} {s : β} {k : κ} (h : l.map f = order.map some) (hd : order.Nodup)
    (hs : s ∈ l) (hk : f s = some k) : (l.erase s).map f = (order.erase k).map some := by
  induction l generalizing order with
  | nil => simp at hs
  | cons x l ih =>
      cases order with
      | nil => simp at h
      | cons k' order =>
          simp only [List.map_cons, List.cons.injEq] at h
          rw [List.nodup_cons] at hd
          by_cases hx : x = s
          · have hkk : k' = k := by
              rw [hx, hk] at h
              exact (Option.some.inj h.1).symm
            simpa [hx, hkk] using h.2
          · have hsl : s ∈ l := by simpa [Ne.symm hx] using hs
            have hmem : some k ∈ order.map some := by
              rw [← h.2, ← hk]
              exact List.mem_map_of_mem hsl
            have hkk : k' ≠ k := by
              rintro rfl
              exact hd.1 (by simpa using hmem)
            rw [List.erase_cons_tail (by simpa using hx), List.erase_cons_tail (by simpa using hkk),
              List.map_cons, List.map_cons, h.1, ih h.2 hd.2 hsl]

end LruMap

end DnsRelay.Lib
