import DnsRelay.Lru.Refinement

/-!
# The end of a cache

`free_cache` releases the data of every valid record below `max_length` and then the
arrays. The bound leaves out the last slot, which is never handed out. What was released
before and is still in the list is released twice, and what was taken out of the list
without being released is lost.
-/

namespace DnsRelay.Lru

open DnsRelay.Lib DnsRelay.Lib.Machine Function

/-- The loop of `free_cache` over the slots that are left. -/
def releaseAll (rs : Records) : List ℤ → Exec Records
  | [] => .ok rs
  | i :: rest =>
      if rs.valid i then do releaseAll (← realseARecord rs i) rest
      else releaseAll rs rest

/-- `free_cache` up to the release of the arrays. -/
def freeCache (c : Cache) : Exec Cache :=
  if c.isInit then do
    let records ← releaseAll c.records ((List.range c.maxLength).map fun (i : ℕ) => (i : ℤ))
    return { c with isInit := false, records := records }
  else return c

section Loop

variable {rs rs' : Records} {i s : ℤ} {is : List ℤ}

/-- What `realse_A_record` leaves of a pointer it can be given. -/
def DataPtr.release : DataPtr → DataPtr
  | live _ _ => freed
  | p => p

/-- The release of a record that has not been released before. -/
theorem realseARecord_eq (h : rs.data i ≠ .freed) :
    realseARecord rs i = .ok { rs with
      data := update rs.data i (rs.data i).release
      size := update rs.size i 0 } := by
  unfold realseARecord
  split
  next hnull =>
    have hdata : update rs.data i (rs.data i).release = rs.data := by
      rw [hnull]
      exact update_eq_self_iff.mpr hnull.symm
    rw [hdata]
  next hfreed => exact absurd hfreed h
  next hlive =>
    rw [hlive]
    rfl

theorem realseARecord_freed (h : rs.data i = .freed) : realseARecord rs i = .error .fault := by
  simp [realseARecord, h]

/-- The loop returns exactly when it meets no valid record that has been released before, and
then it has released the valid ones. -/
theorem releaseAll_ok_iff (hd : is.Nodup) :
    (∃ rs', releaseAll rs is = .ok rs') ↔ ∀ i ∈ is, rs.valid i = true → rs.data i ≠ .freed := by
  induction is generalizing rs with
  | nil => simp [releaseAll]
  | cons i rest ih =>
      obtain ⟨hi, hrest⟩ := List.nodup_cons.mp hd
      rw [List.forall_mem_cons, releaseAll]
      by_cases hv : rs.valid i = true
      · by_cases hf : rs.data i = .freed
        · rw [if_pos hv, realseARecord_freed hf]
          simp [hv, hf, bind, Except.bind]
        · rw [if_pos hv, realseARecord_eq hf]
          have hkeep : (∀ j ∈ rest, rs.valid j = true →
              update rs.data i (rs.data i).release j ≠ .freed) ↔
              ∀ j ∈ rest, rs.valid j = true → rs.data j ≠ .freed := by
            apply forall₂_congr
            intro j hj
            rw [update_of_ne (ne_of_mem_of_not_mem hj hi)]
          exact (ih hrest).trans (hkeep.trans (by simp [hf]))
      · rw [if_neg hv]
        exact (ih hrest).trans (by simp [hv])

end Loop

section Runs

variable {c c' : Cache} {l : List ℤ} {op : CacheOp}

/-- The head node never gets data. -/
theorem exec_head {r : CacheResult} (h : Inv c l) (hhead : c.records.data 0 = .null)
    (hexec : op.exec c = .ok (c', r)) : c'.records.data 0 = .null := by
  cases exec_outcome h hexec with
  | stored c₀ c₁ s _ hroom hplace heq =>
      obtain ⟨k, h₀, hhead₀⟩ := makeRoom_rule (P := fun c _ => c.records.data 0 = .null)
        (by
          intro c c' l t hc hnull hpop _
          rw [hpop.data, update_of_ne (hc.used_pos (by simp)).ne, hnull]) h hhead hroom
      have hplaced : c₁.records.data = c₀.records.data ∧ ∃ l₁, Inv c₁ l₁ ∧ s ∈ l₁ := by
        rcases placeFront_cases h₀ hplace with ⟨-, next, last, e, rfl, h₁⟩ | ⟨-, -, hins, h₁⟩
        · exact ⟨rfl, _, h₁, by simp⟩
        · exact ⟨hins.data, _, h₁, by simp⟩
      obtain ⟨hdata, l₁, h₁, hs⟩ := hplaced
      have hzero : c'.records.data 0 = c₁.records.data 0 := by
        rw [heq]
        exact update_of_ne (h₁.used_pos hs).ne _ _
      rw [hzero, hdata, hhead₀]
  | missed heq => rw [heq, hhead]
  | @removed s _ _ hrem _ =>
      rw [hrem.data]
      by_cases hend : endOf (l.erase s) = 0
      · rw [hend, hhead, update_self]
        rfl
      · rw [update_of_ne (Ne.symm hend), hhead]
  | moved _ _ _ heq _ =>
      rw [heq]
      exact hhead

theorem runOps_head {recordLength maxSize : ℤ} {scaled : ℕ} {ops : List CacheOp}
    {results : List CacheResult}
    (h : runOps (initCache recordLength maxSize scaled) ops = .ok (c, results)) :
    ∃ l, Inv c l ∧ c.records.data 0 = .null :=
  run_invariant (fun c => ∃ l, Inv c l ∧ c.records.data 0 = .null)
    (fun op _ c c' r hc hexec => by
      obtain ⟨l, hinv, hhead⟩ := hc
      obtain ⟨-, l', hinv'⟩ := exec_inv hinv hexec
      exact ⟨l', hinv', exec_head hinv hhead hexec⟩) ⟨[], initCache_inv_any, rfl⟩ h

/-- The slots that `free_cache` looks at. -/
theorem mem_released_slots {s : ℤ} {n : ℕ} :
    s ∈ (List.range n).map (fun (i : ℕ) => (i : ℤ)) ↔ 0 ≤ s ∧ s < n := by
  constructor
  · intro hs
    obtain ⟨i, hi, rfl⟩ := List.mem_map.mp hs
    have := List.mem_range.mp hi
    omega
  · rintro ⟨h0, hn⟩
    exact List.mem_map.mpr ⟨s.toNat, List.mem_range.mpr (by omega), by omega⟩

theorem released_slots_nodup (n : ℕ) :
    ((List.range n).map fun (i : ℕ) => (i : ℤ)).Nodup :=
  List.nodup_range.map fun _ _ h => by exact_mod_cast h

/-- The valid records among them are those in the list and the head node. -/
theorem Inv.released_iff (h : Inv c l) {s : ℤ} (hs : s ≠ 0) :
    s ∈ (List.range c.maxLength).map (fun (i : ℕ) => (i : ℤ)) ∧ c.records.valid s = true ↔
      s ∈ l := by
  rw [mem_released_slots]
  constructor
  · rintro ⟨⟨h0, hn⟩, hv⟩
    exact (h.valid_iff s (by omega) hn.le).mp hv
  · intro hl
    exact ⟨⟨(h.used_pos hl).le, h.used_lt hl⟩, h.valid_of_mem hl⟩

theorem freeCache_eq_ok (hi : c.isInit = true) :
    freeCache c = .ok c' ↔ ∃ rs, releaseAll c.records
        ((List.range c.maxLength).map fun (i : ℕ) => (i : ℤ)) = .ok rs ∧
      c' = { c with isInit := false, records := rs } := by
  rw [freeCache, if_pos hi, bind_eq_ok]
  apply exists_congr
  intro rs
  rw [and_congr_right_iff]
  intro _
  exact ⟨fun h => (Except.ok.inj h).symm, fun h => by rw [h]; rfl⟩

/-- On a cache with the used slots `l`, `free_cache` returns exactly when none of them was
released before. -/
theorem Inv.freeCache_iff (h : Inv c l) (hhead : c.records.data 0 = .null) :
    (∃ c', freeCache c = .ok c') ↔ ∀ s ∈ l, c.records.data s ≠ .freed := by
  have hslots : (∀ i ∈ (List.range c.maxLength).map (fun (i : ℕ) => (i : ℤ)),
      c.records.valid i = true → c.records.data i ≠ .freed) ↔
      ∀ s ∈ l, c.records.data s ≠ .freed := by
    constructor
    · intro hall s hs
      have hmem := (h.released_iff (h.used_pos hs).ne').mpr hs
      exact hall s hmem.1 hmem.2
    · intro hall i hi hv
      by_cases h0 : i = 0
      · subst h0
        simp [hhead]
      · exact hall i ((h.released_iff h0).mp ⟨hi, hv⟩)
  rw [← hslots, ← releaseAll_ok_iff (released_slots_nodup _)]
  constructor
  · rintro ⟨c', hc'⟩
    obtain ⟨rs, hrs, -⟩ := (freeCache_eq_ok h.isInit).mp hc'
    exact ⟨rs, hrs⟩
  · rintro ⟨rs, hrs⟩
    exact ⟨_, (freeCache_eq_ok h.isInit).mpr ⟨rs, hrs, rfl⟩⟩

end Runs

end DnsRelay.Lru
