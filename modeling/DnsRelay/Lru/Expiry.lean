import DnsRelay.Lru.Invariant

/-!
# Expired lookups

`remove_record` computes the record to release from `Cache->last` after it has patched
the links. By then the expired record is no longer the tail, so its own data is never
released: what is released is the data of the record that has become the tail.
-/

namespace DnsRelay.Lru

open DnsRelay.Hash DnsRelay.Lib.LinkedList DnsRelay.Lib.Machine Function

variable {c c' : Cache} {l : List ℤ} {s x : ℤ} {label : Label} {now : ℤ}

/-- The end of the list without a slot is another slot. -/
theorem endOf_erase_ne (h : Inv c l) (hs : s ∈ l) : endOf (l.erase s) ≠ s := by
  intro heq
  have hmem := endOf_mem (l := l.erase s)
  rw [heq] at hmem
  rcases List.mem_cons.mp hmem with h0 | hmem
  · have := h.used_pos hs
    omega
  · exact h.used_nodup.not_mem_erase hmem

/-- A removal leaves the data of the removed record in place. -/
theorem Removed.data_self (h : Inv c l) (hs : s ∈ l) (hrem : Removed c c' l s) :
    c'.records.data s = c.records.data s := by
  rw [hrem.data, update_of_ne (endOf_erase_ne h hs).symm]

/-- What a lookup of the expired record `s` is meant to do. -/
structure RemovesOnly (c c' : Cache) (s : ℤ) : Prop where
  released : (c'.records.data s).isLive = false
  order : visited c' = (visited c).erase s
  node_gone : ∀ b, some s ∉ c'.labelHash.chain b
  slot_returned : c'.stackTop = c.stackTop + 1 ∧ c'.stack c'.stackTop = s
  others : ∀ x ∈ visited c, x ≠ s →
    c'.records.data x = c.records.data x ∧ c'.records.size x = c.records.size x

/-- The lookup returns NULL and removes the record `s` only. -/
def GetRemoves (c : Cache) (label : Label) (now s : ℤ) : Prop :=
  ∃ c', getCacheARecord c label now = .ok (c', none) ∧ RemovesOnly c c' s

/-- No lookup of an expired record removes that record and releases its data. -/
theorem expired_get_not_removes (recordLength maxSize : ℤ) (scaled : ℕ)
    (hn : 1 ≤ recordLength) (ops : List CacheOp) (results : List CacheResult) (c : Cache)
    (h : runOps (initCache recordLength maxSize scaled) ops = .ok (c, results)) (s : ℤ)
    (hs : s ∈ visited c) (d : RecordData) (ds : List RecordData)
    (hd : c.records.data s = .live d ds) (now : ℤ) : ¬ GetRemoves c d.label now s := by
  rintro ⟨c', hget, hrem⟩
  obtain ⟨-, l, hl⟩ := runOps_inv hn h
  have horder := hrem.order
  have hnot : s ∉ visited c' := by
    rw [horder, hl.visited_eq]
    exact hl.used_nodup.not_mem_erase
  rw [hl.visited_eq] at hs
  rcases getCacheARecord_cases hl hget with ⟨-, rfl, -⟩ |
    ⟨x, -, -, -, hx, -, -, hrm, -⟩ | ⟨x, -, -, -, -, -, -, hx, -, -, -, h₁, -⟩
  · exact hnot (hl.visited_eq ▸ hs)
  · obtain ⟨hremoved, h₁⟩ := removeRecord_ok hl hx hrm
    by_cases hxs : x = s
    · subst hxs
      have hlive := hrem.released
      rw [hremoved.data_self hl hx, hd] at hlive
      cases hlive
    · rw [h₁.visited_eq] at hnot
      exact hnot ((List.mem_erase_of_ne (Ne.symm hxs)).mpr hs)
  · rw [h₁.visited_eq, ← (List.perm_cons_erase hx).mem_iff] at hnot
    exact hnot hs

private def expiryIP : IP := ⟨Vector.replicate 16 0, 1⟩

private def twoRecords : List CacheOp :=
  [.set [97] ⟨[97], expiryIP, 9⟩ 1, .set [98] ⟨[98], expiryIP, 5⟩ 1]

/-- The lookup of the expired second label releases the data of the first one. -/
theorem expired_get_releases_other :
    ∃ c results c', runOps (initCache 4 2000 5) twoRecords = .ok (c, results) ∧
      visited c = [2, 1] ∧ c.records.data 2 = .live ⟨[98], expiryIP, 5⟩ [] ∧
      c.records.data 1 = .live ⟨[97], expiryIP, 9⟩ [] ∧
      expired ⟨[98], expiryIP, 5⟩ 7 = true ∧
      getCacheARecord c [98] 7 = .ok (c', none) ∧
      c'.records.data 2 = .live ⟨[98], expiryIP, 5⟩ [] ∧ c'.records.data 1 = .freed ∧
      ¬ GetRemoves c [98] 7 2 := by
  refine ⟨_, _, _, rfl, by decide, by decide, by decide, by decide, rfl, by decide, by decide,
    ?_⟩
  rintro ⟨c₁, hget, hrem⟩
  have hlive := hrem.released
  obtain rfl := (Prod.mk.inj (Except.ok.inj hget)).1
  revert hlive
  decide

/-- The same run meets every hypothesis. -/
theorem expired_get_not_removes_sample :
    ∃ c results, runOps (initCache 4 2000 5) twoRecords = .ok (c, results) ∧
      ¬ GetRemoves c [98] 7 2 := by
  refine ⟨_, _, rfl, ?_⟩
  exact expired_get_not_removes 4 2000 5 (by decide) twoRecords _ _ rfl 2 (by decide)
    ⟨[98], expiryIP, 5⟩ [] (by decide) 7

end DnsRelay.Lru
