import DnsRelay.Lru.Labels

/-!
# Expired elements in answers

`check_A_record` looks at the first element of a record only, while the elements of one
record expire each at its own time. A lookup serves nothing expired as long as the first
element that a set call keeps is the first of them to expire.
-/

namespace DnsRelay.Lru

open DnsRelay.Lib.Machine Function

variable {c c' : Cache} {l : List ℤ} {label : Label} {now : ℤ}

/-- No element of the chain expires before its first one. -/
def FirstExpires : List RecordData → Prop
  | [] => True
  | first :: next => ∀ d ∈ next, d.ttl = dnsCachePermanent ∨
      first.ttl ≠ dnsCachePermanent ∧ first.ttl ≤ d.ttl

/-- Only the times of the elements matter. -/
theorem firstExpires_congr {chain chain' : List RecordData}
    (h : chain.map RecordData.ttl = chain'.map RecordData.ttl) (hf : FirstExpires chain) :
    FirstExpires chain' := by
  cases chain with
  | nil =>
      obtain rfl := List.map_eq_nil_iff.mp h.symm
      trivial
  | cons first next =>
      cases chain' with
      | nil => cases h
      | cons first' next' =>
          rw [List.map_cons, List.map_cons, List.cons.injEq] at h
          intro d hd
          obtain ⟨d', hd', heq⟩ : ∃ d' ∈ next, d'.ttl = d.ttl :=
            List.mem_map.mp (h.2 ▸ List.mem_map_of_mem hd)
          have hcond := hf d' hd'
          rwa [heq, h.1] at hcond

/-- The chain that is built keeps the times of the elements that are not expired. -/
theorem foldl_addMultiStep_ttl (data chain : List RecordData) :
    (data.foldl (addMultiStep now) chain).map RecordData.ttl =
      (chain ++ data.filter fun d => now ≤ d.ttl).map RecordData.ttl := by
  induction data generalizing chain with
  | nil => simp
  | cons d data ih =>
      rw [List.foldl_cons, ih]
      by_cases hd : now ≤ d.ttl
      · cases chain with
        | nil => simp [addMultiStep, not_lt.mpr hd, hd]
        | cons first next => simp [addMultiStep, not_lt.mpr hd, hd]
      · simp [addMultiStep, not_le.mp hd, hd]

theorem CacheOp.stored_ttl (op : CacheOp) :
    op.stored.map RecordData.ttl = op.unexpired.map RecordData.ttl := by
  cases op with
  | get label now => rfl
  | set label data now => rw [CacheOp.stored_set]
  | setMulti label data now => exact foldl_addMultiStep_ttl data []

/-- A set call stores no more elements than it is handed. -/
theorem CacheOp.stored_length_le (op : CacheOp) : op.stored.length ≤ op.elements.length := by
  have hlen := congrArg List.length op.stored_ttl
  rw [List.length_map, List.length_map] at hlen
  rw [hlen]
  exact List.length_filter_le _ _

/-- When the first element has not expired, none has. -/
theorem FirstExpires.not_expired {first : RecordData} {next : List RecordData}
    (h : FirstExpires (first :: next)) (hx : expired first now = false) :
    ∀ d ∈ first :: next, now ≤ d.ttl ∨ d.ttl = dnsCachePermanent := by
  have hfirst : now ≤ first.ttl ∨ first.ttl = dnsCachePermanent := by
    simp only [expired, Bool.and_eq_false_iff, decide_eq_false_iff_not, not_lt, not_not] at hx
    exact hx
  intro d hd
  rcases List.mem_cons.mp hd with rfl | hd
  · exact hfirst
  · rcases h d hd with hperm | ⟨hne, hle⟩
    · exact .inr hperm
    · rcases hfirst with hnow | hperm
      · exact .inl (hnow.trans hle)
      · exact absurd hperm hne

/-- What a lookup returns has not expired, if the chains are ordered so. -/
theorem get_not_expired (hinv : Inv c l) (h : Chains c FirstExpires) {data : List RecordData}
    (hget : getCacheARecord c label now = .ok (c', some data)) :
    ∀ d ∈ data, now ≤ d.ttl ∨ d.ttl = dnsCachePermanent := by
  rcases getCacheARecord_cases hinv hget with ⟨-, -, hnone⟩ | ⟨s, d, ds, -, -, -, -, -, hnone⟩ |
    ⟨s, d, ds, n, p, e, -, -, hd, hx, -, -, hdata⟩
  · cases hnone
  · cases hnone
  · have hchain := h s
    rw [hd] at hchain
    cases hdata
    exact FirstExpires.not_expired hchain hx

/-- The first element that a set call keeps is the first of them to expire. -/
def CacheOp.OrderedByExpiry (op : CacheOp) : Prop := FirstExpires op.unexpired

theorem runOps_chains {recordLength maxSize : ℤ} {scaled : ℕ} {ops : List CacheOp}
    {results : List CacheResult} (hordered : ∀ op ∈ ops, op.OrderedByExpiry)
    (h : runOps (initCache recordLength maxSize scaled) ops = .ok (c, results)) :
    (∃ l, Inv c l) ∧ Chains c FirstExpires := by
  have hinit : ∃ l, Inv (initCache recordLength maxSize scaled) l := ⟨[], initCache_inv_any⟩
  refine run_invariant (fun c => (∃ l, Inv c l) ∧ Chains c FirstExpires) ?_
    ⟨hinit, fun s => trivial⟩ h
  rintro op hop c₁ c₂ r ⟨⟨l, hl⟩, hchains⟩ hexec
  refine ⟨(exec_inv hl hexec).2, exec_chains hl trivial hchains (fun _ => ?_) hexec⟩
  exact firstExpires_congr op.stored_ttl.symm (hordered op hop)

/-- In every run whose set calls keep the first element to expire in front, no lookup returns
an expired element. -/
theorem lookup_serves_unexpired (recordLength maxSize : ℤ) (scaled : ℕ) (ops : List CacheOp)
    (hordered : ∀ op ∈ ops, op.OrderedByExpiry) (results : List CacheResult) (c : Cache)
    (h : runOps (initCache recordLength maxSize scaled) ops = .ok (c, results))
    (label : Label) (now : ℤ) (c' : Cache) (data : List RecordData)
    (hget : getCacheARecord c label now = .ok (c', some data)) :
    ∀ d ∈ data, now ≤ d.ttl ∨ d.ttl = dnsCachePermanent := by
  obtain ⟨⟨l, hl⟩, hchains⟩ := runOps_chains hordered h
  exact get_not_expired hl hchains hget

/-- Of two elements the second one expires first, and is served after it has. -/
theorem lookup_serves_expired :
    ∃ c results c' data, runOps (initCache 4 2000 5)
        [.setMulti [97] [⟨[97], blankIP, 100⟩, ⟨[97], blankIP, 50⟩] 1] =
          .ok (c, results) ∧
      getCacheARecord c [97] 60 = .ok (c', some data) ∧
      ∃ d ∈ data, ¬ (60 ≤ d.ttl ∨ d.ttl = dnsCachePermanent) := by
  exact ⟨_, _, _, _, rfl, rfl, ⟨[97], blankIP, 50⟩, by decide, by decide⟩

/-- The same elements in the order in which they expire. -/
theorem lookup_serves_unexpired_sample :
    ∃ c results c' data, runOps (initCache 4 2000 5)
        [.setMulti [97] [⟨[97], blankIP, 50⟩, ⟨[97], blankIP, 100⟩] 1] =
          .ok (c, results) ∧
      getCacheARecord c [97] 40 = .ok (c', some data) ∧
      ∀ d ∈ data, 40 ≤ d.ttl ∨ d.ttl = dnsCachePermanent := by
  refine ⟨_, _, _, _, rfl, rfl, ?_⟩
  refine lookup_serves_unexpired 4 2000 5
    [.setMulti [97] [⟨[97], blankIP, 50⟩, ⟨[97], blankIP, 100⟩] 1] ?_ _ _ rfl [97] 40 _ _
    rfl
  simp [CacheOp.OrderedByExpiry, CacheOp.unexpired, CacheOp.elements, CacheOp.now, FirstExpires,
    dnsCachePermanent]

end DnsRelay.Lru
