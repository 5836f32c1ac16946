import DnsRelay.StaticMap

/-!
# What a static store holds

A fresh store of a given size takes the first names it is given, as many as its size says,
with all the addresses that are ever given for them, and ignores every other name. The result
of a call does not tell these cases apart: an address that goes to a name stored already is
added like any other, and the call returns false as if it had been dropped.
-/

namespace DnsRelay.Static

open DnsRelay.Lib.Machine Function

variable {c c' : StaticCache} {index : Label → Option ℕ} {m : Label → List IP} {label : Label}
  {ip : IP} {size : ℕ} {calls : List (Label × IP)}

section Contents

/-- The addresses given for a name, in call order. -/
def given (calls : List (Label × IP)) (label : Label) : List IP :=
  (calls.filter (·.1 = label)).map (·.2)

/-- The first `size` distinct names of the calls. -/
def firstNames (size : ℕ) (calls : List (Label × IP)) : List Label :=
  (calls.map (·.1)).eraseDups.take size

/-- What a store of the given size should list. -/
def contents (size : ℕ) (calls : List (Label × IP)) (label : Label) : List IP :=
  if label ∈ firstNames size calls then given calls label else []

/-- A call of `set_static_cache`. -/
def setStep (c : StaticCache) (call : Label × IP) : Exec (StaticCache × Bool) :=
  setStaticCache c call.1 call.2

theorem given_append_self : given (calls ++ [(label, ip)]) label = given calls label ++ [ip] := by
  simp [given]

theorem given_append_of_ne {other : Label} (h : other ≠ label) :
    given (calls ++ [(label, ip)]) other = given calls other := by
  simp [given, h.symm]

theorem given_eq_nil_iff : given calls label = [] ↔ label ∉ calls.map (·.1) := by
  simp only [given, List.map_eq_nil_iff, List.filter_eq_nil_iff, decide_eq_true_eq, List.mem_map,
    not_exists, not_and]

theorem mem_of_mem_firstNames (h : label ∈ firstNames size calls) : label ∈ calls.map (·.1) :=
  List.mem_eraseDups.mp (List.mem_of_mem_take h)

/-- One more name comes behind the others, if it is new. -/
theorem eraseDups_concat (names : List Label) (label : Label) :
    (names ++ [label]).eraseDups =
      names.eraseDups ++ if label ∈ names then [] else [label] := by
  rw [List.eraseDups_append]
  congr 1
  by_cases h : label ∈ names
  · simp [List.removeAll, h]
  · simp [List.removeAll, h, List.eraseDups_cons]

theorem firstNames_append_of_mem (h : label ∈ calls.map (·.1)) :
    firstNames size (calls ++ [(label, ip)]) = firstNames size calls := by
  rw [firstNames, List.map_append, List.map_singleton, eraseDups_concat, if_pos h,
    List.append_nil, firstNames]

/-- A store that is full stays with its names. -/
theorem firstNames_append_of_full (h : (firstNames size calls).length = size) :
    firstNames size (calls ++ [(label, ip)]) = firstNames size calls := by
  rw [firstNames, List.length_take] at h
  rw [firstNames, List.map_append, List.map_singleton, eraseDups_concat,
    List.take_append_of_le_length (by omega), firstNames]

/-- A store that is not full takes a new name. -/
theorem firstNames_append_of_room (h : label ∉ calls.map (·.1))
    (hroom : (firstNames size calls).length ≠ size) :
    firstNames size (calls ++ [(label, ip)]) = firstNames size calls ++ [label] := by
  rw [firstNames, List.length_take] at hroom
  rw [firstNames, List.map_append, List.map_singleton, eraseDups_concat, if_neg h,
    firstNames, List.take_of_length_le (by rw [List.length_append, List.length_singleton]; omega),
    List.take_of_length_le (by omega)]

/-- While there is room, a name is stored as soon as it has been given. -/
theorem mem_firstNames_of_room (h : label ∈ calls.map (·.1))
    (hroom : (firstNames size calls).length ≠ size) : label ∈ firstNames size calls := by
  rw [firstNames, List.length_take] at hroom
  rw [firstNames, List.take_of_length_le (by omega)]
  exact List.mem_eraseDups.mpr h

theorem contents_eq_nil_iff : contents size calls label = [] ↔ label ∉ firstNames size calls := by
  rw [contents]
  split
  next h =>
    refine iff_of_false (fun hnil => ?_) (· h)
    exact given_eq_nil_iff.mp hnil (mem_of_mem_firstNames h)
  next h => exact iff_of_true rfl h

/-- One more address for a name that is stored, or that becomes stored. -/
theorem contents_append_of_mem (hmem : label ∈ firstNames size (calls ++ [(label, ip)]))
    (hsame : ∀ other, other ≠ label →
      (other ∈ firstNames size (calls ++ [(label, ip)]) ↔ other ∈ firstNames size calls))
    (hgiven : contents size calls label = given calls label) :
    contents size (calls ++ [(label, ip)]) =
      update (contents size calls) label (contents size calls label ++ [ip]) := by
  funext other
  by_cases hother : other = label
  · subst hother
    rw [update_self, hgiven, contents, if_pos hmem, given_append_self]
  · rw [update_of_ne hother, contents, contents, given_append_of_ne hother]
    simp only [hsame other hother]

/-- The address of a name that is not stored changes nothing. -/
theorem contents_append_of_notMem (hmem : label ∉ firstNames size calls)
    (hsame : firstNames size (calls ++ [(label, ip)]) = firstNames size calls) :
    contents size (calls ++ [(label, ip)]) = contents size calls := by
  funext other
  rw [contents, contents, hsame]
  by_cases hother : other = label
  · subst hother
    rw [if_neg hmem, if_neg hmem]
  · rw [given_append_of_ne hother]

end Contents

section Runs

/-- The store holds what it should after the calls. -/
structure Holds (c : StaticCache) (index : Label → Option ℕ) (size : ℕ)
    (calls : List (Label × IP)) : Prop where
  lists : Lists c index (contents size calls)
  size_eq : c.size = size
  length_eq : c.data.length = (firstNames size calls).length

theorem Holds.index_eq_none_iff (h : Holds c index size calls) :
    index label = none ↔ label ∉ firstNames size calls := by
  rw [h.lists.index_eq_none, contents_eq_nil_iff]

/-- Every call returns and leaves the store with what it should hold. -/
theorem Holds.set (h : Holds c index size calls) (label : Label) (ip : IP) :
    ∃ c' r index', setStaticCache c label ip = .ok (c', r) ∧
      Holds c' index' size (calls ++ [(label, ip)]) := by
  cases hi : index label with
  | some i =>
      have hmem : label ∈ firstNames size calls := by
        by_contra hnot
        rw [h.index_eq_none_iff.mpr hnot] at hi
        cases hi
      have hsame : firstNames size (calls ++ [(label, ip)]) = firstNames size calls :=
        firstNames_append_of_mem (mem_of_mem_firstNames hmem)
      refine ⟨_, _, index, h.lists.setStaticCache_of_some hi ip, ?_, h.size_eq, ?_⟩
      · rw [contents_append_of_mem (by rwa [hsame]) (by simp [hsame]) (if_pos hmem)]
        exact h.lists.addTo hi ip
      · rw [List.length_modify, h.length_eq, hsame]
  | none =>
      have hnot := h.index_eq_none_iff.mp hi
      by_cases hfull : c.data.length = c.size
      · have hsame : firstNames size (calls ++ [(label, ip)]) = firstNames size calls :=
          firstNames_append_of_full (by rw [← h.length_eq, hfull, h.size_eq])
        refine ⟨c, false, index, h.lists.setStaticCache_of_full hi hfull ip, ?_, h.size_eq, ?_⟩
        · rw [contents_append_of_notMem hnot hsame]
          exact h.lists
        · rw [h.length_eq, hsame]
      · have hroom : (firstNames size calls).length ≠ size := by
          rw [← h.length_eq, ← h.size_eq]
          exact hfull
        -- with room left, the name has not been given before
        have hnew : label ∉ calls.map (·.1) := fun hin => hnot (mem_firstNames_of_room hin hroom)
        have happ : firstNames size (calls ++ [(label, ip)]) = firstNames size calls ++ [label] :=
          firstNames_append_of_room hnew hroom
        obtain ⟨table, hset, hlists⟩ := h.lists.setStaticCache_of_none hi hfull ip
        refine ⟨_, _, update index label (some c.data.length), hset, ?_, h.size_eq, ?_⟩
        · have hgiven : contents size calls label = given calls label := by
            rw [contents, if_neg hnot, given_eq_nil_iff.mpr hnew]
          rw [contents_append_of_mem (by simp [happ]) ?_ hgiven]
          · exact hlists
          · intro other hother
            simp [happ, hother]
        · rw [List.length_append, happ, List.length_append, h.length_eq]
          rfl

theorem Holds.run (h : Holds c index size calls) (more : List (Label × IP)) :
    ∃ c' rs index', run setStep c more = .ok (c', rs) ∧ Holds c' index' size (calls ++ more) := by
  induction more generalizing c index calls with
  | nil => exact ⟨c, [], index, rfl, by rwa [List.append_nil]⟩
  | cons call more ih =>
      obtain ⟨c₁, r, index₁, hset, h₁⟩ := h.set call.1 call.2
      obtain ⟨c', rs, index', hrun, h'⟩ := ih h₁
      refine ⟨c', r :: rs, index', run_cons_eq_ok.mpr ⟨c₁, r, rs, hset, hrun, rfl⟩, ?_⟩
      rwa [List.append_assoc] at h'

theorem init_holds (size scaled : ℕ) :
    Holds (initStaticCache zeroed size scaled) (fun _ => none) size [] := by
  refine ⟨?_, rfl, by simp [firstNames, initStaticCache, zeroed]⟩
  rw [show contents size [] = fun _ => [] from funext fun _ => by simp [contents, firstNames]]
  exact Lists.init rfl size scaled

/-- After any calls on a fresh store, `get_static_cache` lists exactly the addresses given for
a name in call order, for each of the first `size` names, and returns NULL for the others. In a
store that is full, a name stored already still takes addresses, and a call for another name
changes nothing. -/
theorem static_contents (size scaled : ℕ) (calls : List (Label × IP)) :
    ∃ c rs, run setStep (initStaticCache zeroed size scaled) calls = .ok (c, rs) ∧
      (∀ label, label ∈ firstNames size calls →
        listed c label = .ok (given calls label)) ∧
      (∀ label, label ∉ firstNames size calls → getStaticCache c label = .ok none) ∧
      (c.data.length = size → ∀ label ip,
        (label ∈ firstNames size calls → ∃ c' r, setStaticCache c label ip = .ok (c', r) ∧
          listed c' label = .ok (given calls label ++ [ip])) ∧
        (label ∉ firstNames size calls → setStaticCache c label ip = .ok (c, false))) := by
  obtain ⟨c, rs, index, hrun, h⟩ := (init_holds size scaled).run calls
  rw [List.nil_append] at h
  refine ⟨c, rs, hrun, fun label hmem => ?_, fun label hnot => ?_, fun hfull label ip =>
    ⟨fun hmem => ?_, fun hnot => ?_⟩⟩
  · rw [h.lists.listed_eq, contents, if_pos hmem]
  · rw [h.lists.getStaticCache_eq, h.index_eq_none_iff.mpr hnot]
  · obtain ⟨c', r, index', hset, h'⟩ := h.set label ip
    refine ⟨c', r, hset, ?_⟩
    rw [h'.lists.listed_eq, contents, firstNames_append_of_mem (mem_of_mem_firstNames hmem),
      if_pos hmem, given_append_self]
  · exact h.lists.setStaticCache_of_full (h.index_eq_none_iff.mpr hnot)
      (hfull.trans h.size_eq.symm) ip

end Runs

section Results

/-- The stores that the program can come to. -/
inductive Reached : StaticCache → Prop
  | zeroed : Reached zeroed
  | init {c : StaticCache} (size scaled : ℕ) : Reached c → Reached (initStaticCache c size scaled)
  | set {c c' : StaticCache} {label : Label} {ip : IP} {r : Bool} :
      Reached c → setStaticCache c label ip = .ok (c', r) → Reached c'

/-- Such a store is not initialised, or it is a map. -/
theorem Reached.lists (h : Reached c) : c.isInit = false ∨ ∃ index m, Lists c index m := by
  induction h with
  | zeroed => exact .inl rfl
  | @init c size scaled _ ih =>
      right
      rcases ih with hinit | ⟨index, m, hlists⟩
      · exact ⟨_, _, Lists.init hinit size scaled⟩
      · refine ⟨index, m, ?_⟩
        rwa [initStaticCache, if_pos hlists.isInit]
  | @set c c' label ip r _ hset ih =>
      rcases ih with hinit | ⟨index, m, hlists⟩
      · left
        simp only [setStaticCache, hinit, if_false, Bool.false_eq_true] at hset
        cases hset
        exact hinit
      · right
        cases hi : index label with
        | some i =>
            cases (hlists.setStaticCache_of_some hi ip).symm.trans hset
            exact ⟨_, _, hlists.addTo hi ip⟩
        | none =>
            by_cases hfull : c.data.length = c.size
            · cases (hlists.setStaticCache_of_full hi hfull ip).symm.trans hset
              exact ⟨_, _, hlists⟩
            · obtain ⟨table, hnew, hlists'⟩ := hlists.setStaticCache_of_none hi hfull ip
              cases hnew.symm.trans hset
              exact ⟨_, _, hlists'⟩

/-- `set_static_cache` returns true exactly when it has added the address to what the store
lists for the name, and false exactly when the store is as it was. -/
def ResultTruthful (c : StaticCache) (label : Label) (ip : IP) : Prop :=
  ∃ c' r before after, setStaticCache c label ip = .ok (c', r) ∧ listed c label = .ok before ∧
    listed c' label = .ok after ∧ (r = true ↔ after = before ++ [ip]) ∧ (r = false ↔ c' = c)

/-- An address for a name that is stored already is added, and the call returns false. -/
theorem Lists.not_resultTruthful {i : ℕ} (h : Lists c index m) (hi : index label = some i)
    (ip : IP) : ¬ ResultTruthful c label ip := by
  rintro ⟨c', r, before, after, hset, hbefore, hafter, -, hsame⟩
  cases (h.setStaticCache_of_some hi ip).symm.trans hset
  have hadded := (h.addTo hi ip).listed_eq label
  rw [update_self, hsame.mp rfl] at hadded
  have hlong := congrArg List.length (Except.ok.inj ((h.listed_eq label).symm.trans hadded))
  simp at hlong

/-- A name that is not stored gets a record and the result true, or nothing and the result
false. -/
theorem Lists.resultTruthful (h : Lists c index m) (hi : index label = none) (ip : IP) :
    ResultTruthful c label ip := by
  have hnil := h.index_eq_none.mp hi
  have hbefore := h.listed_eq label
  rw [hnil] at hbefore
  by_cases hfull : c.data.length = c.size
  · have hset := h.setStaticCache_of_full hi hfull ip
    exact ⟨c, false, [], [], hset, hbefore, hbefore, by simp, by simp⟩
  · obtain ⟨table, hset, h'⟩ := h.setStaticCache_of_none hi hfull ip
    have hafter := h'.listed_eq label
    rw [update_self, hnil] at hafter
    refine ⟨_, true, [], _, hset, hbefore, hafter, by simp, iff_of_false nofun ?_⟩
    intro hsame
    have hlong := congrArg (fun c => c.data.length) hsame
    simp at hlong

/-- The result is truthful exactly when the store lists nothing for the name yet. -/
theorem resultTruthful_iff (c : StaticCache) (h : Reached c) (label : Label) (ip : IP) :
    ResultTruthful c label ip ↔ listed c label = .ok [] := by
  rcases h.lists with hinit | ⟨index, m, hlists⟩
  · have hnone : listed c label = .ok [] := by
      simp [listed, getStaticCache_of_not_init hinit, bind, Except.bind, pure, Except.pure]
    have hset : setStaticCache c label ip = .ok (c, false) := by
      simp [setStaticCache, hinit, pure, Except.pure]
    exact iff_of_true ⟨c, false, [], [], hset, hnone, hnone, by simp, by simp⟩ hnone
  · rw [hlists.listed_eq, Except.ok.injEq, ← hlists.index_eq_none]
    cases hi : index label with
    | some i => exact iff_of_false (hlists.not_resultTruthful hi ip) (Option.some_ne_none i)
    | none => exact iff_of_true (hlists.resultTruthful hi ip) rfl

/-- A store for two names with one address of `a`. -/
theorem exists_oneAddress (ip : IP) :
    ∃ c r index, setStaticCache (initStaticCache zeroed 2 2) [97] ip = .ok (c, r) ∧ Reached c ∧
      Lists c index (contents 2 [([97], ip)]) := by
  obtain ⟨c, r, index, hset, h⟩ := (init_holds 2 2).set [97] ip
  exact ⟨c, r, index, hset, .set (.init 2 2 .zeroed) hset, h.lists⟩

/-- The second address of a name is added, and the result says that it was not. -/
theorem second_address_not_truthful :
    ∃ c r, setStaticCache (initStaticCache zeroed 2 2) [97] ⟨Vector.replicate 16 1, 4⟩ =
        .ok (c, r) ∧ Reached c ∧ ¬ ResultTruthful c [97] ⟨Vector.replicate 16 2, 4⟩ := by
  obtain ⟨c, r, index, hset, hreached, hlists⟩ := exists_oneAddress ⟨Vector.replicate 16 1, 4⟩
  refine ⟨c, r, hset, hreached, ?_⟩
  cases hi : index [97] with
  | some i => exact hlists.not_resultTruthful hi _
  | none =>
      have hnil := hlists.index_eq_none.mp hi
      simp [contents, firstNames, given, List.eraseDups_cons] at hnil

/-- The first address of another name. -/
theorem resultTruthful_sample :
    ∃ c, Reached c ∧ listed c [97] = .ok [⟨Vector.replicate 16 1, 4⟩] ∧
      ResultTruthful c [98] ⟨Vector.replicate 16 2, 4⟩ := by
  obtain ⟨c, r, index, hset, hreached, hlists⟩ := exists_oneAddress ⟨Vector.replicate 16 1, 4⟩
  refine ⟨c, hreached, ?_, (resultTruthful_iff c hreached _ _).mpr ?_⟩
  · rw [hlists.listed_eq]
    simp [contents, firstNames, given, List.eraseDups_cons]
  · rw [hlists.listed_eq]
    simp [contents, firstNames, List.eraseDups_cons]

end Results

end DnsRelay.Static
