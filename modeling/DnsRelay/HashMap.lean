import DnsRelay.Hash

/-!
# The hash table as a finite map

With a comparison that decides equality with the key of the record, the table
represents a map from keys to records: every record hangs in the bucket of its key, no
key occurs twice in a bucket, and the head nodes carry no record. Each of the three
operations changes the map as its name says and touches one bucket only.
-/

namespace DnsRelay.Hash

open DnsRelay.Lib.Machine Function Hashtable

variable {κ ρ : Type}

/-- The calls a client of the table can make; a record that is stored is not NULL. -/
inductive HashOp (κ ρ : Type)
  | set (label : κ) (record : ρ)
  | get (label : κ)
  | reset (label : κ)

def HashOp.label : HashOp κ ρ → κ
  | set label _ => label
  | get label => label
  | reset label => label

/-- A record is stored under its own key. -/
def HashOp.Keyed (key : ρ → κ) : HashOp κ ρ → Prop
  | set label record => key record = label
  | _ => True

instance [DecidableEq κ] (key : ρ → κ) (op : HashOp κ ρ) : Decidable (op.Keyed key) :=
  match op with
  | .set label record => inferInstanceAs (Decidable (key record = label))
  | .get _ => inferInstanceAs (Decidable True)
  | .reset _ => inferInstanceAs (Decidable True)

/-- What a call returns: `*exist` or `*is_find` with the record of the returned node, or
whether a node was unlinked. -/
inductive HashResult (ρ : Type)
  | stored (exist : Bool) (record : Option ρ)
  | got (isFind : Bool) (record : Option ρ)
  | removed (done : Bool)
  deriving DecidableEq

def HashOp.exec (compare : Option ρ → κ → Exec Bool) (table : Hashtable κ ρ) :
    HashOp κ ρ → Exec (Hashtable κ ρ × HashResult ρ)
  | set label record => do
      let (table, node, exist) ← setHashnode compare table label (some record)
      return (table, .stored exist (table.recordAt node))
  | get label => do
      let (node, isFind) ← getHashnode compare table label
      return (table, .got isFind (table.recordAt node))
  | reset label => do
      let (table, done) ← resetHashNode compare table label
      return (table, .removed done)

/-- A miss returns the last node of the bucket, whose record is of no interest. -/
def HashResult.answer : HashResult ρ → HashResult ρ
  | got false _ => got false none
  | r => r

/-- The three operations on a map. -/
def mapStep [DecidableEq κ] (m : κ → Option ρ) :
    HashOp κ ρ → (κ → Option ρ) × HashResult ρ
  | .set label record => (update m label (some record), .stored (m label).isSome (some record))
  | .get label => (m, .got (m label).isSome (m label))
  | .reset label => (update m label none, .removed (m label).isSome)

/-- The table represents the map `m` from keys to records. -/
structure RepresentsMap (key : ρ → κ) (table : Hashtable κ ρ) (m : κ → Option ρ) : Prop where
  head : ∀ b, (table.nodes b).record = none
  placed : ∀ b, ∀ x ∈ table.chain b, ∃ r, x = some r ∧ table.pos (key r) = b
  unique : ∀ b, ((table.chain b).map (Option.map key)).Nodup
  value : ∀ k r, m k = some r ↔ key r = k ∧ some r ∈ table.chain (table.pos k)

namespace RepresentsMap

variable {key : ρ → κ} {compare : Option ρ → κ → Exec Bool}
  {table table' : Hashtable κ ρ} {m : κ → Option ρ} {label : κ}

/-- A table fresh from `calloc` represents the empty map. -/
theorem empty (key : ρ → κ) (hash : κ → ℕ) (size : ℕ) :
    RepresentsMap key ⟨fun _ => ⟨none, []⟩, hash, size⟩ fun _ => none where
  head := fun _ => rfl
  placed := by simp [chain]
  unique := by simp [chain]
  value := by simp [chain]

/-- Only the keys of the records in the table matter. -/
theorem congr_key {key' : ρ → κ} (h : RepresentsMap key table m)
    (hkey : ∀ b r, some r ∈ table.chain b → key r = key' r) : RepresentsMap key' table m where
  head := h.head
  placed := by
    intro b x hx
    obtain ⟨r, rfl, hr⟩ := h.placed b x hx
    exact ⟨r, rfl, by rw [← hkey b r hx, hr]⟩
  unique := by
    intro b
    have hmap : (table.chain b).map (Option.map key') = (table.chain b).map (Option.map key) := by
      apply List.map_congr_left
      intro x hx
      obtain ⟨r, rfl, -⟩ := h.placed b x hx
      simp [hkey b r hx]
    rw [hmap]
    exact h.unique b
  value := by
    intro k r
    rw [h.value]
    constructor
    · rintro ⟨hr, hmem⟩
      exact ⟨(hkey _ r hmem).symm.trans hr, hmem⟩
    · rintro ⟨hr, hmem⟩
      exact ⟨(hkey _ r hmem).trans hr, hmem⟩

/-- A record of the table is what the map has under its key, in the bucket of the key. -/
theorem mem_chain {b : ℕ} {r : ρ} (h : RepresentsMap key table m)
    (hr : some r ∈ table.chain b) : m (key r) = some r ∧ table.pos (key r) = b := by
  obtain ⟨r', hr', hb⟩ := h.placed b _ hr
  cases hr'
  subst hb
  exact ⟨(h.value _ r).mpr ⟨rfl, hr⟩, rfl⟩

variable [DecidableEq κ]

/-- The comparison decides equality with the keys of the records in the table. -/
def Decides (compare : Option ρ → κ → Exec Bool) (key : ρ → κ) (table : Hashtable κ ρ) :
    Prop :=
  ∀ b r, some r ∈ table.chain b → ∀ k, compare (some r) k = .ok (decide (key r = k))

/-- A walk over a bucket either finds the record of the label or passes every node. -/
theorem bucket_cases (h : RepresentsMap key table m)
    (hcompare : Decides compare key table) (label : κ) :
    (m label = none ∧ ∀ x ∈ table.chain (table.pos label), compare x label = .ok false) ∨
    ∃ front r back, m label = some r ∧ key r = label ∧
      table.chain (table.pos label) = front ++ some r :: back ∧
      compare (some r) label = .ok true ∧ ∀ x ∈ front, compare x label = .ok false := by
  cases hm : m label with
  | none =>
      refine .inl ⟨rfl, fun x hx => ?_⟩
      obtain ⟨r, rfl, -⟩ := h.placed _ x hx
      rw [hcompare _ r hx, decide_eq_false]
      intro hr
      have := (h.value label r).mpr ⟨hr, hx⟩
      rw [hm] at this
      cases this
  | some r =>
      obtain ⟨hkey, hmem⟩ := (h.value label r).mp hm
      obtain ⟨front, back, hsplit⟩ := List.append_of_mem hmem
      refine .inr ⟨front, r, back, rfl, hkey, hsplit,
        by rw [hcompare _ r hmem, decide_eq_true hkey], ?_⟩
      intro x hx
      have hx' : x ∈ table.chain (table.pos label) := by simp [hsplit, hx]
      obtain ⟨r', rfl, -⟩ := h.placed _ x hx'
      rw [hcompare _ r' hx', decide_eq_false]
      -- a second record under the label would repeat its key in the bucket
      intro hr'
      have hnodup := h.unique (table.pos label)
      rw [hsplit, List.map_append, List.map_cons] at hnodup
      refine (List.nodup_append.mp hnodup).2.2 _ (List.mem_map_of_mem hx) (some (key r))
        List.mem_cons_self ?_
      simp [hr', hkey]

/-- A bucket may be replaced by one that differs in the records of one key only. -/
theorem setChain {l : List (Option ρ)} {v : Option ρ} (h : RepresentsMap key table m)
    (hplaced : ∀ x ∈ l, ∃ r, x = some r ∧ table.pos (key r) = table.pos label)
    (hunique : (l.map (Option.map key)).Nodup)
    (hself : ∀ r, v = some r ↔ key r = label ∧ some r ∈ l)
    (hother : ∀ r, key r ≠ label → (some r ∈ l ↔ some r ∈ table.chain (table.pos label))) :
    RepresentsMap key (table.setChain (table.pos label) l) (update m label v) where
  head := fun b => by rw [setChain_record, h.head]
  placed := by
    intro b x hx
    rw [setChain_chain] at hx
    by_cases hb : b = table.pos label
    · subst hb
      rw [update_self] at hx
      exact hplaced x hx
    · rw [update_of_ne hb] at hx
      exact h.placed b x hx
  unique := by
    intro b
    rw [setChain_chain]
    by_cases hb : b = table.pos label
    · subst hb
      rwa [update_self]
    · rw [update_of_ne hb]
      exact h.unique b
  value := by
    intro k r
    rw [setChain_chain, setChain_pos]
    by_cases hk : k = label
    · subst hk
      rw [update_self, update_self]
      exact hself r
    · rw [update_of_ne hk, h.value]
      by_cases hb : table.pos k = table.pos label
      · rw [hb, update_self]
        constructor
        · rintro ⟨rfl, hr⟩
          exact ⟨rfl, (hother r hk).mpr hr⟩
        · rintro ⟨rfl, hr⟩
          exact ⟨rfl, (hother r hk).mp hr⟩
      · rw [update_of_ne hb]

/-- `get_hashnode` reports a record exactly when the map has one, and finds its node. -/
theorem get (h : RepresentsMap key table m)
    (hcompare : Decides compare key table) (label : κ) :
    ∃ node, getHashnode compare table label = .ok (node, (m label).isSome) ∧
      ((m label).isSome = true → table.recordAt node = m label) := by
  rcases h.bucket_cases hcompare label with ⟨hm, hl⟩ | ⟨front, r, back, hm, -, hl, hr, hf⟩
  · rw [hm]
    exact ⟨_, getHashnode_of_miss (h.head _) hl, nofun⟩
  · rw [hm]
    refine ⟨⟨table.pos label, front.length + 1⟩, ?_, fun _ => by simp [recordAt, hl]⟩
    exact getHashnode_of_hit (h.head _) hl hr hf

/-- The record of a key is taken out of its bucket. -/
theorem erase_record {r : ρ} {front back : List (Option ρ)} (h : RepresentsMap key table m)
    (hl : table.chain (table.pos label) = front ++ some r :: back) (hkey : key r = label) :
    RepresentsMap key (table.setChain (table.pos label) (front ++ back))
      (update m label none) := by
  have hnodup := h.unique (table.pos label)
  rw [hl] at hnodup
  refine h.setChain ?_ ?_ ?_ ?_
  · intro x hx
    exact h.placed _ x (by rw [hl]; simp at hx ⊢; tauto)
  · exact hnodup.sublist (((List.sublist_cons_self _ back).append_left front).map _)
  · intro r'
    simp only [reduceCtorEq, false_iff, not_and]
    intro hkey' hmem
    rw [List.map_append, List.map_cons, List.nodup_middle] at hnodup
    refine (List.nodup_cons.mp hnodup).1 ?_
    rw [← List.map_append]
    exact List.mem_map.mpr ⟨some r', hmem, by simp [hkey', hkey]⟩
  · intro r' hne
    have hr' : r' ≠ r := by
      rintro rfl
      exact hne hkey
    simp [hl, hr']

/-- `reset_hash_node` removes the label from the map, in its own bucket. -/
theorem reset (h : RepresentsMap key table m) (hcompare : Decides compare key table)
    (label : κ) :
    ∃ l, resetHashNode compare table label =
        .ok (table.setChain (table.pos label) l, (m label).isSome) ∧
      RepresentsMap key (table.setChain (table.pos label) l) (update m label none) := by
  rcases h.bucket_cases hcompare label with ⟨hm, hl⟩ | ⟨front, r, back, hm, hkey, hl, hr, hf⟩
  · have hs : scan (compare · label) (table.chain (table.pos label)) = .ok none :=
      scan_eq_none.mpr hl
    have hself : table.setChain (table.pos label) (table.chain (table.pos label)) = table := by
      simp [Hashtable.setChain, chain]
    refine ⟨table.chain (table.pos label), ?_, ?_⟩
    · simp [resetHashNode, hs, hself, hm, bind, Except.bind, pure, Except.pure]
    · rw [hself, ← hm, update_eq_self]
      exact h
  · refine ⟨front ++ back, ?_, h.erase_record hl hkey⟩
    rw [resetHashNode_of_hit hl hr hf, hm]
    rfl

/-- A record under a new key goes to the end of its bucket. -/
theorem append_record {record : ρ} (h : RepresentsMap key table m) (hm : m label = none)
    (hkey : key record = label) :
    RepresentsMap key
      (table.setChain (table.pos label) (table.chain (table.pos label) ++ [some record]))
      (update m label (some record)) := by
  have hfresh : ∀ r, some r ∈ table.chain (table.pos label) → key r ≠ label := by
    intro r hr hr'
    have := (h.value label r).mpr ⟨hr', hr⟩
    rw [hm] at this
    cases this
  refine h.setChain ?_ ?_ ?_ ?_
  · intro x hx
    rcases List.mem_append.mp hx with hx | hx
    · exact h.placed _ x hx
    · exact ⟨record, List.mem_singleton.mp hx, by rw [hkey]⟩
  · rw [List.map_append, List.nodup_append]
    refine ⟨h.unique _, by simp, ?_⟩
    rintro _ hx y hy rfl
    obtain ⟨x, hx, hxk⟩ := List.mem_map.mp hx
    obtain ⟨r, rfl, -⟩ := h.placed _ x hx
    simp only [List.map_cons, List.map_nil, List.mem_singleton] at hy
    rw [hy, Option.map_some, Option.map_some, hkey, Option.some.injEq] at hxk
    exact hfresh r hx hxk
  · intro r
    simp only [List.mem_append, List.mem_singleton, Option.some.injEq]
    constructor
    · rintro rfl
      exact ⟨hkey, .inr rfl⟩
    · rintro ⟨hr, hmem | rfl⟩
      · exact absurd hr (hfresh r hmem)
      · rfl
  · intro r hne
    have hr : r ≠ record := by
      rintro rfl
      exact hne hkey
    simp [hr]

/-- A record under a known key takes the place of the old one. -/
theorem replace_record {record r : ρ} {front back : List (Option ρ)}
    (h : RepresentsMap key table m)
    (hl : table.chain (table.pos label) = front ++ some r :: back) (hr : key r = label)
    (hkey : key record = label) :
    RepresentsMap key (table.setChain (table.pos label) (front ++ some record :: back))
      (update m label (some record)) := by
  have hkeys : (front ++ some record :: back).map (Option.map key) =
      (table.chain (table.pos label)).map (Option.map key) := by
    simp [hl, hkey, hr]
  refine h.setChain ?_ ?_ ?_ ?_
  · intro x hx
    by_cases hxr : x = some record
    · exact ⟨record, hxr, by rw [hkey]⟩
    · exact h.placed _ x (by rw [hl]; simp [hxr] at hx ⊢; tauto)
  · rw [hkeys]
    exact h.unique _
  · intro r'
    constructor
    · rintro ⟨⟩
      exact ⟨hkey, by simp⟩
    · rintro ⟨hr', hmem⟩
      have hnodup := h.unique (table.pos label)
      rw [← hkeys] at hnodup
      exact (List.inj_on_of_nodup_map hnodup hmem (by simp) (by simp [hr', hkey])).symm
  · intro r' hne
    have h₁ : r' ≠ record := by
      rintro rfl
      exact hne hkey
    have h₂ : r' ≠ r := by
      rintro rfl
      exact hne hr
    simp [hl, h₁, h₂]

/-- `set_hashnode` stores a record under its key, in its own bucket. -/
theorem set {record : ρ} (h : RepresentsMap key table m) (hcompare : Decides compare key table)
    (hkey : key record = label) :
    ∃ l node, setHashnode compare table label (some record) =
        .ok (table.setChain (table.pos label) l, node, (m label).isSome) ∧
      (table.setChain (table.pos label) l).recordAt node = some record ∧
      RepresentsMap key (table.setChain (table.pos label) l)
        (update m label (some record)) := by
  rcases h.bucket_cases hcompare label with ⟨hm, hl⟩ | ⟨front, r, back, hm, hkey', hl, hr, hf⟩
  · have hget := getHashnode_of_miss (h.head (table.pos label)) hl
    refine ⟨table.chain (table.pos label) ++ [some record],
      ⟨table.pos label, (table.chain (table.pos label)).length + 1⟩, ?_, ?_,
      h.append_record hm hkey⟩
    · simp [setHashnode, hget, hm, bind, Except.bind, pure, Except.pure]
    · simp [recordAt]
  · have hget := getHashnode_of_hit (h.head (table.pos label)) hl hr hf
    refine ⟨front ++ some record :: back, ⟨table.pos label, front.length + 1⟩, ?_, ?_,
      h.replace_record hl hkey' hkey⟩
    · simp [setHashnode, hget, hm, hl, setRecordAt, bind, Except.bind, pure, Except.pure]
    · simp [recordAt]

end RepresentsMap

section Runs

variable [DecidableEq κ] {key : ρ → κ} {compare : Option ρ → κ → Exec Bool}
  {table : Hashtable κ ρ} {m : κ → Option ρ} {op : HashOp κ ρ}

/-- Every call returns, follows the map, and leaves the other buckets alone. -/
theorem exec_mapStep (h : RepresentsMap key table m)
    (hcompare : ∀ r k, compare (some r) k = .ok (decide (key r = k))) (hop : op.Keyed key) :
    ∃ table' r, op.exec compare table = .ok (table', r) ∧
      RepresentsMap key table' (mapStep m op).1 ∧ r.answer = (mapStep m op).2 ∧
      table'.pos = table.pos ∧
      ∀ b, b ≠ table.pos op.label → table'.chain b = table.chain b := by
  have hdec : RepresentsMap.Decides compare key table := fun _ r _ k => hcompare r k
  cases op with
  | set label record =>
      obtain ⟨l, node, hset, hnode, hr⟩ := h.set hdec hop
      refine ⟨_, .stored (m label).isSome (some record), ?_, hr, rfl, rfl, fun b hb => ?_⟩
      · simp only [HashOp.exec, hset, bind, Except.bind, hnode]
        rfl
      · rw [setChain_chain]
        exact update_of_ne hb _ _
  | get label =>
      obtain ⟨node, hget, hnode⟩ := h.get hdec label
      refine ⟨table, .got (m label).isSome (table.recordAt node), ?_, h, ?_, rfl, fun _ _ => rfl⟩
      · simp only [HashOp.exec, hget, bind, Except.bind]
        rfl
      · cases hm : m label with
        | none => simp [HashResult.answer, mapStep, hm]
        | some r =>
            have hrecord := hnode (by simp [hm])
            simp [HashResult.answer, mapStep, hm, hrecord]
  | reset label =>
      obtain ⟨l, hreset, hr⟩ := h.reset hdec label
      refine ⟨_, .removed (m label).isSome, ?_, hr, rfl, rfl, fun b hb => ?_⟩
      · simp only [HashOp.exec, hreset, bind, Except.bind]
        rfl
      · rw [setChain_chain]
        exact update_of_ne hb _ _

/-- The table refines a finite map: whatever calls are made on a fresh table, they all
return, answer as the map does, and leave a table that represents the map; and the next
call touches the bucket of its label only. -/
theorem hashOps_refine (key : ρ → κ) (compare : Option ρ → κ → Exec Bool)
    (hcompare : ∀ r k, compare (some r) k = .ok (decide (key r = k)))
    (hash : κ → ℕ) (size : ℕ) (ops : List (HashOp κ ρ)) (hops : ∀ op ∈ ops, op.Keyed key) :
    ∃ table results, run (HashOp.exec compare) ⟨fun _ => ⟨none, []⟩, hash, size⟩ ops =
        .ok (table, results) ∧
      results.map HashResult.answer = (totalRun mapStep (fun _ => none) ops).2 ∧
      RepresentsMap key table (totalRun mapStep (fun _ => none) ops).1 ∧
      (∀ b, ∀ x ∈ table.chain b, ∃ r, x = some r ∧ b = hash (key r) % size) ∧
      ∀ op : HashOp κ ρ, op.Keyed key → ∃ table' r, op.exec compare table = .ok (table', r) ∧
        ∀ b, b ≠ hash op.label % size → table'.chain b = table.chain b := by
  have hstep : ∀ (t : Hashtable κ ρ) (m : κ → Option ρ) (op : HashOp κ ρ),
      (RepresentsMap key t m ∧ t.pos = fun k => hash k % size) → decide (op.Keyed key) = true →
      ∃ t' r, op.exec compare t = .ok (t', r) ∧
        (RepresentsMap key t' (mapStep m op).1 ∧ t'.pos = fun k => hash k % size) ∧
        r.answer = (mapStep m op).2 := by
    rintro t m op ⟨hr, hpos⟩ hop
    obtain ⟨t', r, hexec, hr', hans, hpos', -⟩ :=
      exec_mapStep hr hcompare (of_decide_eq_true hop)
    exact ⟨t', r, hexec, ⟨hr', hpos'.trans hpos⟩, hans⟩
  have halong : along (HashOp.exec compare) (fun _ op => decide (op.Keyed key))
      (⟨fun _ => ⟨none, []⟩, hash, size⟩ : Hashtable κ ρ) ops = true :=
    along_of_mem fun op hop _ => decide_eq_true (hops op hop)
  obtain ⟨table, results, hrun, ⟨hr, hpos⟩, hout⟩ := run_simulates
    (fun t m => RepresentsMap key t m ∧ t.pos = fun k => hash k % size) hstep
    ⟨.empty key hash size, rfl⟩ halong
  refine ⟨table, results, hrun, hout, hr, ?_, ?_⟩
  · intro b x hx
    obtain ⟨r, rfl, hb⟩ := hr.placed b x hx
    rw [hpos] at hb
    exact ⟨r, rfl, hb.symm⟩
  · intro op hop
    obtain ⟨table', r, hexec, -, -, -, hframe⟩ := exec_mapStep hr hcompare hop
    rw [hpos] at hframe
    exact ⟨table', r, hexec, hframe⟩

/-- Two colliding keys, an overwrite, a removal and lookups. -/
theorem hashOps_refine_sample :
    ∃ table results, run (HashOp.exec fun r k => .ok (decide (r.map Prod.fst = some k)))
        (⟨fun _ => ⟨none, []⟩, id, 3⟩ : Hashtable ℕ (ℕ × ℕ))
        [.set 1 (1, 10), .set 4 (4, 40), .set 1 (1, 11), .get 4, .reset 4, .get 1, .get 4] =
        .ok (table, results) ∧
      results.map HashResult.answer = [.stored false (some (1, 10)), .stored false (some (4, 40)),
        .stored true (some (1, 11)), .got true (some (4, 40)), .removed true,
        .got true (some (1, 11)), .got false none] := by
  obtain ⟨table, results, hrun, hout, -⟩ := hashOps_refine Prod.fst
    (fun r k => .ok (decide (r.map Prod.fst = some k))) (fun r k => by simp) id 3
    [.set 1 (1, 10), .set 4 (4, 40), .set 1 (1, 11), .get 4, .reset 4, .get 1, .get 4]
    (by decide)
  exact ⟨table, results, hrun, hout.trans (by decide)⟩

end Runs

end DnsRelay.Hash
