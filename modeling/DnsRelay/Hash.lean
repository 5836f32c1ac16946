import DnsRelay.Basic
import DnsRelay.Lib.Machine
import Mathlib.Logic.Function.Basic

/-!
# The chained hash table of `hash.c`

A bucket is its head node together with the nodes hanging from it in `next`
order. The compare callback reads the records it is given, so it is an argument
of every operation and may stop the program.
-/

namespace DnsRelay.Hash

open DnsRelay.Lib.Machine Function

/-- `ceil(sqrt(n))` on an integer argument: the least number whose square is at least `n`. -/
def ceilSqrt (n : ℕ) : ℕ :=
  ((List.range n).find? fun k => n ≤ k * k).getD n

/-- The trial division loop. Its `break` stands outside the `if`, so the body
runs for the divisor two only, and not at all below it. -/
def trialFlag (n : ℕ) : Bool :=
  decide (2 ≤ ceilSqrt n) && decide (n % 2 = 0)

/-- The `while (true)` search with a bound on the number of rounds. -/
def findSmallestPrimeFrom : ℕ → ℕ → Option ℕ
  | 0, _ => none
  | fuel + 1, n =>
      if n = 1 then findSmallestPrimeFrom fuel (n + 1)
      else if trialFlag n then findSmallestPrimeFrom fuel (n + 1)
      else some n

/-- `find_smallest_prime`: three rounds always suffice. -/
def findSmallestPrime (n : ℕ) : ℕ :=
  (findSmallestPrimeFrom 3 n).getD n

variable {κ ρ : Type}

/-- A head node and the records of the nodes after it. `none` is NULL. -/
structure Bucket (ρ : Type) where
  record : Option ρ
  next : List (Option ρ)

structure Hashtable (κ ρ : Type) where
  nodes : ℕ → Bucket ρ
  hash : κ → ℕ
  size : ℕ

/-- A node pointer: a bucket and a place in it, where place zero is the head. -/
structure NodeRef where
  pos : ℕ
  place : ℕ

namespace Hashtable

def pos (table : Hashtable κ ρ) (label : κ) : ℕ := table.hash label % table.size

def chain (table : Hashtable κ ρ) (b : ℕ) : List (Option ρ) := (table.nodes b).next

def setChain (table : Hashtable κ ρ) (b : ℕ) (l : List (Option ρ)) : Hashtable κ ρ :=
  { table with nodes := update table.nodes b { table.nodes b with next := l } }

/-- `node->record`. -/
def recordAt (table : Hashtable κ ρ) (node : NodeRef) : Option ρ :=
  match node.place with
  | 0 => (table.nodes node.pos).record
  | i + 1 => ((table.chain node.pos)[i]?).join

/-- `node->record = r`. -/
def setRecordAt (table : Hashtable κ ρ) (node : NodeRef) (r : Option ρ) : Hashtable κ ρ :=
  match node.place with
  | 0 =>
      { table with
        nodes := update table.nodes node.pos { table.nodes node.pos with record := r } }
  | i + 1 => table.setChain node.pos ((table.chain node.pos).set i r)

@[simp] theorem setChain_hash (table : Hashtable κ ρ) (b : ℕ) (l : List (Option ρ)) :
    (table.setChain b l).hash = table.hash := rfl

@[simp] theorem setChain_size (table : Hashtable κ ρ) (b : ℕ) (l : List (Option ρ)) :
    (table.setChain b l).size = table.size := rfl

@[simp] theorem setChain_pos (table : Hashtable κ ρ) (b : ℕ) (l : List (Option ρ)) :
    (table.setChain b l).pos = table.pos := rfl

@[simp] theorem setChain_chain (table : Hashtable κ ρ) (b : ℕ) (l : List (Option ρ)) :
    (table.setChain b l).chain = update table.chain b l := by
  funext b'
  by_cases h : b' = b
  · subst h
    simp [chain, setChain]
  · simp [chain, setChain, h]

@[simp] theorem setChain_record (table : Hashtable κ ρ) (b b' : ℕ) (l : List (Option ρ)) :
    ((table.setChain b l).nodes b').record = (table.nodes b').record := by
  by_cases h : b' = b
  · subst h
    simp [setChain]
  · simp [setChain, h]

end Hashtable

open Hashtable

/-- `init_hashtable`: `scaled` is the truncated quotient `size / filling_factor`,
and `calloc` leaves every head node with a NULL record and no successor. -/
def initHashtable (hash : κ → ℕ) (scaled : ℕ) : Hashtable κ ρ where
  nodes := fun _ => ⟨none, []⟩
  hash := hash
  size := findSmallestPrime scaled

/-- The walk `while (node->next)`: the index of the first node that compares equal. -/
def scan (compare : Option ρ → Exec Bool) : List (Option ρ) → Exec (Option ℕ)
  | [] => .ok none
  | r :: rest => do
      if ← compare r then return some 0
      else return (← scan compare rest).map (· + 1)

/-- `get_hashnode`: the matching node, or the last node of the chain. -/
def getHashnode (compare : Option ρ → κ → Exec Bool) (table : Hashtable κ ρ)
    (label : κ) : Exec (NodeRef × Bool) :=
  let pos := table.pos label
  if (table.nodes pos).record.isSome then .error .headRecord
  else do
    match ← scan (compare · label) (table.chain pos) with
    | some i => return (⟨pos, i + 1⟩, true)
    | none => return (⟨pos, (table.chain pos).length⟩, false)

/-- `reset_hash_node`: unlink the first node that compares equal. -/
def resetHashNode (compare : Option ρ → κ → Exec Bool) (table : Hashtable κ ρ)
    (label : κ) : Exec (Hashtable κ ρ × Bool) := do
  let pos := table.pos label
  match ← scan (compare · label) (table.chain pos) with
  | some i => return (table.setChain pos ((table.chain pos).eraseIdx i), true)
  | none => return (table, false)

/-- `set_hashnode`: NULL does not overwrite a record that is already stored, but
a new node is hung behind the returned one whatever the record is. -/
def setHashnode (compare : Option ρ → κ → Exec Bool) (table : Hashtable κ ρ)
    (label : κ) (record : Option ρ) : Exec (Hashtable κ ρ × NodeRef × Bool) := do
  let (node, isFind) ← getHashnode compare table label
  if isFind then
    match record with
    | some r => return (table.setRecordAt node (some r), node, true)
    | none => return (table, node, true)
  else
    return (table.setChain node.pos ((table.chain node.pos).take node.place ++ [record]),
      ⟨node.pos, node.place + 1⟩, false)

section Scan

variable {compare : Option ρ → Exec Bool} {l : List (Option ρ)}

/-- A walk ends without a match exactly when every node compares unequal. -/
theorem scan_eq_none : scan compare l = .ok none ↔ ∀ r ∈ l, compare r = .ok false := by
  induction l with
  | nil => simp [scan]
  | cons r rest ih =>
      cases hr : compare r with
      | error e => simp [scan, hr, bind, Except.bind]
      | ok found =>
          cases found with
          | true => simp [scan, hr, bind, Except.bind, pure, Except.pure]
          | false =>
              cases hs : scan compare rest with
              | error e =>
                  simp only [hs, reduceCtorEq, false_iff] at ih
                  simp [scan, hr, hs, bind, Except.bind, ih]
              | ok found =>
                  cases found with
                  | none =>
                      simp only [hs, true_iff] at ih
                      simpa [scan, hr, hs, bind, Except.bind, pure, Except.pure] using ih
                  | some i =>
                      simp only [hs, Except.ok.injEq, reduceCtorEq, false_iff] at ih
                      simp [scan, hr, hs, bind, Except.bind, pure, Except.pure, ih]

/-- A match is the first node that compares equal. -/
theorem scan_eq_some {i : ℕ} (h : scan compare l = .ok (some i)) :
    ∃ front r back, l = front ++ r :: back ∧ front.length = i ∧ compare r = .ok true ∧
      ∀ x ∈ front, compare x = .ok false := by
  induction l generalizing i with
  | nil => simp [scan] at h
  | cons r rest ih =>
      obtain ⟨found, hr, h⟩ := bind_eq_ok.mp h
      cases found with
      | true =>
          cases h
          exact ⟨[], r, rest, rfl, rfl, hr, by simp⟩
      | false =>
          obtain ⟨found, hs, h⟩ := bind_eq_ok.mp h
          cases found with
          | none => cases h
          | some j =>
              cases h
              obtain ⟨front, x, back, rfl, rfl, hx, hf⟩ := ih hs
              refine ⟨r :: front, x, back, rfl, rfl, hx, ?_⟩
              intro y hy
              rcases List.mem_cons.mp hy with rfl | hy
              · exact hr
              · exact hf y hy

/-- Conversely the first equal node of a chain is found. -/
theorem scan_append_cons {front back : List (Option ρ)} {r : Option ρ}
    (hr : compare r = .ok true) (hf : ∀ x ∈ front, compare x = .ok false) :
    scan compare (front ++ r :: back) = .ok (some front.length) := by
  induction front with
  | nil => simp [scan, hr, bind, Except.bind, pure, Except.pure]
  | cons x front ih =>
      have hx : compare x = .ok false := hf x (by simp)
      have hrest := ih fun y hy => hf y (List.mem_cons_of_mem _ hy)
      simp [scan, hx, hrest, bind, Except.bind, pure, Except.pure]

/-- A walk returns when every comparison does. -/
theorem scan_total (h : ∀ r ∈ l, ∃ found, compare r = .ok found) :
    ∃ found, scan compare l = .ok found := by
  induction l with
  | nil => exact ⟨none, rfl⟩
  | cons r rest ih =>
      obtain ⟨found, hr⟩ := h r (by simp)
      obtain ⟨hit, hrest⟩ := ih fun x hx => h x (List.mem_cons_of_mem _ hx)
      cases found with
      | true => exact ⟨some 0, by simp [scan, hr, bind, Except.bind, pure, Except.pure]⟩
      | false =>
          exact ⟨hit.map (· + 1), by
            simp [scan, hr, hrest, bind, Except.bind, pure, Except.pure]⟩

/-- A walk stops only where a comparison does. -/
theorem scan_ne_error {e : Stop} (h : ∀ r, compare r ≠ .error e) : scan compare l ≠ .error e := by
  induction l with
  | nil => nofun
  | cons r rest ih =>
      refine bind_ne_error (h r) fun found _ => ?_
      cases found with
      | true => nofun
      | false => exact bind_ne_error ih fun _ _ => by nofun

end Scan

section Operations

variable {compare : Option ρ → κ → Exec Bool} {table table' : Hashtable κ ρ} {label : κ}
  {node : NodeRef} {record : Option ρ}

/-- A hit of `get_hashnode` names the first matching node of the bucket. -/
theorem getHashnode_hit (h : getHashnode compare table label = .ok (node, true)) :
    ∃ front r back, table.chain (table.pos label) = front ++ r :: back ∧
      node = ⟨table.pos label, front.length + 1⟩ ∧ table.recordAt node = r ∧
      compare r label = .ok true ∧ ∀ x ∈ front, compare x label = .ok false := by
  simp only [getHashnode] at h
  split at h
  · cases h
  · obtain ⟨found, hs, h⟩ := bind_eq_ok.mp h
    cases found with
    | none => cases h
    | some i =>
        cases h
        obtain ⟨front, r, back, hl, rfl, hr, hf⟩ := scan_eq_some hs
        exact ⟨front, r, back, hl, rfl, by simp [recordAt, hl], hr, hf⟩

/-- A miss of `get_hashnode` walked the whole bucket and names its last node. -/
theorem getHashnode_miss (h : getHashnode compare table label = .ok (node, false)) :
    node = ⟨table.pos label, (table.chain (table.pos label)).length⟩ ∧
      ∀ x ∈ table.chain (table.pos label), compare x label = .ok false := by
  simp only [getHashnode] at h
  split at h
  · cases h
  · obtain ⟨found, hs, h⟩ := bind_eq_ok.mp h
    cases found with
    | some i => cases h
    | none =>
        cases h
        exact ⟨rfl, scan_eq_none.mp hs⟩

theorem getHashnode_of_miss (hn : (table.nodes (table.pos label)).record = none)
    (hl : ∀ x ∈ table.chain (table.pos label), compare x label = .ok false) :
    getHashnode compare table label =
      .ok (⟨table.pos label, (table.chain (table.pos label)).length⟩, false) := by
  have hs : scan (compare · label) (table.chain (table.pos label)) = .ok none :=
    scan_eq_none.mpr hl
  simp [getHashnode, hn, hs, bind, Except.bind, pure, Except.pure]

theorem getHashnode_of_hit {front back : List (Option ρ)} {r : Option ρ}
    (hn : (table.nodes (table.pos label)).record = none)
    (hl : table.chain (table.pos label) = front ++ r :: back)
    (hr : compare r label = .ok true) (hf : ∀ x ∈ front, compare x label = .ok false) :
    getHashnode compare table label = .ok (⟨table.pos label, front.length + 1⟩, true) := by
  have hs : scan (compare · label) (table.chain (table.pos label)) = .ok (some front.length) := by
    rw [hl]
    exact scan_append_cons hr hf
  simp [getHashnode, hn, hs, bind, Except.bind, pure, Except.pure]

theorem getHashnode_total (hn : (table.nodes (table.pos label)).record = none)
    (h : ∀ r ∈ table.chain (table.pos label), ∃ found, compare r label = .ok found) :
    ∃ found node, getHashnode compare table label = .ok (node, found) := by
  obtain ⟨hit, hs⟩ := scan_total h
  cases hit with
  | none =>
      refine ⟨false, ⟨table.pos label, (table.chain (table.pos label)).length⟩, ?_⟩
      simp [getHashnode, hn, hs, bind, Except.bind, pure, Except.pure]
  | some i =>
      refine ⟨true, ⟨table.pos label, i + 1⟩, ?_⟩
      simp [getHashnode, hn, hs, bind, Except.bind, pure, Except.pure]

private theorem eraseIdx_split {front back : List (Option ρ)} {r : Option ρ} :
    (front ++ r :: back).eraseIdx front.length = front ++ back := by
  rw [List.eraseIdx_append_of_length_le le_rfl]
  simp

/-- `reset_hash_node` either finds nothing or unlinks the first matching node. -/
theorem resetHashNode_cases {found : Bool}
    (h : resetHashNode compare table label = .ok (table', found)) :
    (found = false ∧ table' = table ∧
      ∀ x ∈ table.chain (table.pos label), compare x label = .ok false) ∨
    (found = true ∧ ∃ front r back, table.chain (table.pos label) = front ++ r :: back ∧
      table' = table.setChain (table.pos label) (front ++ back) ∧
      compare r label = .ok true ∧ ∀ x ∈ front, compare x label = .ok false) := by
  obtain ⟨hit, hs, h⟩ := bind_eq_ok.mp h
  cases hit with
  | none =>
      cases h
      exact .inl ⟨rfl, rfl, scan_eq_none.mp hs⟩
  | some i =>
      cases h
      obtain ⟨front, r, back, hl, rfl, hr, hf⟩ := scan_eq_some hs
      exact .inr ⟨rfl, front, r, back, hl, by rw [hl, eraseIdx_split], hr, hf⟩

/-- `reset_hash_node` hangs no new node and keeps the head nodes and the hash function. -/
theorem resetHashNode_frame {found : Bool}
    (h : resetHashNode compare table label = .ok (table', found)) :
    (∀ b, (table'.chain b).Sublist (table.chain b)) ∧
      (∀ b, (table'.nodes b).record = (table.nodes b).record) ∧ table'.pos = table.pos := by
  rcases resetHashNode_cases h with ⟨-, rfl, -⟩ | ⟨-, front, r, back, hl, rfl, -, -⟩
  · exact ⟨fun b => List.Sublist.refl _, fun b => rfl, rfl⟩
  · refine ⟨fun b => ?_, fun b => setChain_record _ _ _ _, rfl⟩
    rw [setChain_chain]
    by_cases hb : b = table.pos label
    · subst hb
      rw [update_self, hl]
      exact (List.sublist_cons_self r back).append_left front
    · rw [update_of_ne hb]

theorem resetHashNode_of_hit {front back : List (Option ρ)} {r : Option ρ}
    (hl : table.chain (table.pos label) = front ++ r :: back)
    (hr : compare r label = .ok true) (hf : ∀ x ∈ front, compare x label = .ok false) :
    resetHashNode compare table label =
      .ok (table.setChain (table.pos label) (front ++ back), true) := by
  have hs : scan (compare · label) (front ++ r :: back) = .ok (some front.length) :=
    scan_append_cons hr hf
  simp [resetHashNode, hl, hs, eraseIdx_split, bind, Except.bind, pure, Except.pure]

/-- `set_hashnode` with the NULL placeholder: a hit leaves the table as it is, a
miss hangs one node at the end of the bucket. -/
theorem setHashnode_none_cases {exist : Bool}
    (h : setHashnode compare table label none = .ok (table', node, exist)) :
    (exist = true ∧ table' = table ∧ getHashnode compare table label = .ok (node, true)) ∨
    (exist = false ∧ getHashnode compare table label =
        .ok (⟨table.pos label, (table.chain (table.pos label)).length⟩, false) ∧
      table' = table.setChain (table.pos label) (table.chain (table.pos label) ++ [none]) ∧
      node = ⟨table.pos label, (table.chain (table.pos label)).length + 1⟩) := by
  obtain ⟨⟨node', isFind⟩, hg, h⟩ := bind_eq_ok.mp h
  cases isFind with
  | true =>
      cases h
      exact .inl ⟨rfl, rfl, hg⟩
  | false =>
      obtain ⟨rfl, -⟩ := getHashnode_miss hg
      cases h
      exact .inr ⟨rfl, hg, by simp, rfl⟩

theorem setHashnode_none_of_hit (h : getHashnode compare table label = .ok (node, true)) :
    setHashnode compare table label none = .ok (table, node, true) := by
  simp [setHashnode, h, bind, Except.bind, pure, Except.pure]

theorem setHashnode_none_of_miss (h : getHashnode compare table label =
    .ok (⟨table.pos label, (table.chain (table.pos label)).length⟩, false)) :
    setHashnode compare table label none =
      .ok (table.setChain (table.pos label) (table.chain (table.pos label) ++ [none]),
        ⟨table.pos label, (table.chain (table.pos label)).length + 1⟩, false) := by
  simp [setHashnode, h, bind, Except.bind, pure, Except.pure]

section Stops

variable {e : Stop}

theorem getHashnode_ne_error (h : ∀ r, compare r label ≠ .error e) (hhead : e ≠ .headRecord) :
    getHashnode compare table label ≠ .error e := by
  simp only [getHashnode]
  split
  · intro heq
    cases heq
    exact hhead rfl
  · refine bind_ne_error (scan_ne_error h) fun found _ => ?_
    cases found <;> nofun

theorem setHashnode_ne_error (h : ∀ r, compare r label ≠ .error e) (hhead : e ≠ .headRecord) :
    setHashnode compare table label record ≠ .error e := by
  refine bind_ne_error (getHashnode_ne_error h hhead) fun found _ => ?_
  obtain ⟨node, isFind⟩ := found
  cases isFind with
  | true => cases record <;> nofun
  | false => nofun

theorem resetHashNode_ne_error (h : ∀ r, compare r label ≠ .error e) :
    resetHashNode compare table label ≠ .error e := by
  refine bind_ne_error (scan_ne_error h) fun found _ => ?_
  cases found <;> nofun

variable {P : Stop → Prop}

theorem scan_confined {compare : Option ρ → Exec Bool} (h : ∀ r, Confined P (compare r))
    (l : List (Option ρ)) : Confined P (scan compare l) := by
  induction l with
  | nil => exact confined_ok _
  | cons r rest ih =>
      refine (h r).bind fun found _ => ?_
      split
      · exact confined_ok _
      · exact ih.bind fun _ _ => confined_ok _

theorem getHashnode_confined (h : ∀ r, Confined P (compare r label))
    (hhead : ∀ b, (table.nodes b).record = none) :
    Confined P (getHashnode compare table label) := by
  simp only [getHashnode, hhead, Option.isSome_none, Bool.false_eq_true, if_false]
  refine (scan_confined h _).bind fun found _ => ?_
  cases found <;> exact confined_ok _

theorem setHashnode_confined (h : ∀ r, Confined P (compare r label))
    (hhead : ∀ b, (table.nodes b).record = none) :
    Confined P (setHashnode compare table label record) := by
  refine (getHashnode_confined h hhead).bind fun found _ => ?_
  obtain ⟨node, isFind⟩ := found
  cases isFind with
  | true => cases record <;> exact confined_ok _
  | false => exact confined_ok _

theorem resetHashNode_confined (h : ∀ r, Confined P (compare r label)) :
    Confined P (resetHashNode compare table label) := by
  refine (scan_confined h _).bind fun found _ => ?_
  cases found <;> exact confined_ok _

end Stops

/-- `set_hashnode` writes to no head node. -/
theorem setHashnode_record {exist : Bool}
    (h : setHashnode compare table label record = .ok (table', node, exist)) (b : ℕ) :
    (table'.nodes b).record = (table.nodes b).record := by
  obtain ⟨⟨node', isFind⟩, hg, h⟩ := bind_eq_ok.mp h
  cases isFind with
  | true =>
      obtain ⟨front, r, back, -, rfl, -⟩ := getHashnode_hit hg
      cases record with
      | none =>
          cases h
          rfl
      | some r =>
          cases h
          exact setChain_record _ _ _ _
  | false =>
      cases h
      exact setChain_record _ _ _ _

/-- Filling the placeholder of a freshly hung node. -/
theorem setRecordAt_placeholder (b : ℕ) (l : List (Option ρ)) (r : ρ) :
    (table.setChain b (l ++ [none])).setRecordAt ⟨b, l.length + 1⟩ (some r) =
      table.setChain b (l ++ [some r]) := by
  simp [setRecordAt, setChain, chain]

end Operations

end DnsRelay.Hash
