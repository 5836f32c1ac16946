import DnsRelay.Lib.Output
import Mathlib.Data.Finset.Basic
import Mathlib.Data.List.Nodup

/-!
# Chains of blocks

A heap hands out blocks of memory under new numbers and takes them back one by one. A
pointer leads to the chain of blocks that was hung on it last, whether or not they are still
handed out; to take back a block that is not handed out is a fault. What the owner of the
pointers believes of them is compared with the heap, and a computation that calls `malloc`
and `free` is followed by what its result believes.
-/

namespace DnsRelay.Lib

open Function

universe u

/-- The number of blocks handed out so far, those that were not taken back, and the chain of
each pointer. -/
structure Heap (κ : Type u) where
  count : ℕ
  live : Finset ℕ
  chain : κ → List ℕ

/-- A first block for a pointer, one more block at the end of its chain, and the release of
all blocks of its chain. -/
inductive HeapCall (κ : Type u)
  | malloc (k : κ)
  | extend (k : κ)
  | release (k : κ)

/-- What a pointer is believed to lead to; a live chain has one block more than the number
says. -/
inductive Pointer
  | null
  | freed
  | live (n : ℕ)

/-- What is left of a chain that is released. -/
def Pointer.release : Pointer → Pointer
  | live _ => freed
  | p => p

namespace Heap

variable {κ ε α β : Type u} [DecidableEq κ] {fault : ε} {h h' : Heap κ} {st : κ → Pointer}
  {tight : Prop} {k : κ} {n : ℕ}

def empty : Heap κ := ⟨0, ∅, fun _ => []⟩

/-- Take back the blocks one after the other. -/
def freeAll (fault : ε) : List ℕ → Finset ℕ → Except ε (Finset ℕ)
  | [], live => .ok live
  | b :: bs, live => if b ∈ live then freeAll fault bs (live.erase b) else .error fault

/-- Hand out a block and put it at the end of these blocks, as the chain of a pointer. -/
def grow (h : Heap κ) (k : κ) (bs : List ℕ) : Heap κ where
  count := h.count + 1
  live := insert h.count h.live
  chain := update h.chain k (bs ++ [h.count])

def exec (fault : ε) (h : Heap κ) : HeapCall κ → Except ε (Heap κ)
  | .malloc k => .ok (h.grow k [])
  | .extend k => .ok (h.grow k (h.chain k))
  | .release k => (freeAll fault (h.chain k) h.live).map fun live => { h with live := live }

def run (fault : ε) (h : Heap κ) : List (HeapCall κ) → Except ε (Heap κ)
  | [] => .ok h
  | c :: cs => do run fault (← exec fault h c) cs

theorem run_append (xs ys : List (HeapCall κ)) :
    h.run fault (xs ++ ys) = h.run fault xs >>= fun h => h.run fault ys := by
  induction xs generalizing h with
  | nil => rfl
  | cons c xs ih =>
      rw [List.cons_append, run, run]
      cases h.exec fault c with
      | error e => rfl
      | ok h₁ => exact ih

theorem run_single (c : HeapCall κ) : h.run fault [c] = h.exec fault c := by
  rw [run]
  cases h.exec fault c <;> rfl

section Free

variable {bs : List ℕ} {live : Finset ℕ}

variable (fault) in
theorem freeAll_ok (hd : bs.Nodup) (hbs : ∀ b ∈ bs, b ∈ live) :
    ∃ live', freeAll fault bs live = .ok live' ∧ ∀ b, b ∈ live' ↔ b ∈ live ∧ b ∉ bs := by
  induction bs generalizing live with
  | nil => exact ⟨live, rfl, by simp⟩
  | cons c bs ih =>
      obtain ⟨hc, hd⟩ := List.nodup_cons.mp hd
      obtain ⟨hfirst, hrest⟩ := List.forall_mem_cons.mp hbs
      have hleft : ∀ b ∈ bs, b ∈ live.erase c := fun b hb =>
        Finset.mem_erase.mpr ⟨ne_of_mem_of_not_mem hb hc, hrest b hb⟩
      obtain ⟨live', hfree, hlive⟩ := ih hd hleft
      refine ⟨live', ?_, fun b => ?_⟩
      · rw [freeAll, if_pos hfirst, hfree]
      · rw [hlive b, Finset.mem_erase, List.mem_cons, not_or]
        tauto

/-- A block that is not handed out is found before anything else can happen to it. -/
theorem freeAll_dead {b : ℕ} (hb : b ∈ bs) (hlive : b ∉ live) :
    freeAll fault bs live = .error fault := by
  induction bs generalizing live with
  | nil => cases hb
  | cons c bs ih =>
      rw [freeAll]
      split
      next hc =>
        rcases List.mem_cons.mp hb with rfl | hb
        · exact absurd hc hlive
        · exact ih hb fun h => hlive (Finset.mem_of_mem_erase h)
      next => rfl

end Free

/-- What is believed of the pointers is so, and if the heap is to be tight, every block that is
handed out can still be reached from a pointer. -/
structure Reads (h : Heap κ) (st : κ → Pointer) (tight : Prop) : Prop where
  live_lt : ∀ b ∈ h.live, b < h.count
  chain_lt : ∀ k, ∀ b ∈ h.chain k, b < h.count
  null : ∀ k, st k = .null → h.chain k = []
  freed : ∀ k, st k = .freed → h.chain k ≠ [] ∧ ∀ b ∈ h.chain k, b ∉ h.live
  length : ∀ k n, st k = .live n → (h.chain k).length = n + 1
  nodup : ∀ k n, st k = .live n → (h.chain k).Nodup
  live : ∀ k n, st k = .live n → ∀ b ∈ h.chain k, b ∈ h.live
  apart : ∀ k j n m, st k = .live n → st j = .live m → k ≠ j →
    ∀ b ∈ h.chain k, b ∉ h.chain j
  held : tight → ∀ b ∈ h.live, ∃ k, b ∈ h.chain k

omit [DecidableEq κ] in
theorem reads_empty (tight : Prop) : (empty : Heap κ).Reads (fun _ => .null) tight where
  live_lt := by simp [empty]
  chain_lt := by simp [empty]
  null := fun _ _ => rfl
  freed := nofun
  length := nofun
  nodup := nofun
  live := nofun
  apart := nofun
  held := by simp [empty]

omit [DecidableEq κ] in
/-- A pointer leads to released blocks exactly when it is believed to. -/
theorem Reads.freed_iff (hr : h.Reads st tight) :
    st k ≠ .freed ↔ ∀ b ∈ h.chain k, b ∈ h.live := by
  cases hk : st k with
  | null => simp [hr.null k hk]
  | freed =>
      obtain ⟨hne, hdead⟩ := hr.freed k hk
      obtain ⟨b, hb⟩ := List.exists_mem_of_ne_nil _ hne
      exact ⟨fun h => absurd rfl h, fun h => absurd (h b hb) (hdead b hb)⟩
  | live n => simpa using hr.live k n hk

section Grow

variable {bs : List ℕ} {b : ℕ} {j : κ}

theorem mem_live_grow : b ∈ (h.grow k bs).live ↔ b = h.count ∨ b ∈ h.live :=
  Finset.mem_insert

@[simp] theorem chain_grow_self : (h.grow k bs).chain k = bs ++ [h.count] := update_self ..

theorem chain_grow_of_ne (hj : j ≠ k) : (h.grow k bs).chain j = h.chain j := update_of_ne hj ..

/-- The blocks on which a new one is put are none, or those of the pointer. -/
def Base (h : Heap κ) (st : κ → Pointer) (k : κ) (bs : List ℕ) : Prop :=
  bs = [] ∨ (∃ m, st k = .live m) ∧ bs = h.chain k

omit [DecidableEq κ] in
theorem Reads.base (hr : h.Reads st tight) (hbs : h.Base st k bs) : bs.Nodup ∧
    (∀ b ∈ bs, b ∈ h.live) ∧ ∀ j m, j ≠ k → st j = .live m → ∀ b ∈ bs, b ∉ h.chain j := by
  rcases hbs with rfl | ⟨⟨m, hm⟩, rfl⟩
  · exact ⟨List.nodup_nil, nofun, fun _ _ _ _ => nofun⟩
  · exact ⟨hr.nodup k m hm, hr.live k m hm, fun j m' hj hj' => hr.apart k j m m' hm hj' hj.symm⟩

/-- A new block, on those of the pointer or on none. If the heap is to be tight, the blocks of
the pointer must not be left behind. -/
theorem Reads.grow (hr : h.Reads st tight) (hbs : h.Base st k bs) (hn : bs.length = n)
    (htight : tight → (∃ m, st k = .live m) → bs = h.chain k) :
    (h.grow k bs).Reads (update st k (.live n)) tight := by
  obtain ⟨hnodup, hlive, hapart⟩ := hr.base hbs
  have hfresh : ∀ j, h.count ∉ h.chain j := fun j hj => lt_irrefl _ (hr.chain_lt j _ hj)
  have hnew : h.count ∉ bs := fun hb => lt_irrefl _ (hr.live_lt _ (hlive _ hb))
  constructor
  case live_lt =>
    intro b hb
    rcases mem_live_grow.mp hb with rfl | hb
    · exact Nat.lt_succ_self _
    · exact Nat.lt_succ_of_lt (hr.live_lt b hb)
  case chain_lt =>
    intro j b hb
    rcases eq_or_ne j k with rfl | hj
    · rw [chain_grow_self, List.mem_append, List.mem_singleton] at hb
      rcases hb with hb | rfl
      · exact Nat.lt_succ_of_lt (hr.live_lt b (hlive b hb))
      · exact Nat.lt_succ_self _
    · rw [chain_grow_of_ne hj] at hb
      exact Nat.lt_succ_of_lt (hr.chain_lt j b hb)
  case null =>
    intro j hnull
    rcases eq_or_ne j k with rfl | hj
    · simp at hnull
    · rw [update_of_ne hj] at hnull
      rw [chain_grow_of_ne hj, hr.null j hnull]
  case freed =>
    intro j hfreed
    rcases eq_or_ne j k with rfl | hj
    · simp at hfreed
    · rw [update_of_ne hj] at hfreed
      obtain ⟨hne, hdead⟩ := hr.freed j hfreed
      rw [chain_grow_of_ne hj]
      refine ⟨hne, fun b hb hb' => ?_⟩
      rcases mem_live_grow.mp hb' with rfl | hb'
      · exact hfresh j hb
      · exact hdead b hb hb'
  case length =>
    intro j m hj'
    rcases eq_or_ne j k with rfl | hj
    · rw [update_self] at hj'
      cases hj'
      rw [chain_grow_self, List.length_append, hn, List.length_singleton]
    · rw [update_of_ne hj] at hj'
      rw [chain_grow_of_ne hj, hr.length j m hj']
  case nodup =>
    intro j m hj'
    rcases eq_or_ne j k with rfl | hj
    · rw [chain_grow_self]
      exact hnodup.append (List.nodup_singleton _) (by simpa using hnew)
    · rw [update_of_ne hj] at hj'
      rw [chain_grow_of_ne hj]
      exact hr.nodup j m hj'
  case live =>
    intro j m hj' b hb
    rcases eq_or_ne j k with rfl | hj
    · rw [chain_grow_self, List.mem_append, List.mem_singleton] at hb
      exact mem_live_grow.mpr (hb.symm.imp id (hlive b))
    · rw [update_of_ne hj] at hj'
      rw [chain_grow_of_ne hj] at hb
      exact mem_live_grow.mpr (.inr (hr.live j m hj' b hb))
  case apart =>
    -- the new chain is apart from an old one, in either order
    have hself : ∀ j m, j ≠ k → st j = .live m →
        ∀ b ∈ (h.grow k bs).chain k, b ∉ h.chain j := by
      intro j m hj hj' b hb
      rw [chain_grow_self, List.mem_append, List.mem_singleton] at hb
      rcases hb with hb | rfl
      · exact hapart j m hj hj' b hb
      · exact hfresh j
    intro i j m m' hi hj hij b hb hb'
    rcases eq_or_ne i k with rfl | hik
    · rw [update_of_ne hij.symm] at hj
      rw [chain_grow_of_ne hij.symm] at hb'
      exact hself j m' hij.symm hj b hb hb'
    · rw [update_of_ne hik] at hi
      rw [chain_grow_of_ne hik] at hb
      rcases eq_or_ne j k with rfl | hjk
      · exact hself i m hik hi b hb' hb
      · rw [update_of_ne hjk] at hj
        rw [chain_grow_of_ne hjk] at hb'
        exact hr.apart i j m m' hi hj hij b hb hb'
  case held =>
    intro ht b hb
    rcases mem_live_grow.mp hb with rfl | hold
    · exact ⟨k, by simp⟩
    · obtain ⟨j, hj⟩ := hr.held ht b hold
      rcases eq_or_ne j k with rfl | hjk
      · -- a block that was reached from the pointer is live, so its chain is the one that grows
        cases hst : st j with
        | null =>
            rw [hr.null j hst] at hj
            cases hj
        | freed => exact absurd hold ((hr.freed j hst).2 b hj)
        | live m =>
            refine ⟨j, ?_⟩
            rw [chain_grow_self, htight ht ⟨m, hst⟩]
            exact List.mem_append_left _ hj
      · exact ⟨j, by rwa [chain_grow_of_ne hjk]⟩

end Grow

variable (fault) in
theorem Reads.malloc (hr : h.Reads st tight) (hk : tight → ∀ n, st k ≠ .live n) :
    ∃ h', h.exec fault (.malloc k) = .ok h' ∧ h'.Reads (update st k (.live 0)) tight :=
  ⟨_, rfl, hr.grow (.inl rfl) rfl fun ht ⟨n, hn⟩ => absurd hn (hk ht n)⟩

variable (fault) in
theorem Reads.extend (hr : h.Reads st tight) (hk : st k = .live n) :
    ∃ h', h.exec fault (.extend k) = .ok h' ∧ h'.Reads (update st k (.live (n + 1))) tight :=
  ⟨_, rfl, hr.grow (.inr ⟨⟨n, hk⟩, rfl⟩) (hr.length k n hk) fun _ _ => rfl⟩

variable (fault) in
/-- The release of a chain that was not released before. -/
theorem Reads.release (hr : h.Reads st tight) (hk : st k ≠ .freed) :
    ∃ h', h.exec fault (.release k) = .ok h' ∧
      h'.Reads (update st k (st k).release) tight ∧ h'.chain = h.chain ∧
      ∀ b, b ∈ h'.live ↔ b ∈ h.live ∧ b ∉ h.chain k := by
  have hnodup : (h.chain k).Nodup := by
    cases hst : st k with
    | null => simp [hr.null k hst]
    | freed => exact absurd hst hk
    | live n => exact hr.nodup k n hst
  obtain ⟨live', hfree, hlive⟩ := freeAll_ok fault hnodup (hr.freed_iff.mp hk)
  refine ⟨{ h with live := live' }, by rw [exec, hfree]; rfl, ?_, rfl, hlive⟩
  have hsub : ∀ b ∈ live', b ∈ h.live := fun b hb => ((hlive b).mp hb).1
  have hother : ∀ j, j ≠ k → ∀ m, st j = .live m → ∀ b ∈ h.chain j, b ∈ live' := by
    intro j hj m hm b hb
    refine (hlive b).mpr ⟨hr.live j m hm b hb, fun hbk => ?_⟩
    cases hst : st k with
    | null => simp [hr.null k hst] at hbk
    | freed => exact hk hst
    | live n => exact hr.apart k j n m hst hm hj.symm b hbk hb
  have hstay : ∀ j m, update st k (st k).release j = .live m → j ≠ k ∧ st j = .live m := by
    intro j m hm
    by_cases hj : j = k
    · subst hj
      rw [update_self] at hm
      cases hst : st j <;> simp [hst, Pointer.release] at hm
    · exact ⟨hj, by rwa [update_of_ne hj] at hm⟩
  constructor
  case live_lt => exact fun b hb => hr.live_lt b (hsub b hb)
  case chain_lt => exact hr.chain_lt
  case null =>
    intro j hnull
    by_cases hj : j = k
    · subst hj
      rw [update_self] at hnull
      cases hst : st j with
      | null => exact hr.null j hst
      | freed => exact absurd hst hk
      | live n => simp [hst, Pointer.release] at hnull
    · rw [update_of_ne hj] at hnull
      exact hr.null j hnull
  case freed =>
    intro j hfreed
    by_cases hj : j = k
    · subst hj
      rw [update_self] at hfreed
      cases hst : st j with
      | null => simp [hst, Pointer.release] at hfreed
      | freed => exact absurd hst hk
      | live n =>
          refine ⟨List.ne_nil_of_length_pos ?_, fun b hb hb' => ((hlive b).mp hb').2 hb⟩
          rw [hr.length j n hst]
          exact Nat.succ_pos n
    · rw [update_of_ne hj] at hfreed
      exact ⟨(hr.freed j hfreed).1, fun b hb hb' => (hr.freed j hfreed).2 b hb (hsub b hb')⟩
  case length => exact fun j m hm => hr.length j m (hstay j m hm).2
  case nodup => exact fun j m hm => hr.nodup j m (hstay j m hm).2
  case live => exact fun j m hm => hother j (hstay j m hm).1 m (hstay j m hm).2
  case apart => exact fun i j m m' hi hj => hr.apart i j m m' (hstay i m hi).2 (hstay j m' hj).2
  case held => exact fun ht b hb => hr.held ht b (hsub b hb)

theorem Reads.release_freed (hr : h.Reads st tight) (hk : st k = .freed) :
    h.exec fault (.release k) = .error fault := by
  obtain ⟨hne, hdead⟩ := hr.freed k hk
  obtain ⟨b, hb⟩ := List.exists_mem_of_ne_nil _ hne
  rw [exec, freeAll_dead hb (hdead b hb)]
  rfl

/-- When several chains have been released, the blocks of the others are left. -/
theorem Reads.release_all (hr : h.Reads st tight) {ks : List κ} (hd : ks.Nodup)
    (hrun : h.run fault (ks.map .release) = .ok h') (b : ℕ) :
    b ∈ h'.live ↔ b ∈ h.live ∧ ∀ k ∈ ks, b ∉ h.chain k := by
  induction ks generalizing h st with
  | nil =>
      cases hrun
      simp
  | cons k ks ih =>
      obtain ⟨-, hd⟩ := List.nodup_cons.mp hd
      rw [List.map_cons, run] at hrun
      by_cases hfreed : st k = .freed
      · rw [hr.release_freed hfreed] at hrun
        cases hrun
      · obtain ⟨h₁, hexec, hr₁, hchain, hlive⟩ := hr.release fault hfreed
        rw [hexec] at hrun
        rw [ih hr₁ hd hrun, hlive b, hchain, List.forall_mem_cons, and_assoc]

/-- In every heap that reads as `st`, the calls of a computation that returns go through, and
the heap then reads as its result says. -/
def Tracks (fault : ε) (tight : Prop) (st : κ → Pointer) (x : Output (HeapCall κ) ε α)
    (view : α → κ → Pointer) : Prop :=
  ∀ h : Heap κ, h.Reads st tight → ∀ a, x.result = .ok a →
    ∃ h', h.run fault x.sent = .ok h' ∧ h'.Reads (view a) tight

variable {x : Output (HeapCall κ) ε α} {view : α → κ → Pointer}

theorem tracks_lift {y : Except ε α} (hy : ∀ a, y = .ok a → view a = st) :
    Tracks fault tight st (Output.lift y) view := by
  intro h hr a ha
  refine ⟨h, rfl, ?_⟩
  rw [hy a ha]
  exact hr

theorem tracks_pure {a : α} (ha : view a = st) :
    Tracks fault tight st (pure a : Output (HeapCall κ) ε α) view := by
  apply tracks_lift (y := .ok a)
  rintro b ⟨⟩
  exact ha

theorem Tracks.bind (hx : Tracks fault tight st x view) {f : α → Output (HeapCall κ) ε β}
    {view' : β → κ → Pointer}
    (hf : ∀ a, x.result = .ok a → Tracks fault tight (view a) (f a) view') :
    Tracks fault tight st (x >>= f) view' := by
  intro h hr b hb
  cases ha : x.result with
  | error e =>
      rw [Output.bind_of_error ha] at hb
      cases hb
  | ok a =>
      rw [Output.bind_of_ok ha] at hb ⊢
      obtain ⟨h₁, hrun, hr₁⟩ := hx h hr a ha
      obtain ⟨h₂, hrest, hr₂⟩ := hf a ha h₁ hr₁ b hb
      exact ⟨h₂, by rw [run_append, hrun]; exact hrest, hr₂⟩

end Heap

end DnsRelay.Lib
