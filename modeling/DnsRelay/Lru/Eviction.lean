import DnsRelay.Lru.Labels

/-!
# Eviction

`pop_back` marks the tail invalid before it looks the tail's label up in the hash table,
so the walk over the bucket exits at the tail's own node. The only evictions that return
are those of a record whose node hangs in the bucket of another label, and they leave
that node behind. Either way no insertion into a full cache does what it is meant to do.
-/

namespace DnsRelay.Lru

open DnsRelay.Hash DnsRelay.Lib.LinkedList DnsRelay.Lib.Machine Function

variable {c c' : Cache} {l : List ℤ} {s t x : ℤ} {label : Label} {now : ℤ}

section Nodes

/-- No two used slots of one label have nodes in the bucket of that label. -/
def Unambiguous (c : Cache) (l : List ℤ) : Prop :=
  ∀ label, ∀ x ∈ l, ∀ y ∈ l, labelAt c x = some label → labelAt c y = some label →
    some x ∈ c.labelHash.chain (c.labelHash.pos label) →
    some y ∈ c.labelHash.chain (c.labelHash.pos label) → x = y

/-- Every used slot has a node, in whatever bucket. -/
def Anchored (c : Cache) (l : List ℤ) : Prop := ∀ s ∈ l, ∃ b, some s ∈ c.labelHash.chain b

/-- What an eviction does to the hash table: at most one node disappears, and it belongs
to another used slot of the same label. -/
theorem Evicted.table_cases (h : Inv c (l ++ [t])) (he : Evicted c c' t) :
    ∃ label, labelAt c t = some label ∧ c'.labelHash.pos = c.labelHash.pos ∧
    ((some t ∉ c.labelHash.chain (c.labelHash.pos label) ∧
        c'.labelHash.chain = c.labelHash.chain) ∨
      ∃ x front back, x ∈ l ∧ labelAt c x = some label ∧
        c.labelHash.chain (c.labelHash.pos label) = front ++ some x :: back ∧
        c'.labelHash.chain =
          update c.labelHash.chain (c.labelHash.pos label) (front ++ back)) := by
  obtain ⟨d, ds, found, hd, hreset⟩ := he.reset
  have hlabel : labelAt c t = some d.label := labelAt_eq_some.mpr ⟨d, ds, hd, rfl⟩
  refine ⟨d.label, hlabel, (resetHashNode_frame hreset).2.2, ?_⟩
  rcases resetHashNode_cases hreset with ⟨-, htable, hall⟩ |
    ⟨-, front, r, back, hchain, htable, hr, -⟩
  · refine .inl ⟨fun hmem => ?_, by rw [htable]⟩
    obtain ⟨s, -, -, hs, hv, -⟩ := compare_eq_false.mp (hall _ hmem)
    cases hs
    simp at hv
  · obtain ⟨x, d', ds', rfl, hv, hd', hl'⟩ := compare_eq_true.mp hr
    have hxt : x ≠ t := by
      rintro rfl
      simp at hv
    have hvx : c.records.valid x = true := by simpa [hxt] using hv
    have hmem : some x ∈ c.labelHash.chain (c.labelHash.pos d.label) := by simp [hchain]
    obtain ⟨x', hx', h₁, h₂⟩ := h.nodes _ _ hmem
    cases hx'
    have hx : x ∈ l ++ [t] := (h.valid_iff x h₁ h₂).mp hvx
    refine .inr ⟨x, front, back, ?_, labelAt_eq_some.mpr ⟨d', ds', hd', hl'⟩, hchain, ?_⟩
    · simpa [hxt] using hx
    · rw [htable, Hashtable.setChain_chain]

theorem Evicted.labelAt_eq (h : Inv c (l ++ [t])) (he : Evicted c c' t) (hx : x ∈ l) :
    labelAt c' x = labelAt c x := by
  have hxt : x ≠ t := ne_of_mem_of_not_mem hx h.tail_notMem
  refine labelAt_congr ?_
  rw [he.data, update_of_ne hxt]

theorem Evicted.chain_subset (he : Evicted c c' t) (b : ℕ) :
    c'.labelHash.chain b ⊆ c.labelHash.chain b := by
  obtain ⟨d, ds, found, -, hreset⟩ := he.reset
  exact ((resetHashNode_frame hreset).1 b).subset

/-- An eviction returns only for a slot without a node in its own bucket. -/
theorem Evicted.not_placed (h : Inv c (l ++ [t])) (hu : Unambiguous c (l ++ [t]))
    (he : Evicted c c' t) : ¬ Placed c t := by
  intro hp
  obtain ⟨label, hlabel, -, ⟨hnot, -⟩ | ⟨x, front, back, hx, hlx, hchain, -⟩⟩ := he.table_cases h
  · exact hnot (hp label hlabel)
  · have hxt : x = t := hu label x (by simp [hx]) t (by simp) hlx hlabel (by simp [hchain])
      (hp label hlabel)
    exact h.tail_notMem (hxt ▸ hx)

theorem Evicted.unambiguous (h : Inv c (l ++ [t])) (hu : Unambiguous c (l ++ [t]))
    (he : Evicted c c' t) : Unambiguous c' l := by
  obtain ⟨-, -, hpos, -⟩ := he.table_cases h
  intro label x hx y hy hlx hly hnx hny
  rw [he.labelAt_eq h hx] at hlx
  rw [he.labelAt_eq h hy] at hly
  rw [hpos] at hnx hny
  exact hu label x (by simp [hx]) y (by simp [hy]) hlx hly
    (he.chain_subset _ hnx) (he.chain_subset _ hny)

/-- Only a slot of the evicted label can lose its node. -/
theorem Evicted.placed (h : Inv c (l ++ [t])) (he : Evicted c c' t) (hx : x ∈ l)
    (hp : Placed c x) (hne : labelAt c x ≠ labelAt c t) : Placed c' x := by
  intro label hlabel
  rw [he.labelAt_eq h hx] at hlabel
  have hmem := hp label hlabel
  obtain ⟨label', hlt, hpos, ⟨-, hchain⟩ | ⟨y, front, back, -, hly, hcy, hchain⟩⟩ :=
    he.table_cases h
  · rwa [hpos, hchain]
  · have hyx : y ≠ x := by
      rintro rfl
      exact hne (hly.trans hlt.symm)
    rw [hpos, hchain]
    by_cases hb : c.labelHash.pos label = c.labelHash.pos label'
    · rw [hb, hcy] at hmem
      rw [hb, update_self]
      simp only [List.mem_append, List.mem_cons, Option.some.injEq, hyx.symm, false_or] at hmem
      exact List.mem_append.mpr hmem
    · rwa [update_of_ne hb]

/-- A node of an invalid slot is never taken out. -/
theorem Evicted.stale_node (h : Inv c (l ++ [t])) (he : Evicted c c' t) {b : ℕ}
    (hv : x = t ∨ c.records.valid x = false) (hx : some x ∈ c.labelHash.chain b) :
    c'.records.valid x = false ∧ some x ∈ c'.labelHash.chain b := by
  refine ⟨?_, ?_⟩
  · rw [he.valid]
    rcases hv with rfl | hv
    · simp
    · by_cases hxt : x = t
      · simp [hxt]
      · simp [hxt, hv]
  · obtain ⟨label, -, -, ⟨-, hchain⟩ | ⟨y, front, back, hy, -, hcy, hchain⟩⟩ := he.table_cases h
    · rwa [hchain]
    · have hyx : y ≠ x := by
        rintro rfl
        rcases hv with rfl | hv
        · exact h.tail_notMem hy
        · simp [h.valid_of_mem (s := y) (by simp [hy])] at hv
      rw [hchain]
      by_cases hb : b = c.labelHash.pos label
      · subst hb
        rw [hcy] at hx
        rw [update_self]
        simp only [List.mem_append, List.mem_cons, Option.some.injEq, hyx.symm, false_or] at hx
        exact List.mem_append.mpr hx
      · rwa [update_of_ne hb]

/-- A node of a slot that has been released. -/
structure DeadNode (c : Cache) (x : ℤ) (b : ℕ) : Prop where
  invalid : c.records.valid x = false
  dead : labelAt c x = none
  node : some x ∈ c.labelHash.chain b

theorem Evicted.deadNode_self (h : Inv c (l ++ [t])) (he : Evicted c c' t) {b : ℕ}
    (ht : some t ∈ c.labelHash.chain b) : DeadNode c' t b := by
  obtain ⟨hv, hnode⟩ := he.stale_node h (.inl rfl) ht
  exact ⟨hv, by simp [labelAt, he.data], hnode⟩

theorem Evicted.deadNode (h : Inv c (l ++ [t])) (he : Evicted c c' t) {b : ℕ}
    (hx : DeadNode c x b) : DeadNode c' x b := by
  obtain ⟨hv, hnode⟩ := he.stale_node h (.inr hx.invalid) hx.node
  have hxt : x ≠ t := by
    rintro rfl
    have hinvalid := hx.invalid
    simp [h.valid_of_mem (s := x) (by simp)] at hinvalid
  refine ⟨hv, ?_, hnode⟩
  rw [labelAt_congr (c := c) (by rw [he.data, update_of_ne hxt])]
  exact hx.dead

end Nodes

section Rounds

variable {n : ℕ}

/-- A returning round on a non-empty list evicts the tail and continues. -/
theorem popBackLoop_concat (h : Inv c (l ++ [t])) (hrun : popBackLoop (n + 1) c = .ok c') :
    ∃ c₁, Evicted c c₁ t ∧ Inv c₁ l ∧ popBackLoop n c₁ = .ok c' := by
  obtain ⟨c₁, hs, hrun⟩ := bind_eq_ok.mp hrun
  obtain ⟨he, h₁⟩ := popBackStep_ok h hs
  exact ⟨c₁, he.toEvicted, h₁, hrun⟩

/-- The record that is evicted is the one whose node is not in place. -/
theorem Evicted.eq_of_placed {c₁ : Cache} (he : Evicted c c₁ t) (h : Inv c (l ++ [t]))
    (hu : Unambiguous c (l ++ [t])) (hp : ∀ s ∈ l ++ [t], s ≠ x → Placed c s) : t = x := by
  by_contra hne
  exact he.not_placed h hu (hp t (by simp) hne)

/-- No record of a cache whose nodes are all in place can be evicted. -/
theorem popBackLoop_placed (h : Inv c l) (hu : Unambiguous c l) (hp : ∀ s ∈ l, Placed c s)
    (hrun : popBackLoop (n + 1) c = .ok c') : l = [] := by
  rcases l.eq_nil_or_concat' with rfl | ⟨l, t, rfl⟩
  · rfl
  · obtain ⟨c₁, he, -, -⟩ := popBackLoop_concat h hrun
    exact absurd (hp t (by simp)) (he.not_placed h hu)

/-- When a single slot has lost its node and no other slot has its label, that slot is
the only one that can be evicted. -/
theorem popBackLoop_one (h : Inv c l) (hu : Unambiguous c l)
    (hp : ∀ s ∈ l, s ≠ x → Placed c s ∧ labelAt c s ≠ labelAt c x)
    (hrun : popBackLoop (n + 2) c = .ok c') : l.length ≤ 1 := by
  rcases l.eq_nil_or_concat' with rfl | ⟨l, t, rfl⟩
  · simp
  · obtain ⟨c₁, he, h₁, hrun⟩ := popBackLoop_concat h hrun
    obtain rfl : t = x := he.eq_of_placed h hu fun s hs hne => (hp s hs hne).1
    have hall : ∀ s ∈ l, Placed c₁ s := by
      intro s hs
      have hst : s ≠ t := ne_of_mem_of_not_mem hs h.tail_notMem
      obtain ⟨hps, hls⟩ := hp s (by simp [hs]) hst
      exact he.placed h hs hps hls
    have hnil := popBackLoop_placed h₁ (he.unambiguous h hu) hall hrun
    simp [hnil]

/-- When a single slot hangs in a foreign bucket, evicting it can cost one other slot its
node, so at most two evictions return. -/
theorem popBackLoop_two (h : Inv c l) (hu : Unambiguous c l)
    (hp : ∀ s ∈ l, s ≠ x → Placed c s) (hrun : popBackLoop (n + 3) c = .ok c') :
    l.length ≤ 2 := by
  rcases l.eq_nil_or_concat' with rfl | ⟨l, t, rfl⟩
  · simp
  · obtain ⟨c₁, he, h₁, hrun⟩ := popBackLoop_concat h hrun
    obtain rfl : t = x := he.eq_of_placed h hu hp
    have hps : ∀ s ∈ l, Placed c s := fun s hs =>
      hp s (by simp [hs]) (ne_of_mem_of_not_mem hs h.tail_notMem)
    have hu₁ := he.unambiguous h hu
    by_cases hsame : ∃ y ∈ l, labelAt c y = labelAt c t
    · obtain ⟨y, hy, hly⟩ := hsame
      obtain ⟨label, hlt, -⟩ := he.table_cases h
      have hone : ∀ s ∈ l, s ≠ y → Placed c₁ s ∧ labelAt c₁ s ≠ labelAt c₁ y := by
        intro s hs hsy
        have hne : labelAt c s ≠ labelAt c t := by
          intro hls
          refine hsy (hu label s (by simp [hs]) y (by simp [hy]) (hls.trans hlt)
            (hly.trans hlt) (hps s hs label (hls.trans hlt)) (hps y hy label (hly.trans hlt)))
        refine ⟨he.placed h hs (hps s hs) hne, ?_⟩
        rw [he.labelAt_eq h hs, he.labelAt_eq h hy, hly]
        exact hne
      have hlen := popBackLoop_one h₁ hu₁ hone hrun
      simpa using hlen
    · have hall : ∀ s ∈ l, Placed c₁ s := fun s hs =>
        he.placed h hs (hps s hs) fun hls => hsame ⟨s, hs, hls⟩
      have hnil := popBackLoop_placed h₁ hu₁ hall hrun
      simp [hnil]

end Rounds

section Sound

/-- The data of the tail cannot be read. -/
def DeadTail (c : Cache) (l : List ℤ) : Prop := ∃ t ∈ l.getLast?, labelAt c t = none

/-- Free slots hold no data, except the one that the removal of a last record leaves on
top of the stack. -/
def FreeDead (c : Cache) (l : List ℤ) : Prop :=
  ∀ i ≤ c.stackTop, labelAt c (c.stack i) ≠ none → l = [] ∧ i = c.stackTop

/-- All records but one are where lookups search for them. -/
structure Clean (c : Cache) (l : List ℤ) : Prop where
  free : FreeDead c l
  placed : ∃ m, ∀ s ∈ l, s ≠ m → Placed c s
  unambiguous : Unambiguous c l

/-- What holds of the hash nodes in every state that returning calls lead to. -/
structure Sound (c : Cache) (l : List ℤ) : Prop where
  anchored : Anchored c l
  mode : DeadTail c l ∨ Clean c l

theorem sound_nil (h : FreeDead c []) : Sound c [] :=
  ⟨by simp [Anchored], .inr ⟨h, ⟨0, by simp⟩, by simp [Unambiguous]⟩⟩

theorem FreeDead.evicted (h : Inv c (l ++ [t])) (hf : FreeDead c (l ++ [t]))
    (he : Evicted c c' t) : FreeDead c' l := by
  intro i hi hlive
  rw [he.stackTop] at hi
  rw [he.stack] at hlive
  have hdead : labelAt c' t = none := by simp [labelAt, he.data]
  by_cases htop : i = c.stackTop + 1
  · subst htop
    simp [hdead] at hlive
  · have hle : i ≤ c.stackTop := by omega
    rw [update_of_ne htop] at hlive
    have hne : c.stack i ≠ t := by
      intro heq
      exact h.used_not_free (s := t) (by simp) (heq ▸ stack_mem_stackSlots hle)
    have hsame : labelAt c' (c.stack i) = labelAt c (c.stack i) :=
      labelAt_congr (by rw [he.data, update_of_ne hne])
    rw [hsame] at hlive
    exact absurd (hf i hle hlive).1 (by simp)

/-- The label of a dead tail cannot be read, so nothing can be evicted. -/
theorem DeadTail.not_pops {n : ℕ} (hd : DeadTail c l) (h : Inv c l) :
    popBackLoop (n + 1) c ≠ .ok c' := by
  intro hrun
  obtain ⟨t, ht, hdead⟩ := hd
  obtain ⟨a, rfl⟩ := List.getLast?_eq_some_iff.mp ht
  obtain ⟨c₁, he, -, -⟩ := popBackLoop_concat h hrun
  obtain ⟨label, hlive, -⟩ := he.table_cases h
  simp [hdead] at hlive

/-- A `pop_back` that returns has emptied the list. -/
theorem Sound.popBack (h : Inv c l) (hs : Sound c l) (hrun : popBack c = .ok c') :
    Inv c' [] ∧ Sound c' [] := by
  rcases hs.mode with hd | hc
  · exact absurd hrun (hd.not_pops h)
  · obtain ⟨m, hm⟩ := hc.placed
    have hlen : l.length ≤ 2 := popBackLoop_two h hc.unambiguous hm hrun
    obtain ⟨h', hf⟩ := popBack_rule (P := FreeDead)
      (fun _ _ _ _ h hf he _ => hf.evicted h he.toEvicted) h hc.free hrun
    have hnil : l.take (l.length - lruPopItem) = [] := by
      have : l.length - lruPopItem = 0 := by
        simp only [lruPopItem]
        omega
      simp [this]
    rw [hnil] at h' hf
    exact ⟨h', sound_nil hf⟩

theorem Sound.sizeLoop {n : ℕ} (h : Inv c l) (hs : Sound c l) (hrun : sizeLoop n c = .ok c') :
    ∃ l', Inv c' l' ∧ Sound c' l' := by
  induction n generalizing c l with
  | zero => cases hrun
  | succ n ih =>
      simp only [Lru.sizeLoop] at hrun
      split at hrun
      · obtain ⟨c₁, hp, hrun⟩ := bind_eq_ok.mp hrun
        obtain ⟨h₁, hs₁⟩ := hs.popBack h hp
        exact ih h₁ hs₁ hrun
      · cases hrun
        exact ⟨l, h, hs⟩

theorem Sound.makeRoom (h : Inv c l) (hs : Sound c l) (hrun : makeRoom c = .ok c') :
    ∃ l', Inv c' l' ∧ Sound c' l' := by
  obtain ⟨c₁, hp, hrun⟩ := bind_eq_ok.mp hrun
  split at hp
  · obtain ⟨h₁, hs₁⟩ := hs.popBack h hp
    exact hs₁.sizeLoop h₁ hrun
  · cases hp
    exact hs.sizeLoop h hrun

private theorem getLast?_cons_erase (hs : s ≠ t) (ht : t ∈ l.getLast?) :
    (s :: l.erase s).getLast? = some t := by
  obtain ⟨a, rfl⟩ := List.getLast?_eq_some_iff.mp ht
  by_cases hsa : s ∈ a
  · rw [List.erase_append_left _ hsa]
    simp [List.getLast?_cons]
  · rw [List.erase_append_right _ hsa, List.erase_of_not_mem (by simpa using hs)]
    simp [List.getLast?_cons]

theorem DeadTail.reorder (hd : DeadTail c l) (hlabels : ∀ x label, labelAt c' x = some label →
    labelAt c x = some label) (hlive : labelAt c s ≠ none) : DeadTail c' (s :: l.erase s) := by
  obtain ⟨t, ht, hdead⟩ := hd
  have hst : s ≠ t := by
    rintro rfl
    exact hlive hdead
  refine ⟨t, getLast?_cons_erase hst ht, ?_⟩
  by_contra hne
  obtain ⟨label, hl⟩ := Option.ne_none_iff_exists'.mp hne
  simp [hlabels t label hl] at hdead

/-- Reordering the list, and forgetting or keeping the labels of its slots. -/
theorem Sound.reorder (hs : Sound c l) (hlabels : ∀ x label, labelAt c' x = some label →
      labelAt c x = some label)
    (htable : c'.labelHash = c.labelHash) (hstack : c'.stack = c.stack)
    (htop : c'.stackTop = c.stackTop) (hmem : s ∈ l) (hlive : labelAt c s ≠ none) :
    Sound c' (s :: l.erase s) := by
  have hiff : ∀ x, x ∈ s :: l.erase s ↔ x ∈ l := fun x =>
    ((List.perm_cons_erase hmem).mem_iff).symm
  refine ⟨fun x hx => ?_, ?_⟩
  · rw [htable]
    exact hs.anchored x ((hiff x).mp hx)
  · rcases hs.mode with hd | hc
    · exact .inl (hd.reorder hlabels hlive)
    · right
      obtain ⟨m, hm⟩ := hc.placed
      refine ⟨fun i hi hne => ?_, ⟨m, fun x hx hxm label hl => ?_⟩, fun label x hx y hy => ?_⟩
      · rw [htop] at hi
        rw [hstack] at hne
        obtain ⟨label, hl⟩ := Option.ne_none_iff_exists'.mp hne
        have hnil := (hc.free i hi (by simp [hlabels _ label hl])).1
        simp [hnil] at hmem
      · rw [htable]
        exact hm x ((hiff x).mp hx) hxm label (hlabels x label hl)
      · intro hlx hly
        rw [htable]
        exact hc.unambiguous label x ((hiff x).mp hx) y ((hiff y).mp hy)
          (hlabels x label hlx) (hlabels y label hly)

end Sound

section Insert

variable {op : CacheOp} {z : ℕ}

theorem Clean.insert_free (hc : Clean c l) (hins : Inserted c c' op.label s)
    (h' : Inv c' (s :: l)) : FreeDead (storeIn c' s op z) (s :: l) := by
  intro i hi hlive
  change i ≤ c'.stackTop at hi
  change labelAt _ (c'.stack i) ≠ none at hlive
  have hfree : c'.stack i ≠ s := by
    intro heq
    exact h'.used_not_free (s := s) (by simp) (heq ▸ stack_mem_stackSlots hi)
  rw [hins.labelAt_other hfree, hins.stack.1] at hlive
  rw [hins.stack.2] at hi
  have htop := hins.top.1
  have := (hc.free i (by omega) hlive).2
  omega

/-- The slot on top of the free stack holds data only when the list is empty. -/
theorem Clean.insert_empty (hc : Clean c l) (hins : Inserted c c' op.label s)
    (hlive : labelAt c s = some label) : l = [] :=
  (hc.free c.stackTop le_rfl (by rw [← hins.top.2, hlive]; simp)).1

theorem Clean.insert_placed (hc : Clean c l) (hop : op.Labelled)
    (hins : Inserted c c' op.label s) (hne : ∀ x ∈ l, x ≠ s) :
    ∃ m, ∀ x ∈ s :: l, x ≠ m → Placed (storeIn c' s op z) x := by
  by_cases hl : l = []
  · exact ⟨s, by simp [hl]⟩
  · obtain ⟨m, hm⟩ := hc.placed
    refine ⟨m, fun x hx hxm label hlx => ?_⟩
    rw [hins.pos_eq]
    rcases List.mem_cons.mp hx with rfl | hxl
    · rcases hins.labelAt_self hop hlx with rfl | hlive
      · exact hins.self_mem_chain
      · exact absurd (hc.insert_empty hins hlive) hl
    · rw [hins.labelAt_other (hne x hxl)] at hlx
      exact (hins.mem_chain_iff (hne x hxl)).mpr (hm x hxl hxm label hlx)

/-- The lookup before an insertion has seen that no node of the bucket has the label. -/
theorem Clean.insert_fresh (h : Inv c l) (hc : Clean c l) (hop : op.Labelled)
    (hmiss : get c op.label = .ok none) (hins : Inserted c c' op.label s) (hx : x ∈ l)
    (hls : labelAt (storeIn c' s op z) s = some label) (hlx : labelAt c x = some label) :
    some x ∉ c.labelHash.chain (c.labelHash.pos label) := by
  intro hmem
  rcases hins.labelAt_self hop hls with rfl | hlive
  · obtain ⟨y, d, ds, hy, -, hd, hne⟩ := compare_eq_false.mp (get_none h hmiss _ hmem)
    cases hy
    exact hne (Option.some.inj ((labelAt_eq_some.mpr ⟨d, ds, hd, rfl⟩).symm.trans hlx))
  · simp [hc.insert_empty hins hlive] at hx

theorem Clean.insert_unambiguous (h : Inv c l) (hc : Clean c l) (hop : op.Labelled)
    (hmiss : get c op.label = .ok none) (hins : Inserted c c' op.label s)
    (hne : ∀ x ∈ l, x ≠ s) : Unambiguous (storeIn c' s op z) (s :: l) := by
  intro label x hx y hy hlx hly hnx hny
  rw [hins.pos_eq] at hnx hny
  rcases List.mem_cons.mp hx with hxs | hxl <;> rcases List.mem_cons.mp hy with hys | hyl
  · exact hxs.trans hys.symm
  · subst hxs
    rw [hins.labelAt_other (hne y hyl)] at hly
    rw [hins.mem_chain_iff (hne y hyl)] at hny
    exact absurd hny (hc.insert_fresh h hop hmiss hins hyl hlx hly)
  · subst hys
    rw [hins.labelAt_other (hne x hxl)] at hlx
    rw [hins.mem_chain_iff (hne x hxl)] at hnx
    exact absurd hnx (hc.insert_fresh h hop hmiss hins hxl hly hlx)
  · rw [hins.labelAt_other (hne x hxl)] at hlx
    rw [hins.labelAt_other (hne y hyl)] at hly
    rw [hins.mem_chain_iff (hne x hxl)] at hnx
    rw [hins.mem_chain_iff (hne y hyl)] at hny
    exact hc.unambiguous label x hxl y hyl hlx hly hnx hny

theorem DeadTail.insert (hd : DeadTail c l) (hins : Inserted c c' op.label s)
    (hne : ∀ x ∈ l, x ≠ s) : DeadTail (storeIn c' s op z) (s :: l) := by
  obtain ⟨t, ht, hdead⟩ := hd
  have htl : t ∈ l := List.mem_of_getLast? ht
  refine ⟨t, ?_, (hins.labelAt_other (hne t htl)).trans hdead⟩
  obtain ⟨a, rfl⟩ := List.getLast?_eq_some_iff.mp ht
  simp [List.getLast?_cons]

/-- A new record is hung into the bucket of its label, behind nodes of other labels. -/
theorem Sound.insert (h : Inv c l) (hs : Sound c l) (hop : op.Labelled)
    (hmiss : get c op.label = .ok none) (hins : Inserted c c' op.label s)
    (h' : Inv c' (s :: l)) : Sound (storeIn c' s op z) (s :: l) := by
  have hne : ∀ x ∈ l, x ≠ s := fun x hx =>
    ne_of_mem_of_not_mem hx (List.nodup_cons.mp h'.used_nodup).1
  refine ⟨?_, ?_⟩
  · intro x hx
    rcases List.mem_cons.mp hx with rfl | hx
    · exact ⟨_, hins.self_mem_chain⟩
    · obtain ⟨b, hb⟩ := hs.anchored x hx
      exact ⟨b, (hins.mem_chain_iff (hne x hx)).mpr hb⟩
  · rcases hs.mode with hd | hc
    · exact .inl (hd.insert hins hne)
    · exact .inr ⟨hc.insert_free hins h', hc.insert_placed hop hins hne,
        hc.insert_unambiguous h hop hmiss hins hne⟩

end Insert

section Runs

theorem Removed.labelAt_end (hrem : Removed c c' l s) :
    labelAt c' (endOf (l.erase s)) = none := by
  unfold labelAt
  rw [hrem.data, update_self]
  cases c.records.data (endOf (l.erase s)) <;> simp [DataPtr.isLive]

theorem Removed.labelAt_other (hrem : Removed c c' l s) (hx : x ≠ endOf (l.erase s)) :
    labelAt c' x = labelAt c x :=
  labelAt_congr (by rw [hrem.data, update_of_ne hx])

/-- A removal takes the node of the removed record out of its bucket. -/
theorem Removed.chain_cases (h : Inv c l) (hget : get c label = .ok (some s))
    (hrem : Removed c c' l s) :
    ∃ front back, c.labelHash.chain (c.labelHash.pos label) = front ++ some s :: back ∧
      c'.labelHash.chain =
        update c.labelHash.chain (c.labelHash.pos label) (front ++ back) := by
  obtain ⟨hsl, d, ds, front, back, hd, rfl, hchain, hfront⟩ := get_some h hget
  obtain ⟨d', ds', found, hd', hreset⟩ := hrem.reset
  obtain ⟨rfl, rfl⟩ : d = d' ∧ ds = ds' := by simpa [hd] using hd'
  have hself : compareRecordWithLabel c.records (some s) d.label = .ok true :=
    compare_eq_true.mpr ⟨s, d, ds, rfl, h.valid_of_mem hsl, hd, rfl⟩
  rw [resetHashNode_of_hit hchain hself hfront] at hreset
  have htable := (Prod.mk.inj (Except.ok.inj hreset)).1
  exact ⟨front, back, hchain, by rw [← htable, Hashtable.setChain_chain]⟩

theorem Anchored.remove (h : Inv c l) (ha : Anchored c l) (hget : get c label = .ok (some s))
    (hrem : Removed c c' l s) : Anchored c' (l.erase s) := by
  obtain ⟨front, back, hchain, hchain'⟩ := hrem.chain_cases h hget
  intro x hx
  obtain ⟨b, hb⟩ := ha x (List.mem_of_mem_erase hx)
  have hxs : x ≠ s := fun heq => h.used_nodup.not_mem_erase (heq ▸ hx)
  refine ⟨b, ?_⟩
  rw [hchain']
  by_cases hbp : b = c.labelHash.pos label
  · subst hbp
    rw [hchain] at hb
    rw [update_self]
    simpa [hxs] using hb
  · rwa [update_of_ne hbp]

/-- A removal leaves a dead tail, unless it was the last record. -/
theorem Removed.deadTail (hrem : Removed c c' l s) (hne : l.erase s ≠ []) :
    DeadTail c' (l.erase s) := by
  obtain ⟨a, t, hconcat⟩ := (l.erase s).eq_nil_or_concat'.resolve_left hne
  have hend : endOf (l.erase s) = t := by
    rw [hconcat]
    simp
  exact ⟨t, by simp [hconcat], hend ▸ hrem.labelAt_end⟩

/-- A removal keeps the nodes of the other records. -/
theorem Sound.remove (h : Inv c l) (hs : Sound c l) (hget : get c label = .ok (some s))
    (hrem : Removed c c' l s) : Sound c' (l.erase s) := by
  refine ⟨hs.anchored.remove h hget hrem, ?_⟩
  obtain ⟨hsl, d, ds, -, -, hd, -⟩ := get_some h hget
  by_cases hnil : l.erase s = []
  · rw [hnil]
    refine (sound_nil fun i hi hlive => ⟨rfl, ?_⟩).mode
    by_contra htop
    rw [hrem.stackTop] at hi htop
    rw [hrem.stack, update_of_ne htop] at hlive
    have hend : c.stack i ≠ endOf (l.erase s) := by
      intro heq
      exact hlive (heq ▸ hrem.labelAt_end)
    rw [hrem.labelAt_other hend] at hlive
    rcases hs.mode with ⟨t, ht, hdead⟩ | hc
    · have hts : t = s := by
        by_contra hne
        have := (List.mem_erase_of_ne hne).mpr (List.mem_of_getLast? ht)
        simp [hnil] at this
      subst hts
      simp [labelAt, hd] at hdead
    · have hempty := (hc.free i (by omega) hlive).1
      simp [hempty] at hsl
  · exact .inl (hrem.deadTail hnil)

theorem exec_sound {op : CacheOp} {r : CacheResult} (h : Inv c l) (hs : Sound c l)
    (hlab : op.Labelled) (hop : op.exec c = .ok (c', r)) : ∃ l', Inv c' l' ∧ Sound c' l' := by
  cases exec_outcome h hop with
  | stored c₀ c₁ s hset hroom hplace heq =>
      subst heq
      obtain ⟨l₀, h₀, hs₀⟩ := hs.makeRoom h hroom
      rcases placeFront_cases h₀ hplace with ⟨hget, n, p, e, rfl, h₁⟩ | ⟨hmiss, -, hins, h₁⟩
      · obtain ⟨hsl, d, ds, -, -, hd, hdl, -⟩ := get_some h₀ hget
        have hlive : labelAt c₀ s = some op.label := labelAt_eq_some.mpr ⟨d, ds, hd, hdl⟩
        refine ⟨_, h₁.withRecord _ _, hs₀.reorder ?_ rfl rfl rfl hsl (by simp [hlive])⟩
        exact fun x label hl => labelAt_of_hit (c := relink c₀ n p s e) hlab hlive hl
      · exact ⟨_, h₁.withRecord _ _, hs₀.insert h₀ hlab hmiss hins h₁⟩
  | missed heq =>
      subst heq
      exact ⟨l, h, hs⟩
  | removed hget hsl hrem h₁ => exact ⟨_, h₁, hs.remove h hget hrem⟩
  | moved hget hsl hd heq h₁ =>
      subst heq
      exact ⟨_, h₁, hs.reorder (fun _ _ hl => hl) rfl rfl rfl hsl (by simp [labelAt, hd])⟩

theorem runOps_sound {recordLength maxSize : ℤ} {scaled : ℕ} {ops : List CacheOp}
    {results : List CacheResult} (hlab : ∀ op ∈ ops, op.Labelled)
    (h : runOps (initCache recordLength maxSize scaled) ops = .ok (c, results)) :
    ∃ l, Inv c l ∧ Sound c l := by
  have hinit : Inv (initCache recordLength maxSize scaled) [] := initCache_inv_any
  refine run_invariant (fun c => ∃ l, Inv c l ∧ Sound c l) ?_ ⟨[], hinit, sound_nil ?_⟩ h
  · rintro op hmem c₁ c₂ r ⟨l, hl, hs⟩ hop
    exact exec_sound hl hs (hlab op hmem) hop
  · intro i _ hlive
    exact absurd rfl hlive

/-- The records that an eviction is meant to leave in the list. -/
def keptSlots (c : Cache) : List ℤ := (visited c).take (c.length - lruPopItem)

/-- The least recently used records, ten of them or all there are. -/
def lruSlots (c : Cache) : List ℤ := (visited c).drop (c.length - lruPopItem)

/-- What a set call on a full cache is meant to do; `s` is the record of the label. -/
structure Evicts (c c' : Cache) (op : CacheOp) (s : ℤ) : Prop where
  order : visited c' = s :: (keptSlots c).erase s
  stored : (c'.records.data s).toList = op.stored
  kept : ∀ x ∈ keptSlots c, x ≠ s → c'.records.data x = c.records.data x
  nodes_gone : ∀ x ∈ lruSlots c, ∀ b, some x ∈ c'.labelHash.chain b →
    x = s ∧ b = c'.labelHash.pos op.label
  not_found : ∀ x ∈ lruSlots c, ∀ label, labelAt c x = some label → label ≠ op.label →
    get c' label = .ok none

/-- The call returns and evicts. -/
def SetEvicts (c : Cache) (op : CacheOp) : Prop :=
  ∃ c' r s, op.exec c = .ok (c', r) ∧ Evicts c c' op s

theorem not_setEvicts_of_stop {op : CacheOp} {e : Stop} (h : stopOf (op.exec c) = some e) :
    ¬ SetEvicts c op := by
  rintro ⟨c', r, s, hexec, -⟩
  rw [hexec] at h
  cases h

theorem popBack_deadNode (h : Inv c (l ++ [t])) {b : ℕ} (ht : some t ∈ c.labelHash.chain b)
    (hrun : popBack c = .ok c') : ∃ l', Inv c' l' ∧ DeadNode c' t b := by
  obtain ⟨c₁, he, h₁, hrun⟩ := popBackLoop_concat h hrun
  exact ⟨_, popBackLoop_rule (P := fun c _ => DeadNode c t b)
    (fun _ _ _ _ h hx he _ => he.toEvicted.deadNode h hx) h₁ (he.deadNode_self h ht) hrun⟩

/-- Making room where there is none leaves the node of the old tail behind. -/
theorem makeRoom_deadNode (h : Inv c (l ++ [t])) {b : ℕ} (ht : some t ∈ c.labelHash.chain b)
    (hroom : isFull c = true ∨ (c.usedSize + 1024) % 2 ^ 64 > c.maxSize)
    (hrun : makeRoom c = .ok c') : ∃ l', Inv c' l' ∧ DeadNode c' t b := by
  have hstep : ∀ c c' l t', Inv c (l ++ [t']) → DeadNode c t b → Popped c c' t' → Inv c' l →
      DeadNode c' t b := fun _ _ _ _ h hx he _ => he.toEvicted.deadNode h hx
  obtain ⟨c₁, hp, hrun⟩ := bind_eq_ok.mp hrun
  split at hp
  · obtain ⟨l₁, h₁, hx⟩ := popBack_deadNode h ht hp
    obtain ⟨k, h', hx'⟩ := sizeLoop_rule (P := fun c _ => DeadNode c t b) hstep h₁ hx hrun
    exact ⟨_, h', hx'⟩
  · next hfull =>
      cases hp
      simp only [sizeLoop, if_pos (hroom.resolve_left hfull)] at hrun
      obtain ⟨c₂, hp, hrun⟩ := bind_eq_ok.mp hrun
      obtain ⟨l₁, h₁, hx⟩ := popBack_deadNode h ht hp
      obtain ⟨k, h', hx'⟩ := sizeLoop_rule (P := fun c _ => DeadNode c t b) hstep h₁ hx hrun
      exact ⟨_, h', hx'⟩

/-- Placing a record keeps the nodes of invalid slots, and their bucket is not that of the
placed label when the record is new. -/
theorem placeFront_stale_node (h : Inv c l) {b : ℕ} (hv : c.records.valid t = false)
    (ht : some t ∈ c.labelHash.chain b) (hrun : placeFront c label = .ok (c', s)) :
    (∃ l', Inv c' (s :: l')) ∧ some t ∈ c'.labelHash.chain b ∧
      ¬ (t = s ∧ b = c'.labelHash.pos label) := by
  rcases placeFront_cases h hrun with ⟨hget, n, p, e, rfl, h₁⟩ | ⟨hmiss, -, hins, h₁⟩
  · refine ⟨⟨_, h₁⟩, ht, ?_⟩
    rintro ⟨rfl, -⟩
    rw [h.valid_of_mem (get_some h hget).1] at hv
    cases hv
  · have hb : b ≠ c.labelHash.pos label := by
      rintro rfl
      obtain ⟨s', -, -, hs', hv', -⟩ := compare_eq_false.mp (get_none h hmiss _ ht)
      cases hs'
      rw [hv] at hv'
      cases hv'
    refine ⟨⟨_, h₁⟩, ?_, ?_⟩
    · rwa [hins.table, Hashtable.setChain_chain, update_of_ne hb]
    · rintro ⟨-, heq⟩
      rw [hins.table, Hashtable.setChain_pos] at heq
      exact hb heq

/-- No set call on a full cache evicts: if it returns at all, the node of the old tail is
still in the hash table. -/
theorem full_set_not_evicts (recordLength maxSize : ℤ) (scaled : ℕ) (hn : 2 ≤ recordLength)
    (ops : List CacheOp) (hlab : ∀ op ∈ ops, op.Labelled) (results : List CacheResult)
    (c : Cache) (h : runOps (initCache recordLength maxSize scaled) ops = .ok (c, results))
    (hfull : isFull c = true) (op : CacheOp) (hset : op.isSet = true) : ¬ SetEvicts c op := by
  rintro ⟨c', r, s, hexec, hev⟩
  obtain ⟨hlim, -⟩ := runOps_inv (by omega) h
  obtain ⟨l, hl, hs⟩ := runOps_sound hlab h
  have hlen : 0 < l.length := by
    have hmax : c.maxLength = recordLength.toNat :=
      hlim.1.trans (initCache_maxLength (by omega))
    have := of_decide_eq_true hfull
    have := hl.length_eq
    omega
  rcases l.eq_nil_or_concat' with rfl | ⟨a, t, rfl⟩
  · simp at hlen
  · obtain ⟨b, hb⟩ := hs.anchored t (by simp)
    obtain ⟨c₀, c₁, s', z, hroom, hplace, -, rfl⟩ := exec_set_ok hset hl.isInit hexec
    obtain ⟨l₀, h₀, hdead⟩ := makeRoom_deadNode hl hb (.inl hfull) hroom
    obtain ⟨⟨l₁, h₁⟩, hnode', hnot⟩ := placeFront_stale_node h₀ hdead.invalid hdead.node hplace
    have hfront : s = s' := by
      have horder := hev.order
      rw [(h₁.withRecord _ z).visited_eq] at horder
      exact (List.cons.inj horder).1.symm
    have htail : t ∈ lruSlots c := by
      rw [lruSlots, hl.visited_eq, hl.length_eq]
      rw [List.drop_append_of_le_length (by simp [lruPopItem])]
      simp
    subst hfront
    exact hnot (hev.nodes_gone t htail b hnode')

private def evictionIP : IP := ⟨Vector.replicate 16 0, 1⟩

/-- One record fills the cache of two, and storing a second label exits the program. -/
theorem full_set_exits :
    ∃ c results, runOps (initCache 2 2000 3) [.set [97] ⟨[97], evictionIP, 9⟩ 1] =
        .ok (c, results) ∧ isFull c = true ∧
      stopOf ((CacheOp.set [98] ⟨[98], evictionIP, 9⟩ 1).exec c) = some .invalidRecord ∧
      ¬ SetEvicts c (.set [98] ⟨[98], evictionIP, 9⟩ 1) := by
  exact ⟨_, _, rfl, by decide, by decide,
    not_setEvicts_of_stop (e := .invalidRecord) (by decide)⟩

/-- Every hypothesis is met by the cache of one record. -/
theorem full_set_not_evicts_sample :
    ∃ c results, runOps (initCache 2 2000 3) [.set [97] ⟨[97], evictionIP, 9⟩ 1] =
        .ok (c, results) ∧ ¬ SetEvicts c (.set [98] ⟨[98], evictionIP, 9⟩ 1) := by
  refine ⟨_, _, rfl, ?_⟩
  exact full_set_not_evicts 2 2000 3 (by decide) [.set [97] ⟨[97], evictionIP, 9⟩ 1]
    (by simp [CacheOp.Labelled]) _ _ rfl (by decide) _ (by decide)

end Runs

end DnsRelay.Lru
