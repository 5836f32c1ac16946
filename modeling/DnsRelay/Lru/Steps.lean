import DnsRelay.Lru.Links

/-!
# What each cache operation can do

One inversion lemma for every operation: from the invariant and a call that
returned it reads off the new invariant and everything the call changed. Later
modules never unfold an operation again.
-/

namespace DnsRelay.Lru

open DnsRelay.Hash DnsRelay.Lib.LinkedList DnsRelay.Lib.Machine Function

variable {c c' : Cache} {l : List ℤ} {s t : ℤ} {label : Label} {now : ℤ}

section Compare

variable {rs : Records} {r : Option ℤ}

theorem compare_eq_true : compareRecordWithLabel rs r label = .ok true ↔
    ∃ s d ds, r = some s ∧ rs.valid s = true ∧ rs.data s = .live d ds ∧ d.label = label := by
  cases r with
  | none => simp [compareRecordWithLabel]
  | some s =>
      cases hv : rs.valid s <;> cases hd : rs.data s <;>
        simp [compareRecordWithLabel, hv, hd]

theorem compare_eq_false : compareRecordWithLabel rs r label = .ok false ↔
    ∃ s d ds, r = some s ∧ rs.valid s = true ∧ rs.data s = .live d ds ∧ d.label ≠ label := by
  cases r with
  | none => simp [compareRecordWithLabel]
  | some s =>
      cases hv : rs.valid s <;> cases hd : rs.data s <;>
        simp [compareRecordWithLabel, hv, hd]

theorem label_eq_ok {x : Label} :
    getCacheARecordLabel rs s = .ok x ↔ ∃ d ds, rs.data s = .live d ds ∧ d.label = x := by
  cases hd : rs.data s <;> simp [getCacheARecordLabel, hd]

end Compare

section Lookup

/-- A lookup that finds a record found it in the list and in its own bucket. -/
theorem get_some (h : Inv c l) (hg : get c label = .ok (some s)) :
    s ∈ l ∧ ∃ d ds front back, c.records.data s = .live d ds ∧ d.label = label ∧
      c.labelHash.chain (c.labelHash.pos label) = front ++ some s :: back ∧
      ∀ x ∈ front, compareRecordWithLabel c.records x label = .ok false := by
  obtain ⟨⟨node, isFind⟩, hn, hg⟩ := bind_eq_ok.mp hg
  cases isFind with
  | false => cases hg
  | true =>
      obtain ⟨front, r, back, hc, -, hr, hcmp, hf⟩ := getHashnode_hit hn
      have hrs : r = some s := hr.symm.trans (Except.ok.inj hg)
      subst hrs
      obtain ⟨s', d, ds, hs', hv, hd, hl⟩ := compare_eq_true.mp hcmp
      cases hs'
      have hmem : some s ∈ c.labelHash.chain (c.labelHash.pos label) := by simp [hc]
      obtain ⟨s', hs', h₁, h₂⟩ := h.nodes _ _ hmem
      cases hs'
      exact ⟨(h.valid_iff s h₁ h₂).mp hv, d, ds, front, back, hd, hl, hc, hf⟩

theorem get_none (h : Inv c l) (hg : get c label = .ok none) :
    ∀ x ∈ c.labelHash.chain (c.labelHash.pos label),
      compareRecordWithLabel c.records x label = .ok false := by
  obtain ⟨⟨node, isFind⟩, hn, hg⟩ := bind_eq_ok.mp hg
  cases isFind with
  | false => exact (getHashnode_miss hn).2
  | true =>
      obtain ⟨front, r, back, hc, -, hr, hcmp, hf⟩ := getHashnode_hit hn
      have hrn : r = none := hr.symm.trans (Except.ok.inj hg)
      have hmem : r ∈ c.labelHash.chain (c.labelHash.pos label) := by simp [hc]
      obtain ⟨s', hs', -⟩ := h.nodes _ r hmem
      simp [hrn] at hs'

theorem get_eq_of_getHashnode {node : NodeRef} {found : Bool}
    (hn : getHashnode (compareRecordWithLabel c.records) c.labelHash label =
      .ok (node, found)) :
    get c label = .ok (if found then c.labelHash.recordAt node else none) := by
  simp [get, hn, bind, Except.bind, pure, Except.pure]

end Lookup

/-- A used slot splits the list in two parts without it. -/
theorem Inv.split_at {a b : List ℤ} (h : Inv c (a ++ s :: b)) :
    s ∉ a ∧ s ∉ b ∧ (a ++ s :: b).erase s = a ++ b := by
  have hsa : s ∉ a := fun hm => (List.nodup_append.mp h.used_nodup).2.2 s hm s (by simp) rfl
  have hsb : s ∉ b := (List.nodup_cons.mp (List.nodup_append.mp h.used_nodup).2.1).1
  refine ⟨hsa, hsb, ?_⟩
  rw [List.erase_append_right _ hsa, List.erase_cons_head]

section Front

/-- Moving a used slot that is not the first one to the front. -/
theorem linkFront_linklistRemoveNode (h : Inv c l) (hs : s ∈ l) (hf : s ≠ c.first) :
    ∃ next last e, linkFront (linklistRemoveNode c s) s = relink c next last s e ∧
      Inv (relink c next last s e) (s :: l.erase s) := by
  obtain ⟨a, b, rfl⟩ := List.append_of_mem hs
  have hd := h.head_nodup
  obtain ⟨hsa, hsb, herase⟩ := h.split_at
  have hane : a ≠ [] := by
    rintro rfl
    exact hf (h.first_eq s (by simp)).symm
  obtain ⟨n, p, hrm, hlk⟩ := linklistRemoveNode_ends h.toEnds hd
    (fun x hx => h.used_pos (by simp [hx]))
  have hsub : (0 :: (a ++ b)).Nodup := by
    refine hd.sublist (List.Sublist.cons_cons _ ?_)
    exact (List.sublist_cons_self s b).append_left a
  have hends : Ends (relink c n p c.first (endOf (a ++ b))) (a ++ b) := by
    refine ⟨hlk, fun x hx => ?_, fun x hx => endOf_eq_of_getLast? hx⟩
    cases a with
    | nil => exact absurd rfl hane
    | cons y a => exact h.first_eq x (by simpa using hx)
  have hlen : 1 < (relink c n p c.first (endOf (a ++ b))).length ↔ a ++ b ≠ [] := by
    have hl : c.length = a.length + (b.length + 1) := by simpa using h.length_eq
    have hpos : 0 < a.length := List.length_pos_iff.mpr hane
    have hlt : 1 < c.length := by omega
    change 1 < c.length ↔ _
    simp [hane, hlt]
  have hs0 : s ∉ 0 :: (a ++ b) := by
    have := h.used_pos hs
    simp only [List.mem_cons, List.mem_append, not_or]
    exact ⟨by omega, hsa, hsb⟩
  obtain ⟨n', p', e', hlf, he'⟩ := linkFront_ends hends hs0 hsub hlen
  refine ⟨n', p', e', ?_, ?_⟩
  · rw [hrm, hlf]
    rfl
  · rw [herase]
    exact h.relink_of_perm he' List.perm_middle

theorem moveToFront_eq (hs : s ≠ 0) (hlen : 1 < c.length) :
    moveToFront c s = linkFront (linklistRemoveNode c s) s := by
  have hlen' : 1 < (linklistRemoveNode c s).length := by
    simp only [linklistRemoveNode]
    split <;> exact hlen
  simp [moveToFront, linkFront, hlen', update_comm hs.symm]

theorem moveToFront_inv (h : Inv c l) (hs : s ∈ l) (hf : s ≠ c.first) :
    ∃ next last e, moveToFront c s = relink c next last s e ∧
      Inv (relink c next last s e) (s :: l.erase s) := by
  have hlen : 1 < c.length := by
    rw [h.length_eq]
    cases l with
    | nil => simp at hs
    | cons x l =>
        cases l with
        | nil =>
            have hsx : s = x := by simpa using hs
            exact absurd (h.first_eq x (by simp)).symm (hsx ▸ hf)
        | cons y l => simp
  have hs0 : s ≠ 0 := by
    have := h.used_pos hs
    omega
  rw [moveToFront_eq hs0 hlen]
  exact linkFront_linklistRemoveNode h hs hf

/-- A slot taken from the free stack and hung at the front. -/
structure Inserted (c c' : Cache) (label : Label) (s : ℤ) : Prop where
  top : 0 < c.stackTop ∧ s = c.stack c.stackTop
  data : c'.records.data = c.records.data
  size : c'.records.size = update c.records.size s 0
  valid : c'.records.valid = update c.records.valid s true
  table : c'.labelHash = c.labelHash.setChain (c.labelHash.pos label)
    (c.labelHash.chain (c.labelHash.pos label) ++ [some s])
  stack : c'.stack = c.stack ∧ c'.stackTop = c.stackTop - 1
  limits : c'.maxLength = c.maxLength ∧ c'.maxSize = c.maxSize ∧ c'.usedSize = c.usedSize

theorem stack_top_free (h : Inv c l) :
    c.stack c.stackTop ∉ l ∧ 0 < c.stack c.stackTop ∧ c.stack c.stackTop ≤ c.maxLength := by
  have hmem : c.stack c.stackTop ∈ stackSlots c := stack_mem_stackSlots le_rfl
  exact ⟨fun hl => h.used_not_free hl hmem,
    mem_slots.mp (h.perm.mem_iff.mp (List.mem_append_left _ hmem))⟩

/-- The branch of `push_front` for a new label, once its hash node has been hung. -/
theorem linkFront_insert (h : Inv c l) (htop : 0 < c.stackTop)
    (hs : s = c.stack c.stackTop) {table : Hashtable Label ℤ}
    (htable : table = c.labelHash.setChain (c.labelHash.pos label)
      (c.labelHash.chain (c.labelHash.pos label) ++ [some s])) :
    let c₁ : Cache := { c with
      stackTop := c.stackTop - 1
      labelHash := table
      records.valid := update c.records.valid s true
      records.size := update c.records.size s 0
      length := c.length + 1 }
    Inserted c (linkFront c₁ s) label s ∧ Inv (linkFront c₁ s) (s :: l) := by
  intro c₁
  obtain ⟨hsl, hs0, hsm⟩ := stack_top_free h
  rw [← hs] at hsl hs0 hsm
  have hends : Ends c₁ l := ⟨h.linked, h.first_eq, h.last_eq⟩
  have hlen : 1 < c₁.length ↔ l ≠ [] := by
    change 1 < c.length + 1 ↔ _
    rw [h.length_eq, ← List.length_pos_iff]
    omega
  have hs0' : s ∉ 0 :: l := by simp [hsl, hs0.ne']
  obtain ⟨n, p, e, hlf, he⟩ := linkFront_ends hends hs0' h.head_nodup hlen
  rw [hlf]
  have hstack : stackSlots c = (List.range (c.stackTop - 1 + 1)).map c.stack ++ [s] := by
    have htt : c.stackTop - 1 + 1 = c.stackTop := by omega
    rw [stackSlots, List.range_succ, List.map_append, htt, hs]
    rfl
  refine ⟨⟨⟨htop, hs⟩, rfl, rfl, rfl, htable, ⟨rfl, rfl⟩, rfl, rfl, rfl⟩, he, ?_, h.bottom,
    ?_, ?_, ?_, ?_, h.isInit⟩
  · change ((List.range (c.stackTop - 1 + 1)).map c.stack ++ s :: l).Perm (slots c.maxLength)
    have hp := h.perm
    rw [hstack, List.append_assoc] at hp
    exact hp
  · intro x hx₁ hx₂
    change update c.records.valid s true x = true ↔ _
    by_cases hxs : x = s
    · simp [hxs]
    · simp [hxs, h.valid_iff x hx₁ hx₂]
  · change c.length + 1 = _
    simp [h.length_eq]
  · intro b r hr
    change r ∈ table.chain b at hr
    rw [htable, Hashtable.setChain_chain] at hr
    by_cases hb : b = c.labelHash.pos label
    · subst hb
      rw [update_self, List.mem_append, List.mem_singleton] at hr
      rcases hr with hr | rfl
      · exact h.nodes _ r hr
      · exact ⟨s, rfl, hs0, hsm⟩
    · rw [update_of_ne hb] at hr
      exact h.nodes b r hr
  · intro b
    change (table.nodes b).record = none
    rw [htable, Hashtable.setChain_record]
    exact h.heads b

/-- `push_front` after making room: a known label moves to the front, a new one takes the
top of the free stack. -/
theorem placeFront_cases (h : Inv c l) (hp : placeFront c label = .ok (c', s)) :
    (get c label = .ok (some s) ∧ ∃ next last e, c' = relink c next last s e ∧
      Inv c' (s :: l.erase s)) ∨
    (get c label = .ok none ∧ s ∉ l ∧ Inserted c c' label s ∧ Inv c' (s :: l)) := by
  obtain ⟨⟨table, node, isFind⟩, hset, hp⟩ := bind_eq_ok.mp hp
  rcases setHashnode_none_cases hset with ⟨rfl, rfl, hn⟩ | ⟨rfl, hn, rfl, rfl⟩
  · left
    have hget := get_eq_of_getHashnode hn
    cases hr : c.labelHash.recordAt node with
    | none => simp [hr] at hp
    | some slot =>
        rw [if_pos rfl, hr] at hget
        obtain ⟨hmem, -⟩ := get_some h hget
        have haddr : getRecordAddr c slot = slot := h.addr_eq hmem
        simp only [hr, if_true] at hp
        change (if getRecordAddr c slot = c.first then _ else _) = _ at hp
        rw [haddr] at hp
        by_cases hf : slot = c.first
        · rw [if_pos hf] at hp
          cases hp
          refine ⟨hget, c.records.next, c.records.last, c.last, ?_, ?_⟩
          · rw [hf]
            rfl
          · rw [h.cons_erase_first hf hmem]
            exact h
        · rw [if_neg hf] at hp
          cases hp
          obtain ⟨n, p, e, he, hinv⟩ := linkFront_linklistRemoveNode h hmem hf
          exact ⟨hget, n, p, e, he, he ▸ hinv⟩
  · right
    have hget := get_eq_of_getHashnode hn
    obtain ⟨hsl, hs0, -⟩ := stack_top_free h
    simp only [Bool.false_eq_true, if_false, cacheStackPop] at hp
    by_cases htop : 0 < c.stackTop
    · simp only [htop, if_true, not_lt.mpr hs0.le, if_false, setRecordAt_placeholder] at hp
      cases hp
      exact ⟨hget, hsl, linkFront_insert h htop rfl rfl⟩
    · simp [htop] at hp

end Front

section Drop

theorem release_ok {rs rs' : Records} (h : realseARecord rs s = .ok rs') :
    rs.data s ≠ .freed ∧
    rs' = { rs with
      data := update rs.data s (if (rs.data s).isLive then .freed else rs.data s)
      size := update rs.size s 0 } := by
  cases hd : rs.data s with
  | null =>
      simp only [realseARecord, hd] at h
      cases h
      refine ⟨by simp, ?_⟩
      simp [DataPtr.isLive, ← hd]
  | freed => simp [realseARecord, hd] at h
  | live d ds =>
      simp only [realseARecord, hd] at h
      cases h
      simp [DataPtr.isLive]

/-- The fields that only allocation and relinking change. -/
structure SameShape (c c' : Cache) : Prop where
  next : c'.records.next = c.records.next
  prev : c'.records.last = c.records.last
  first : c'.first = c.first
  last : c'.last = c.last
  length : c'.length = c.length
  maxLength : c'.maxLength = c.maxLength
  maxSize : c'.maxSize = c.maxSize
  isInit : c'.isInit = c.isInit

theorem SameShape.ends (h : SameShape c c') (he : Ends c l) : Ends c' l := by
  refine ⟨?_, ?_, ?_⟩
  · rw [h.next, h.prev]
    exact he.linked
  · rw [h.first]
    exact he.first_eq
  · rw [h.last]
    exact he.last_eq

/-- What the shared part of `pop_back` and `remove_record` changes. -/
structure Dropped (c c' : Cache) (keyed released : ℤ) : Prop extends SameShape c c' where
  reset : ∃ d ds found, c.records.data keyed = .live d ds ∧
    resetHashNode (compareRecordWithLabel c.records) c.labelHash d.label =
      .ok (c'.labelHash, found)
  not_freed : c.records.data released ≠ .freed
  data : c'.records.data = update c.records.data released
    (if (c.records.data released).isLive then .freed else c.records.data released)
  size : c'.records.size = update c.records.size released 0
  valid : c'.records.valid = c.records.valid
  stack : c'.stack = c.stack ∧ c'.stackTop = c.stackTop
  used : c'.usedSize = subSize c.usedSize (c.records.size released)

theorem dropRecord_ok (h : dropRecord c s t = .ok c') : Dropped c c' s t := by
  obtain ⟨x, hx, h⟩ := bind_eq_ok.mp h
  obtain ⟨⟨table, found⟩, hreset, h⟩ := bind_eq_ok.mp h
  obtain ⟨released, hrel, h⟩ := bind_eq_ok.mp h
  obtain ⟨d, ds, hdata, rfl⟩ := label_eq_ok.mp hx
  obtain ⟨hnf, rfl⟩ := release_ok hrel
  cases h
  exact
    { next := rfl, prev := rfl, first := rfl, last := rfl, length := rfl, maxLength := rfl
      maxSize := rfl, isInit := rfl, reset := ⟨d, ds, found, hdata, hreset⟩
      not_freed := hnf, data := rfl, size := rfl, valid := rfl, stack := ⟨rfl, rfl⟩
      used := rfl }

end Drop

section Evict

/-- One eviction: the slot is invalid while its label is looked up in the hash table. -/
structure Evicted (c c' : Cache) (t : ℤ) : Prop where
  reset : ∃ d ds found, c.records.data t = .live d ds ∧
    resetHashNode (compareRecordWithLabel
      { c.records with valid := update c.records.valid t false }) c.labelHash d.label =
        .ok (c'.labelHash, found)
  data : c'.records.data = update c.records.data t .freed
  valid : c'.records.valid = update c.records.valid t false
  stackTop : c'.stackTop = c.stackTop + 1
  stack : c'.stack = update c.stack (c.stackTop + 1) t
  limits : c'.maxLength = c.maxLength ∧ c'.maxSize = c.maxSize

/-- One round of `pop_back`: the eviction and its accounting. -/
structure Popped (c c' : Cache) (t : ℤ) : Prop extends Evicted c c' t where
  size : c'.records.size = update c.records.size t 0
  used : c'.usedSize = subSize c.usedSize (c.records.size t)

theorem popBackStep_nil (h : Inv c []) : popBackStep c = .ok c := by
  have hlen : ¬ 0 < c.length := by simp [h.length_eq]
  simp [popBackStep, hlen, pure, Except.pure]

theorem retire_eq (h : Inv c l) (ht : t ∈ l) :
    retire c t = { c with
      records.valid := update c.records.valid t false
      stackTop := c.stackTop + 1
      stack := update c.stack (c.stackTop + 1) t } :=
  if_pos ⟨(h.used_pos ht).le, h.used_lt ht⟩

/-- Cutting the tail patches the links only. -/
theorem cutTail_eq (he : Ends c (l ++ [t])) (hd : (0 :: (l ++ [t])).Nodup)
    (hlen : c.length = l.length + 1) :
    ∃ next f e, cutTail c (c.records.last t) =
        { relink c next c.records.last f e with length := l.length } ∧
      Ends (relink c next c.records.last f e) l := by
  have hlink := he.linked.unlink_last hd
  have hprev := he.linked.prev_eq
  have hsub : c.length - 1 = l.length := by omega
  rcases l.eq_nil_or_concat' with rfl | ⟨l', x, rfl⟩
  · refine ⟨update c.records.next (c.records.last t) (-1), 0, 0, ?_, hlink, ?_, ?_⟩
    · simp [cutTail, relink, hsub]
    · simp
    · simp
  · have hx : c.records.last t = x := by simpa using hprev
    by_cases hone : l' = []
    · subst hone
      refine ⟨update c.records.next (c.records.last t) (-1), x, x, ?_, hlink, ?_, ?_⟩
      · simp [cutTail, relink, hsub, hx]
      · simp [relink]
      · simp [relink]
    · refine ⟨update c.records.next (c.records.last t) (-1), c.first, x, ?_, hlink, ?_, ?_⟩
      · have hpos := List.length_pos_iff.mpr hone
        have h₁ : l'.length + 1 ≠ 1 := by omega
        simp [cutTail, relink, hsub, hx, hone]
      · intro y hy
        refine he.first_eq y ?_
        cases l' with
        | nil => exact absurd rfl hone
        | cons z l' => simpa using hy
      · simp [relink]

/-- The free stack after one push still partitions the array with the remaining list. -/
theorem perm_push {m : List ℤ} (h : Inv c m) (hm : m.Perm (t :: l)) :
    ((List.range (c.stackTop + 1 + 1)).map (update c.stack (c.stackTop + 1) t) ++ l).Perm
      (slots c.maxLength) := by
  rw [stackSlots_push, List.append_assoc]
  exact ((List.Perm.append_left _ hm.symm).trans h.perm :)

/-- Dropping one slot from the list and from the valid records. -/
theorem valid_drop {m : List ℤ} (h : Inv c m) (hm : m.Perm (t :: l)) {x : ℤ} (h₁ : 0 < x)
    (h₂ : x ≤ c.maxLength) : update c.records.valid t false x = true ↔ x ∈ l := by
  have hd := hm.nodup_iff.mp h.used_nodup
  by_cases hx : x = t
  · subst hx
    simp [(List.nodup_cons.mp hd).1]
  · simp [hx, h.valid_iff x h₁ h₂, hm.mem_iff]

/-- One round of `pop_back` on a non-empty list evicts its last slot. -/
theorem popBackStep_ok (h : Inv c (l ++ [t])) (hp : popBackStep c = .ok c') :
    Popped c c' t ∧ Inv c' l := by
  have hlen : c.length = l.length + 1 := by simpa using h.length_eq
  have htail : c.last = t := h.last_eq t (by simp)
  have hmem : t ∈ l ++ [t] := by simp
  have hperm : (l ++ [t]).Perm (t :: l) := List.perm_append_singleton t l
  simp only [popBackStep, if_pos (show 0 < c.length by omega), htail] at hp
  obtain ⟨c₁, hdrop, hp⟩ := bind_eq_ok.mp hp
  have hd := dropRecord_ok hdrop
  rw [retire_eq h hmem] at hd
  have hends : Ends c₁ (l ++ [t]) :=
    hd.toSameShape.ends ⟨h.linked, h.first_eq, h.last_eq⟩
  obtain ⟨n, f, e, hcut, he⟩ := cutTail_eq hends h.head_nodup (hd.length.trans hlen)
  have hprev : c.records.last t = c₁.records.last t := by rw [hd.prev]
  rw [hprev] at hp
  have hc' : c' = _ := (Except.ok.inj hp).symm.trans hcut
  obtain ⟨d, ds, found, hdata, hreset⟩ := hd.reset
  have hlive : (c.records.data t).isLive = true := by
    rw [show c.records.data t = _ from hdata]
    rfl
  obtain ⟨hsub, hheads, -⟩ := resetHashNode_frame hreset
  subst hc'
  refine ⟨⟨⟨⟨d, ds, found, hdata, hreset⟩, ?_, hd.valid, hd.stack.2, hd.stack.1,
    hd.maxLength, hd.maxSize⟩, hd.size, hd.used⟩, ⟨he.linked, he.first_eq, he.last_eq⟩,
    ?_, ?_, ?_, rfl, ?_, ?_, hd.isInit.trans h.isInit⟩
  · have hdd := hd.data
    simp only [hlive, if_true] at hdd
    exact hdd
  · change ((List.range (c₁.stackTop + 1)).map c₁.stack ++ l).Perm (slots c₁.maxLength)
    rw [hd.stack.1, hd.stack.2, hd.maxLength]
    exact perm_push h hperm
  · change c₁.stack 0 = c₁.maxLength
    rw [hd.stack.1, hd.maxLength]
    change update c.stack (c.stackTop + 1) t 0 = c.maxLength
    rw [update_of_ne (by omega)]
    exact h.bottom
  · intro x h₁ h₂
    change x ≤ c₁.maxLength at h₂
    change c₁.records.valid x = true ↔ _
    rw [hd.maxLength] at h₂
    rw [hd.valid]
    exact valid_drop h hperm h₁ h₂
  · intro b r hr
    change ∃ s, _ ∧ _ ∧ s ≤ (c₁.maxLength : ℤ)
    rw [hd.maxLength]
    exact h.nodes b r ((hsub b).subset hr)
  · intro b
    exact (hheads b).trans (h.heads b)

end Evict

section Remove

/-- The three branches of `remove_record` unlink the slot; afterwards `Cache->last` is
the end of the remaining list. -/
theorem removeLinks_eq (h : Inv c l) (hs : s ∈ l) :
    ∃ next last f, removeLinks c s = relink c next last f (endOf (l.erase s)) ∧
      Ends (relink c next last f (endOf (l.erase s))) (l.erase s) := by
  obtain ⟨a, b, rfl⟩ := List.append_of_mem hs
  have hd := h.head_nodup
  obtain ⟨hsa, hsb, herase⟩ := h.split_at
  obtain ⟨n, p, hrm, hlk⟩ := linklistRemoveNode_ends h.toEnds hd
    (fun x hx => h.used_pos (by simp [hx]))
  rw [herase]
  have hle : ∀ x ∈ (a ++ b).getLast?, endOf (a ++ b) = x := fun x hx => endOf_eq_of_getLast? hx
  cases b with
  | nil =>
      have hlast : c.last = s := h.last_eq s (by simp)
      have hnext : c.records.next s = -1 := by simpa using h.linked.next_last
      refine ⟨n, p, c.first, ?_, hlk, fun x hx => ?_, hle⟩
      · rw [← hrm]
        simp [removeLinks, h.addr_eq hs, hlast, linklistRemoveNode, hnext]
      · refine h.first_eq x ?_
        cases a with
        | nil => simp at hx
        | cons y a => simpa using hx
  | cons u b =>
      have hlast : s ≠ c.last := by
        have hmem : (u :: b).getLast (by simp) ∈ (a ++ s :: u :: b).getLast? := by
          simp [List.getLast?_eq_some_getLast]
        rw [h.last_eq _ hmem]
        intro heq
        exact hsb (heq ▸ List.getLast_mem _)
      have hnext : c.records.next s = u := h.linked.next_eq
      have hu : 0 < u := h.used_pos (by simp)
      cases a with
      | nil =>
          have hfirst : c.first = s := h.first_eq s (by simp)
          have hprev : c.records.last s = 0 := h.linked.prev_head
          refine ⟨n, p, u, ?_, hlk, by simp [relink], hle⟩
          have hlink : removeLinks c s = { linklistRemoveNode c s with first := u } := by
            simp [removeLinks, h.addr_eq hs, hlast, hfirst, linklistRemoveNode, hnext, hu, hprev]
          rw [hlink, hrm]
          rfl
      | cons y a =>
          have hfirst : s ≠ c.first := by
            rw [h.first_eq y (by simp)]
            rintro rfl
            simp at hsa
          refine ⟨n, p, c.first, ?_, hlk, fun x hx => h.first_eq x (by simpa using hx), hle⟩
          rw [← hrm]
          simp [removeLinks, h.addr_eq hs, hlast, hfirst]

/-- One removal: the released record is the end of the remaining list. -/
structure Removed (c c' : Cache) (l : List ℤ) (s : ℤ) : Prop where
  reset : ∃ d ds found, c.records.data s = .live d ds ∧
    resetHashNode (compareRecordWithLabel c.records) c.labelHash d.label =
      .ok (c'.labelHash, found)
  not_freed : c.records.data (endOf (l.erase s)) ≠ .freed
  data : c'.records.data = update c.records.data (endOf (l.erase s))
    (if (c.records.data (endOf (l.erase s))).isLive then .freed
      else c.records.data (endOf (l.erase s)))
  size : c'.records.size = update c.records.size (endOf (l.erase s)) 0
  valid : c'.records.valid = update c.records.valid s false
  stackTop : c'.stackTop = c.stackTop + 1
  stack : c'.stack = update c.stack (c.stackTop + 1) s
  limits : c'.maxLength = c.maxLength ∧ c'.maxSize = c.maxSize
  used : c'.usedSize = subSize c.usedSize (c.records.size (endOf (l.erase s)))

theorem removeRecord_ok (h : Inv c l) (hs : s ∈ l) (hr : removeRecord c s = .ok c') :
    Removed c c' l s ∧ Inv c' (l.erase s) := by
  obtain ⟨n, p, f, hlinks, he⟩ := removeLinks_eq h hs
  have hperm : l.Perm (s :: l.erase s) := List.perm_cons_erase hs
  simp only [removeRecord, hlinks, h.addr_eq hs] at hr
  obtain ⟨c₁, hdrop, hr⟩ := bind_eq_ok.mp hr
  have hd := dropRecord_ok hdrop
  have hends := hd.toSameShape.ends he
  have hlt : s < c₁.maxLength := by
    rw [hd.maxLength]
    exact h.used_lt hs
  rw [cacheStackPush, if_pos ⟨(h.used_pos hs).le, hlt⟩] at hr
  have hc' : c' = _ := (Except.ok.inj hr).symm
  obtain ⟨d, ds, found, hdata, hreset⟩ := hd.reset
  obtain ⟨hsub, hheads, -⟩ := resetHashNode_frame hreset
  have hst : c₁.stackTop = c.stackTop := hd.stack.2
  have hsk : c₁.stack = c.stack := hd.stack.1
  have hml : c₁.maxLength = c.maxLength := hd.maxLength
  have hv : c₁.records.valid = c.records.valid := hd.valid
  subst hc'
  refine ⟨⟨⟨d, ds, found, hdata, hreset⟩, hd.not_freed, hd.data, hd.size, ?_, ?_, ?_,
    ⟨hml, hd.maxSize⟩, hd.used⟩, ⟨hends.linked, hends.first_eq, hends.last_eq⟩,
    ?_, ?_, ?_, ?_, ?_, ?_, hd.isInit.trans h.isInit⟩
  · change update c₁.records.valid s false = _
    rw [hv]
  · change c₁.stackTop + 1 = _
    rw [hst]
  · change update c₁.stack (c₁.stackTop + 1) s = _
    rw [hsk, hst]
  · change ((List.range (c₁.stackTop + 1 + 1)).map (update c₁.stack (c₁.stackTop + 1) s) ++
      l.erase s).Perm (slots c₁.maxLength)
    rw [hsk, hst, hml]
    exact perm_push h hperm
  · change update c₁.stack (c₁.stackTop + 1) s 0 = c₁.maxLength
    rw [hsk, hml, update_of_ne (by omega)]
    exact h.bottom
  · intro x h₁ h₂
    change x ≤ c₁.maxLength at h₂
    change update c₁.records.valid s false x = true ↔ _
    rw [hml] at h₂
    rw [hv]
    exact valid_drop h hperm h₁ h₂
  · change c₁.length - 1 = _
    rw [hd.length, List.length_erase_of_mem hs]
    exact congrArg (· - 1) h.length_eq
  · intro b r hr
    change ∃ s, _ ∧ _ ∧ s ≤ (c₁.maxLength : ℤ)
    rw [hml]
    exact h.nodes b r ((hsub b).subset hr)
  · intro b
    exact (hheads b).trans (h.heads b)

end Remove

end DnsRelay.Lru
