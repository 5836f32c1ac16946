import DnsRelay.Adapter
import Mathlib.Data.List.Induction

/-!
# Allocation of ids

An id is allocated from the `push` that returns it until it is popped or swept. The table
knows this only through the slot of an id, `pos % IDAadpter_SIZE` as a signed remainder, and
through the cursor, which looks at one slot. So ids from 1024 on stand for the slots of other
ids or for no slot, and a query that waits keeps the cursor from passing its slot, however
many other slots are free.
-/

namespace DnsRelay.Adapter

open DnsRelay.Message DnsRelay.Lib.Machine Function

variable {a b t : IDAdapter} {k : Slot} {op : AdapterOp} {r : AdapterResult}
  {ops after : List AdapterOp} {rs : List AdapterResult}

/-- The table as the program starts with it. -/
def initAdapter : IDAdapter :=
  ⟨fun _ => ⟨⟨⟨0, 0, 0⟩, 0, 0⟩, false, 0, List.replicate 1024 0⟩, 0, false⟩

section Pushed

open AdapterOp

/-- A `push` of the run has returned the id `k` in the state `b`, and `after` has been called
since. -/
def Pushed (ops : List AdapterOp) (k : Slot) (b : IDAdapter) (after : List AdapterOp) : Prop :=
  ∃ before op a rs, ops = before ++ op :: after ∧ run exec initAdapter before = .ok (a, rs) ∧
    exec a op = .ok (b, .pushed (some k))

/-- Only an accepted `push` reports an id, and it is the one at the cursor. -/
theorem exec_pushed (h : exec a op = .ok (b, .pushed (some k))) :
    a.next = k ∧ (a.data k).valid = false ∧ (b.data k).valid = true ∧ b.next = k + 1 := by
  cases exec_outcome h with
  | accepted message hfree hpush heq =>
      subst heq
      exact ⟨rfl, hfree, by simp [IDAdapter.set], rfl⟩

/-- A slot comes into use only by the `push` that returns it. -/
theorem exec_valid (h : exec a op = .ok (b, r)) (hk : (b.data k).valid = true) :
    (a.data k).valid = true ∧ op.frees k a = false ∨ r = .pushed (some k) := by
  cases exec_outcome h with
  | refused hused heq =>
      subst heq
      exact .inl ⟨hk, rfl⟩
  | accepted message hfree hpush heq =>
      subst heq
      by_cases hnext : k = a.next
      · exact .inr (by rw [hnext])
      · exact .inl ⟨by simpa [IDAdapter.set, hnext] using hk, rfl⟩
  | @popped pos j hj heq =>
      subst heq
      have hkj : k ≠ j := by
        rintro rfl
        simp [IDAdapter.set] at hk
      refine .inl ⟨by simpa [IDAdapter.set, hkj] using hk, ?_⟩
      simp [frees, hj, hkj.symm]
  | got heq =>
      subst heq
      exact .inl ⟨hk, rfl⟩
  | @swept clock hsweep =>
      have hswept := (IDAdapter.sweep_ensures a clock).result b hsweep
      have hsame : b.data k = a.data k := (hswept.freed k).resolve_right (by simp [hk])
      refine .inl ⟨hsame ▸ hk, ?_⟩
      by_contra hfrees
      have hfreed := IDAdapter.sweep_frees (Bool.of_not_eq_false hfrees) hsweep
      rw [hk] at hfreed
      cases hfreed

theorem Pushed.append (h : Pushed ops k b after) : Pushed (ops ++ [op]) k b (after ++ [op]) := by
  obtain ⟨before, op', a, rs, rfl, hrun, hexec⟩ := h
  exact ⟨before, op', a, rs, by simp, hrun, hexec⟩

/-- A run that contains the `push` goes on from its state. -/
theorem Pushed.run_after (h : Pushed ops k b after)
    (hrun : run exec initAdapter ops = .ok (t, rs)) : ∃ rs', run exec b after = .ok (t, rs') := by
  obtain ⟨before, op, a, rs₁, rfl, hbefore, hexec⟩ := h
  obtain ⟨a', rs₁', rs₂, h₁, h₂, -⟩ := run_append_eq_ok.mp hrun
  cases hbefore.symm.trans h₁
  obtain ⟨b', o, os, h₃, h₄, -⟩ := run_cons_eq_ok.mp h₂
  cases hexec.symm.trans h₃
  exact ⟨os, h₄⟩

/-- A slot in use was returned by a `push`, and nothing has freed it since. -/
theorem exists_pushed (h : run exec initAdapter ops = .ok (a, rs))
    (hk : (a.data k).valid = true) :
    ∃ b after, Pushed ops k b after ∧
      along exec (fun s op => !op.frees k s) b after = true := by
  induction ops using List.reverseRecOn generalizing a rs with
  | nil =>
      cases h
      cases hk
  | append_singleton ops op ih =>
      obtain ⟨a₁, rs₁, rs₂, hrun, hlast, -⟩ := run_append_eq_ok.mp h
      obtain ⟨r, hexec, -⟩ := run_singleton_eq_ok.mp hlast
      rcases exec_valid hexec hk with ⟨hk₁, hfrees⟩ | rfl
      · obtain ⟨b, after, hpushed, halong⟩ := ih hrun hk₁
        obtain ⟨rs', hafter⟩ := hpushed.run_after hrun
        refine ⟨b, after ++ [op], hpushed.append, ?_⟩
        rw [along_append hafter, halong]
        simp [along, hfrees, hexec]
      · exact ⟨a, [], ⟨ops, op, a₁, rs₁, rfl, hrun, hexec⟩, rfl⟩

end Pushed

section Pushes

open AdapterOp

/-- A query with an empty message. -/
def samplePush : AdapterOp := .push 7 ⟨2, 5353, 1⟩ 1 0 [0]

theorem exec_samplePush (hfree : (a.data a.next).valid = false)
    (hlen : (a.data a.next).message.length = 1024) :
    ∃ b e, exec a samplePush = .ok (b, .pushed (some a.next)) ∧
      b.data = update a.data a.next e ∧ e.valid = true ∧ e.message.length = 1024 ∧
      b.next = a.next + 1 := by
  have htext : cString [0] = .ok [] := rfl
  have hfits : ([] : Bytes).length < (a.data a.next).message.length := by
    rw [hlen]
    decide
  have hpush : a.push 7 ⟨2, 5353, 1⟩ 1 0 [0] = _ := IDAdapter.push_of_free hfree htext hfits
  refine ⟨_, _, by rw [samplePush, exec, hpush]; rfl, rfl, rfl, ?_, rfl⟩
  simp [hlen]

/-- Pushing `n` queries one after the other fills the first `n` slots. -/
theorem run_pushes (n : ℕ) (hn : n ≤ 1024) :
    ∃ a rs, run exec initAdapter (List.replicate n samplePush) = .ok (a, rs) ∧
      (∀ k, (a.data k).valid = decide ((k : ℕ) < n)) ∧ (a.next : ℕ) = n % 1024 ∧
      ∀ k, (a.data k).message.length = 1024 := by
  induction n with
  | zero => exact ⟨initAdapter, [], rfl, fun k => rfl, rfl, fun k => List.length_replicate⟩
  | succ n ih =>
      obtain ⟨a, rs, hrun, hvalid, hnext, hlen⟩ := ih (by omega)
      rw [Nat.mod_eq_of_lt (by omega)] at hnext
      have hfree : (a.data a.next).valid = false := by simp [hvalid, hnext]
      obtain ⟨b, e, hexec, hdata, hev, helen, hbnext⟩ := exec_samplePush hfree (hlen a.next)
      refine ⟨b, rs ++ [.pushed (some a.next)], ?_, fun k => ?_, ?_, fun k => ?_⟩
      · rw [List.replicate_succ']
        exact run_append_eq_ok.mpr ⟨a, rs, _, hrun, run_singleton_eq_ok.mpr ⟨_, hexec, rfl⟩, rfl⟩
      · rw [hdata]
        by_cases hk : k = a.next
        · simp [hk, hnext, hev]
        · have hne : (k : ℕ) ≠ n := fun heq => hk (Fin.ext (heq.trans hnext.symm))
          rw [update_of_ne hk, hvalid]
          exact decide_eq_decide.mpr (by omega)
      · rw [hbnext, Fin.val_add, hnext]
        rfl
      · rw [hdata]
        by_cases hk : k = a.next
        · rw [hk, update_self, helen]
        · rw [update_of_ne hk, hlen]

end Pushes

section Matching

/-- The call takes the very id `k` back. -/
def AdapterOp.takes (k : Slot) (a : IDAdapter) : AdapterOp → Bool
  | pop pos => decide (pos = toShort k)
  | sweep clock => IDAdapter.timedOut (a.data k) (clock k)
  | _ => false

open AdapterOp

/-- The id was returned by a `push` of the run, and has been neither popped nor swept since. -/
def Allocated (ops : List AdapterOp) (id : ℕ) : Prop :=
  ∃ k : Slot, (k : ℕ) = id ∧ ∃ b after, Pushed ops k b after ∧
    along exec (fun s op => !op.takes k s) b after = true

/-- A `pop` is of an id that `push` can have returned, or it frees nothing. -/
def AdapterOp.popsOwn (a : IDAdapter) : AdapterOp → Bool
  | pop pos =>
      decide (0 ≤ pos ∧ pos < idAdapterSize) ||
        match slotOf pos with
        | .ok k => !(a.data k).valid
        | .error _ => true
  | _ => true

theorem frees_of_takes (h : op.takes k a = true) : op.frees k a = true := by
  cases op with
  | push id source type time buffer => cases h
  | get pos => cases h
  | sweep clock => exact h
  | pop pos =>
      obtain rfl : pos = toShort k := of_decide_eq_true h
      simp [frees, slotOf_toShort]

/-- Where pops are of own ids, only the id of a slot in use leads to that slot. -/
theorem takes_of_frees (hk : (a.data k).valid = true) (hown : op.popsOwn a = true)
    (h : op.frees k a = true) : op.takes k a = true := by
  cases op with
  | push id source type time buffer => cases h
  | get pos => cases h
  | sweep clock => exact h
  | pop pos =>
      have hslot : slotOf pos = .ok k := of_decide_eq_true h
      simp only [popsOwn, hslot, hk, Bool.not_true, Bool.or_false, decide_eq_true_eq] at hown
      have hpos : pos = toShort k := by
        obtain ⟨n, rfl⟩ := Int.eq_ofNat_of_zero_le hown.1
        have hn : n < idAdapterSize := Int.ofNat_lt.mp hown.2
        have hself := slotOf_val ⟨n, hn⟩
        obtain rfl : (⟨n, hn⟩ : Slot) = k := Except.ok.inj (hself.symm.trans hslot)
        have hlt : n < 32768 := hn.trans (by decide)
        simp [toShort, hlt]
      exact decide_eq_true hpos

theorem allocated_of_valid (h : run exec initAdapter ops = .ok (a, rs))
    (hk : (a.data k).valid = true) : Allocated ops k := by
  obtain ⟨b, after, hpushed, halong⟩ := exists_pushed h hk
  refine ⟨k, rfl, b, after, hpushed, ?_⟩
  refine along_of_and (fun _ => True) ?_ (fun _ _ _ _ _ _ _ => trivial) trivial halong halong
  intro s op _ hfrees _
  cases htakes : op.takes k s with
  | false => rfl
  | true => simp [frees_of_takes htakes] at hfrees

theorem valid_of_allocated (h : run exec initAdapter ops = .ok (a, rs))
    (hown : along exec (fun s op => op.popsOwn s) initAdapter ops = true)
    (hk : Allocated ops k) : (a.data k).valid = true := by
  obtain ⟨j, hj, b, after, hpushed, halong⟩ := hk
  obtain rfl : j = k := Fin.ext hj
  obtain ⟨rs', hafter⟩ := hpushed.run_after h
  obtain ⟨before, op, a₁, rs₁, rfl, hbefore, hexec⟩ := hpushed
  have hvalid := (exec_pushed hexec).2.2.1
  -- the pops of the calls after the `push` are of own ids as well
  have hown' : along exec (fun s op => op.popsOwn s) b after = true := by
    rw [along_append hbefore, Bool.and_eq_true] at hown
    have hlast := hown.2
    simp only [along, hexec, Bool.and_eq_true] at hlast
    exact hlast.2
  have hfree : along exec (fun s op => !op.frees j s) b after = true := by
    refine along_of_and (fun s => (s.data j).valid = true) ?_ ?_ hvalid halong hown'
    · intro s op hs htakes hop
      cases hfrees : op.frees j s with
      | false => rfl
      | true => simp [takes_of_frees hs hop hfrees] at htakes
    · intro s op s' o hs hfrees hexec'
      rw [exec_frame hexec' hs (by simpa using hfrees)]
      exact hs
  rw [run_frame hvalid hfree hafter]
  exact hvalid

/-- The index that an id of 16 bits leads to: ids of the lower half are taken modulo the size
of the table, the others give a negative remainder or zero. -/
theorem slotOf_toShort_cases (id : UInt16) :
    ((id.toNat < 32768 ∨ id.toNat % 1024 = 0) ∧
      slotOf (toShort id.toNat) = .ok (Fin.ofNat idAdapterSize id.toNat)) ∨
    (¬ (id.toNat < 32768 ∨ id.toNat % 1024 = 0) ∧ slotOf (toShort id.toNat) = .error .fault) := by
  have hid : id.toNat < 65536 := id.toNat_lt
  by_cases hlow : id.toNat < 32768
  · left
    refine ⟨.inl hlow, ?_⟩
    have hmod : (id.toNat : ℤ).tmod idAdapterSize = ((id.toNat % 1024 : ℕ) : ℤ) := rfl
    rw [toShort, if_pos hlow, slotOf, hmod, if_pos (Int.natCast_nonneg _), Int.toNat_natCast]
    exact congrArg Except.ok (Fin.ext (Nat.mod_mod _ _))
  · have hneg : (id.toNat : ℤ) - 65536 = -((65536 - id.toNat : ℕ) : ℤ) := by omega
    have hmod : (-((65536 - id.toNat : ℕ) : ℤ)).tmod idAdapterSize =
        -(((65536 - id.toNat) % 1024 : ℕ) : ℤ) := Int.neg_tmod _ _
    rw [toShort, if_neg hlow, hneg, slotOf, hmod]
    by_cases hzero : id.toNat % 1024 = 0
    · left
      have hrem : (65536 - id.toNat) % 1024 = 0 := by omega
      refine ⟨.inr hzero, ?_⟩
      rw [hrem]
      refine congrArg Except.ok (Fin.ext ?_)
      simp [hzero]
    · right
      refine ⟨by omega, if_neg ?_⟩
      have hrem : (65536 - id.toNat) % 1024 ≠ 0 := by omega
      omega

/-- `IDAdapter_get` and `IDAdapter_pop` stay within the table for the id, and `get` returns an
entry exactly when the id is allocated. -/
def MatchesAllocated (ops : List AdapterOp) (a : IDAdapter) (id : UInt16) : Prop :=
  ∃ info b, a.get (toShort id.toNat) = .ok info ∧ a.pop (toShort id.toNat) = .ok b ∧
    (info ≠ none ↔ Allocated ops id.toNat)

/-- In a run that pops own ids only, an id matches what is allocated exactly when it is the
number of a slot, or leads to a free slot. -/
theorem matchesAllocated_iff (ops : List AdapterOp) (rs : List AdapterResult) (a : IDAdapter)
    (h : run exec initAdapter ops = .ok (a, rs))
    (hown : along exec (fun s op => op.popsOwn s) initAdapter ops = true) (id : UInt16) :
    MatchesAllocated ops a id ↔ id.toNat < 1024 ∨
      ((id.toNat < 32768 ∨ id.toNat % 1024 = 0) ∧
        (a.data (Fin.ofNat idAdapterSize id.toNat)).valid = false) := by
  rcases slotOf_toShort_cases id with ⟨hin, hslot⟩ | ⟨hout, hslot⟩
  · have hget := IDAdapter.get_of_slotOf (a := a) hslot
    have hpop := IDAdapter.pop_of_slotOf (a := a) hslot
    have hmatches : MatchesAllocated ops a id ↔
        ((a.data (Fin.ofNat idAdapterSize id.toNat)).valid = true ↔
          Allocated ops id.toNat) := by
      have hvalid : a.outstanding (Fin.ofNat idAdapterSize id.toNat) ≠ none ↔
          (a.data (Fin.ofNat idAdapterSize id.toNat)).valid = true := by
        rw [ne_eq, IDAdapter.outstanding_eq_none, Bool.not_eq_false]
      rw [← hvalid]
      constructor
      · rintro ⟨info, b, hinfo, -, hiff⟩
        cases hget.symm.trans hinfo
        exact hiff
      · intro hiff
        exact ⟨_, _, hget, hpop, hiff⟩
    rw [hmatches]
    by_cases hsmall : id.toNat < 1024
    · have hk : ((Fin.ofNat idAdapterSize id.toNat : Slot) : ℕ) = id.toNat :=
        Nat.mod_eq_of_lt hsmall
      refine iff_of_true ⟨fun hv => ?_, fun hal => ?_⟩ (.inl hsmall)
      · have hal := allocated_of_valid h hv
        rwa [hk] at hal
      · rw [← hk] at hal
        exact valid_of_allocated h hown hal
    · have hnone : ¬ Allocated ops id.toNat := by
        rintro ⟨k, hk, -⟩
        exact hsmall (hk ▸ k.isLt)
      simp [hnone, hsmall, hin]
  · refine iff_of_false ?_ ?_
    · rintro ⟨info, b, hinfo, -⟩
      rw [IDAdapter.get_of_slotOf_error hslot] at hinfo
      cases hinfo
    · rintro (hsmall | ⟨hin, -⟩)
      · omega
      · exact hout hin

/-- The last id leads to the index `-1`, and the id 1024 to the slot of the id zero. -/
theorem matches_unallocated :
    ¬ MatchesAllocated [] initAdapter 65535 ∧
    ∃ a rs info, run exec initAdapter [samplePush] = .ok (a, rs) ∧
      a.get (toShort 1024) = .ok (some info) ∧ ¬ MatchesAllocated [samplePush] a 1024 := by
  refine ⟨?_, ?_⟩
  · rintro ⟨info, b, hinfo, -⟩
    have hstop : stopOf (initAdapter.get (toShort 65535)) = some .fault := by decide
    rw [show initAdapter.get (toShort 65535) = .ok info from hinfo] at hstop
    cases hstop
  · obtain ⟨a, rs, hrun, hvalid, -⟩ := run_pushes 1 (by decide)
    have hslot : slotOf (toShort 1024) = .ok 0 := by decide
    have hget : a.get (toShort 1024) = .ok (some (a.data 0).info) := by
      rw [IDAdapter.get_of_slotOf hslot, IDAdapter.outstanding, hvalid 0]
      rfl
    refine ⟨a, rs, _, hrun, hget, ?_⟩
    rintro ⟨info, b, hinfo, -, hiff⟩
    cases hget.symm.trans hinfo
    obtain ⟨k, hk, -⟩ := hiff.mp (Option.some_ne_none _)
    exact absurd k.isLt (by rw [hk]; decide)

/-- The id of the only query in the table. -/
theorem matchesAllocated_sample :
    ∃ a rs, run exec initAdapter [samplePush] = .ok (a, rs) ∧
      MatchesAllocated [samplePush] a 0 := by
  obtain ⟨a, rs, hrun, -⟩ := run_pushes 1 (by decide)
  refine ⟨a, rs, hrun, (matchesAllocated_iff [samplePush] rs a hrun (along_of_mem ?_) 0).mpr
    (.inl (by decide))⟩
  simp [samplePush, popsOwn]

end Matching

section Cursor

/-- A `push` that was accepted. -/
def AdapterResult.isAccepted : AdapterResult → Bool
  | pushed (some _) => true
  | _ => false

open AdapterOp

/-- The number of accepted queries. -/
def accepted (rs : List AdapterResult) : ℕ := rs.countP AdapterResult.isAccepted

theorem accepted_cons (r : AdapterResult) (rs : List AdapterResult) :
    accepted (r :: rs) = accepted rs + if r.isAccepted then 1 else 0 := by
  rw [accepted, accepted, List.countP_cons]

/-- The cursor moves on with every accepted query and with nothing else. -/
theorem exec_next (h : exec a op = .ok (b, r)) :
    (b.next : ℕ) = (a.next + if r.isAccepted then 1 else 0) % 1024 := by
  have hstay : (a.next : ℕ) = (a.next + 0) % 1024 := (Nat.mod_eq_of_lt a.next.isLt).symm
  cases exec_outcome h with
  | refused hused heq =>
      subst heq
      exact hstay
  | accepted message hfree hpush heq =>
      subst heq
      exact Fin.val_add a.next 1
  | popped hk heq =>
      subst heq
      exact hstay
  | got heq =>
      subst heq
      exact hstay
  | @swept clock hsweep =>
      have hnext := ((IDAdapter.sweep_ensures a clock).result b hsweep).next_eq
      rw [hnext]
      exact hstay

theorem run_next (h : run exec a ops = .ok (b, rs)) :
    (b.next : ℕ) = (a.next + accepted rs) % 1024 := by
  induction ops generalizing a rs with
  | nil =>
      cases h
      exact (Nat.mod_eq_of_lt b.next.isLt).symm
  | cons op ops ih =>
      obtain ⟨a₁, r, rs', hexec, hrun, rfl⟩ := run_cons_eq_ok.mp h
      rw [ih hrun, exec_next hexec, accepted_cons]
      omega

/-- The cursor does not pass a slot that stays in use: from `j` slots behind it, at most
`1024 - j` further queries are accepted. -/
theorem accepted_le {j : ℕ} (hk : (a.data k).valid = true) (hnext : (a.next : ℕ) = (k + j) % 1024)
    (hj : j ≤ 1024) (hfree : along exec (fun s op => !op.frees k s) a ops = true)
    (h : run exec a ops = .ok (b, rs)) : j + accepted rs ≤ 1024 := by
  induction ops generalizing a j rs with
  | nil =>
      cases h
      exact hj
  | cons op ops ih =>
      obtain ⟨a₁, r, rs', hexec, hrun, rfl⟩ := run_cons_eq_ok.mp h
      simp only [along, hexec, Bool.and_eq_true] at hfree
      have hsame : a₁.data k = a.data k := exec_frame hexec hk (by simpa using hfree.1)
      have hnext₁ := exec_next hexec
      rw [accepted_cons]
      cases hr : r.isAccepted with
      | false =>
          rw [hr, hnext] at hnext₁
          have hle := ih (hsame ▸ hk) (by simpa using hnext₁) hj hfree.2 hrun
          simpa using hle
      | true =>
          rw [hr, hnext] at hnext₁
          -- the slot of an accepted query was free, so the cursor is not at `k`
          have hne : j ≠ 1024 := by
            rintro rfl
            have hcursor : a.next = k := by
              refine Fin.ext ?_
              rw [hnext, Nat.add_mod_right]
              exact Nat.mod_eq_of_lt k.isLt
            have hfreed : (a.data a.next).valid = false := by
              cases r with
              | pushed id =>
                  cases id with
                  | none => cases hr
                  | some i =>
                      obtain ⟨hi, hv, -⟩ := exec_pushed hexec
                      rw [hi, hv]
              | popped => cases hr
              | got info => cases hr
              | swept replies => cases hr
            rw [hcursor, hk] at hfreed
            cases hfreed
          have hle := ih (hsame ▸ hk) (j := j + 1) (by simp only [if_true] at hnext₁; omega)
            (by omega) hfree.2 hrun
          simp only [if_true]
          omega

/-- The query that was accepted a full turn of the cursor ago has not been taken back. -/
def OldestWaits (ops : List AdapterOp) : Prop :=
  ∃ k b after t rs, Pushed ops k b after ∧ run exec b after = .ok (t, rs) ∧
    accepted rs + 1 = idAdapterSize ∧ along exec (fun s op => !op.frees k s) b after = true

/-- The slot at the cursor is in use exactly when the query waits that took it a turn ago. -/
theorem cursor_used_iff (h : run exec initAdapter ops = .ok (a, rs)) :
    (a.data a.next).valid = true ↔ OldestWaits ops := by
  constructor
  · intro hvalid
    obtain ⟨b, after, hpushed, hfree⟩ := exists_pushed h hvalid
    obtain ⟨rs', hafter⟩ := hpushed.run_after h
    obtain ⟨before, op, a₁, rs₁, hops, hbefore, hexec⟩ := hpushed
    obtain ⟨-, -, hb, hbnext⟩ := exec_pushed hexec
    have hcursor : (b.next : ℕ) = (a.next + 1) % 1024 := by
      rw [hbnext]
      exact Fin.val_add a.next 1
    have hle := accepted_le hb hcursor (by decide) hfree hafter
    have hturn := run_next hafter
    have hlt := a.next.isLt
    refine ⟨a.next, b, after, a, rs', ⟨before, op, a₁, rs₁, hops, hbefore, hexec⟩, hafter, ?_,
      hfree⟩
    rw [hcursor] at hturn
    simp only [idAdapterSize] at hlt ⊢
    omega
  · rintro ⟨k, b, after, t, rs', hpushed, hafter, hcount, hfree⟩
    obtain ⟨rs₂, hafter'⟩ := hpushed.run_after h
    cases hafter.symm.trans hafter'
    obtain ⟨before, op, a₁, rs₁, -, -, hexec⟩ := hpushed
    obtain ⟨-, -, hb, hbnext⟩ := exec_pushed hexec
    have hcursor : (b.next : ℕ) = (k + 1) % 1024 := by
      rw [hbnext]
      exact Fin.val_add k 1
    have hturn := run_next hafter
    have hlt := k.isLt
    have hnext : a.next = k := by
      refine Fin.ext ?_
      rw [hcursor] at hturn
      simp only [idAdapterSize] at hlt hcount
      omega
    rw [hnext, run_frame hb hfree hafter]
    exact hb

/-- `IDAdapter_push` returns `-1` exactly when all slots are in use, and accepts every query
that fits its array while one is free. -/
structure PushFailsWhenFull (a : IDAdapter) : Prop where
  fails : ∀ id source type time buffer b r, a.push id source type time buffer = .ok (b, r) →
    (r = none ↔ ∀ k, (a.data k).valid = true)
  accepts : (∃ k, (a.data k).valid = false) → ∀ id source type time buffer text,
    cString buffer = .ok text → text.length < 1024 →
      ∃ b k, a.push id source type time buffer = .ok (b, some k)

/-- A `push` fails only when the table is full exactly when the cursor finds a free slot, that
is the query accepted a full turn ago has been taken back, or when the table is full. -/
theorem pushFailsWhenFull_iff (ops : List AdapterOp) (rs : List AdapterResult) (a : IDAdapter)
    (h : run exec initAdapter ops = .ok (a, rs)) :
    PushFailsWhenFull a ↔ ¬ OldestWaits ops ∨ ∀ k, (a.data k).valid = true := by
  rw [← cursor_used_iff h, Bool.not_eq_true]
  have hsized : ∀ k, (a.data k).message.length = 1024 :=
    run_invariant (fun a => ∀ k, (a.data k).message.length = 1024)
      (fun _ _ _ _ _ ha hexec => exec_message_length hexec ha)
      (fun _ => List.length_replicate) h
  constructor
  · intro hfails
    by_contra hcond
    obtain ⟨hused, hfull⟩ := not_or.mp hcond
    have hpush : a.push 0 ⟨0, 0, 0⟩ 0 0 [] = .ok ({ a with lock := true }, none) :=
      IDAdapter.push_of_used (Bool.of_not_eq_false hused)
    exact hfull ((hfails.fails _ _ _ _ _ _ _ hpush).mp rfl)
  · intro hcond
    refine ⟨fun id source type time buffer b r hpush => ?_,
      fun ⟨k, hk⟩ id source type time buffer text htext hlen => ?_⟩
    · rcases IDAdapter.push_cases hpush with ⟨hused, rfl, -⟩ | ⟨hfree, rfl, -⟩
      · refine iff_of_true rfl (hcond.resolve_left ?_)
        rw [hused]
        decide
      · refine iff_of_false nofun fun hfull => ?_
        rw [hfull] at hfree
        cases hfree
    · have hfree : (a.data a.next).valid = false := by
        refine hcond.resolve_right fun hfull => ?_
        rw [hfull] at hk
        cases hk
      exact ⟨_, _, IDAdapter.push_of_free hfree htext (by rw [hsized]; exact hlen)⟩

/-- After a full table the answer to the second query frees a slot, and the next query is
refused nevertheless, since the first one still waits. -/
theorem push_fails_with_free_slot :
    ∃ a rs, run exec initAdapter (List.replicate 1024 samplePush ++ [.pop 1]) = .ok (a, rs) ∧
      (a.data 1).valid = false ∧
      a.push 0 ⟨0, 0, 0⟩ 0 0 [] = .ok ({ a with lock := true }, none) ∧
      ¬ PushFailsWhenFull a := by
  obtain ⟨a, rs, hrun, hvalid, hnext, -⟩ := run_pushes 1024 le_rfl
  have hslot : slotOf 1 = .ok 1 := by decide
  obtain ⟨b, hpop, hfreed, hcursor⟩ : ∃ b, a.pop 1 = .ok b ∧ (b.data 1).valid = false ∧
      b.next = 0 :=
    ⟨_, IDAdapter.pop_of_slotOf hslot, by simp [IDAdapter.set], Fin.ext hnext⟩
  have hused : (b.data b.next).valid = true := by
    have hne : slotOf 1 ≠ .ok 0 := by decide
    rw [hcursor, IDAdapter.pop_frame hpop hne]
    exact hvalid 0
  have hexec : exec a (.pop 1) = .ok (b, .popped) := bind_eq_ok.mpr ⟨b, hpop, rfl⟩
  have hpush : b.push 0 ⟨0, 0, 0⟩ 0 0 [] = .ok ({ b with lock := true }, none) :=
    IDAdapter.push_of_used hused
  refine ⟨b, rs ++ [.popped], run_append_eq_ok.mpr ⟨a, rs, _, hrun,
    run_singleton_eq_ok.mpr ⟨_, hexec, rfl⟩, rfl⟩, hfreed, hpush, fun hfails => ?_⟩
  have hfull := (hfails.fails _ _ _ _ _ _ _ hpush).mp rfl 1
  rw [hfreed] at hfull
  cases hfull

/-- One query in the table leaves the cursor at a free slot. -/
theorem pushFailsWhenFull_sample :
    ∃ a rs, run exec initAdapter [samplePush] = .ok (a, rs) ∧ PushFailsWhenFull a := by
  obtain ⟨a, rs, hrun, hvalid, hnext, -⟩ := run_pushes 1 (by decide)
  refine ⟨a, rs, hrun, (pushFailsWhenFull_iff [samplePush] rs a hrun).mpr (.inl ?_)⟩
  intro hwaits
  have hused := (cursor_used_iff hrun).mpr hwaits
  rw [hvalid, hnext] at hused
  cases hused

end Cursor

end DnsRelay.Adapter
