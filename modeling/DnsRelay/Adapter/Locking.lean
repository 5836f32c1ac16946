import DnsRelay.Adapter.Allocation

/-!
# The lock of the adapter

Every call takes the lock and gives it back before it returns, except for a `push` that finds
the slot at the cursor in use: it returns `-1` between the two. So the lock is balanced in the
runs in which no `push` comes to such a slot, and in no other run.
-/

namespace DnsRelay.Adapter

open DnsRelay.Lib.Machine

/-- The call, if it is a `push`, finds the slot at the cursor free. -/
def AdapterOp.findsFree (a : IDAdapter) : AdapterOp → Bool
  | push _ _ _ _ _ => !(a.data a.next).valid
  | _ => true

open AdapterOp

variable {a b : IDAdapter} {op : AdapterOp} {r : AdapterResult} {ops : List AdapterOp}

/-- The call has returned with the lock not held, and has changed nothing if it is a `push`
that fails. -/
def ReturnsLock (a b : IDAdapter) (r : AdapterResult) : Prop :=
  b.lock = false ∧ (r = .pushed none → b = a)

/-- Every call of the run that returns does so with the lock not held, and a `push` that fails
leaves the adapter as it was. -/
def LockBalanced (a₀ : IDAdapter) (ops : List AdapterOp) : Prop :=
  ∀ before op after a rs b r, ops = before ++ op :: after → run exec a₀ before = .ok (a, rs) →
    exec a op = .ok (b, r) → ReturnsLock a b r

/-- A call that starts without the lock returns it exactly when it does not come to a slot in
use. -/
theorem returnsLock_iff (ha : a.lock = false) (h : exec a op = .ok (b, r)) :
    ReturnsLock a b r ↔ op.findsFree a = true := by
  cases exec_outcome h with
  | refused hused heq =>
      -- the return between the two calls on the lock
      subst heq
      refine iff_of_false ?_ ?_
      · rintro ⟨hlock, -⟩
        cases hlock
      · simp [findsFree, hused]
  | accepted message hfree hpush heq =>
      subst heq
      refine iff_of_true ⟨rfl, nofun⟩ ?_
      simp [findsFree, hfree]
  | popped hk heq =>
      subst heq
      exact iff_of_true ⟨rfl, nofun⟩ rfl
  | got heq =>
      subst heq
      exact iff_of_true ⟨ha, nofun⟩ rfl
  | @swept clock hsweep =>
      have hlock := ((IDAdapter.sweep_ensures a clock).result b hsweep).lock_eq
      exact iff_of_true ⟨hlock.trans ha, nofun⟩ rfl

/-- A call that does not return is not a `push` to a slot in use. -/
theorem findsFree_of_stop {e : Stop} (h : exec a op = .error e) : op.findsFree a = true := by
  cases op with
  | push id source type time buffer =>
      cases hused : (a.data a.next).valid with
      | false => simp [findsFree, hused]
      | true =>
          rw [exec, IDAdapter.push_of_used hused] at h
          cases h
  | pop pos => rfl
  | get pos => rfl
  | sweep clock => rfl

/-- A run is balanced when its first call is and the run from there on is. -/
theorem lockBalanced_cons :
    LockBalanced a (op :: ops) ↔
      ∀ b r, exec a op = .ok (b, r) → ReturnsLock a b r ∧ LockBalanced b ops := by
  constructor
  · intro h b r hexec
    refine ⟨h [] op ops a [] b r rfl rfl hexec, ?_⟩
    intro before op' after a' rs b' r' hops hrun hexec'
    refine h (op :: before) op' after a' (r :: rs) b' r' (by rw [hops]; rfl) ?_ hexec'
    exact run_cons_eq_ok.mpr ⟨b, r, rs, hexec, hrun, rfl⟩
  · intro h before op' after a' rs b' r' hops hrun hexec'
    cases before with
    | nil =>
        cases hops
        cases hrun
        exact (h b' r' hexec').1
    | cons op₁ before =>
        cases hops
        obtain ⟨b, r, rs', hexec, hrest, -⟩ := run_cons_eq_ok.mp hrun
        exact (h b r hexec).2 before op' after a' rs' b' r' rfl hrest hexec'

theorem lockBalanced_iff_along (ha : a.lock = false) :
    LockBalanced a ops ↔ along exec (fun s op => op.findsFree s) a ops = true := by
  induction ops generalizing a with
  | nil =>
      refine iff_of_true ?_ rfl
      intro before op after a' rs b r hops
      simp at hops
  | cons op ops ih =>
      rw [lockBalanced_cons, along, Bool.and_eq_true]
      cases hexec : exec a op with
      | error e => simp [findsFree_of_stop hexec]
      | ok p =>
          obtain ⟨b, r⟩ := p
          rw [← returnsLock_iff ha hexec]
          constructor
          · intro h
            obtain ⟨hfirst, hrest⟩ := h b r rfl
            exact ⟨hfirst, (ih hfirst.1).mp hrest⟩
          · rintro ⟨hfirst, hrest⟩ b' r' ⟨⟩
            exact ⟨hfirst, (ih hfirst.1).mpr hrest⟩

/-- The calls of a run from the initial table return the lock exactly when every `push` of the
run finds the slot at the cursor free. -/
theorem lock_balanced_iff (ops : List AdapterOp) :
    LockBalanced initAdapter ops ↔
      along exec (fun s op => op.findsFree s) initAdapter ops = true :=
  lockBalanced_iff_along rfl

/-- When the table is full of waiting queries, the next `push` keeps the lock. -/
theorem full_push_keeps_lock :
    (∃ a rs b, run exec initAdapter (List.replicate 1024 samplePush) = .ok (a, rs) ∧
      exec a samplePush = .ok (b, .pushed none) ∧ b.lock = true) ∧
    ¬ ∀ ops, LockBalanced initAdapter ops := by
  obtain ⟨a, rs, hrun, hvalid, -⟩ := run_pushes 1024 le_rfl
  have hused : (a.data a.next).valid = true := by
    rw [hvalid]
    exact decide_eq_true a.next.isLt
  have hexec : exec a samplePush = .ok ({ a with lock := true }, .pushed none) := by
    rw [samplePush, exec, IDAdapter.push_of_used hused]
    rfl
  refine ⟨⟨a, rs, _, hrun, hexec, rfl⟩, fun hall => ?_⟩
  have hlast := hall (List.replicate 1024 samplePush ++ [samplePush]) _ samplePush [] a rs _ _ rfl
    hrun hexec
  cases hlast.1

end DnsRelay.Adapter
