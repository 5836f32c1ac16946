import DnsRelay.ThreadPool.Delivery

/-!
# Execution of tasks

A worker runs the item it has taken after it has released the lock, while the other
threads go on. The item stays its own until it frees it, so what the worker runs is what
it took, once and in the order of taking.
-/

namespace DnsRelay.ThreadPool

open Function DnsRelay.Lib DnsRelay.Lib.Chain

variable {n : ℕ} {P R A : Type}

section Events

variable {evs : List (Event n R A)} {e : Event n R A} {w : Fin n}

def Event.ranTask : Event n R A → Option (Fin n × (R × A))
  | .ran w task => some (w, task)
  | _ => none

/-- The tasks whose routine was called, each with its worker. -/
def ran (evs : List (Event n R A)) : List (Fin n × (R × A)) := evs.filterMap Event.ranTask

/-- The tasks of one worker in a list of tasks with their workers. -/
def ofWorker (w : Fin n) (l : List (Fin n × (R × A))) : List (R × A) :=
  (l.filter (·.1 = w)).map Prod.snd

theorem ran_concat : ran (evs ++ [e]) = ran evs ++ e.ranTask.toList := by
  unfold ran
  cases h : e.ranTask with
  | none => simp [h]
  | some p => simp [h]

theorem ofWorker_append (l m : List (Fin n × (R × A))) :
    ofWorker w (l ++ m) = ofWorker w l ++ ofWorker w m := by
  simp [ofWorker]

@[simp] theorem ofWorker_nil : ofWorker w ([] : List (Fin n × (R × A))) = [] := rfl

theorem ofWorker_self (task : R × A) : ofWorker w [(w, task)] = [task] := by
  simp [ofWorker]

theorem ofWorker_of_ne {v : Fin n} (h : v ≠ w) (task : R × A) : ofWorker w [(v, task)] = [] := by
  simp [ofWorker, h]

end Events

namespace Tpool

variable {s t : Tpool n P R A} {e : Event n R A} {w : Fin n} {p : P} {ts : List (R × A)}
  {evs : List (Event n R A)}

/-- The task that a worker has taken and not yet run. -/
def due (s : Tpool n P R A) (w : Fin n) : List (R × A) :=
  match s.workers w with
  | .running p => (s.taskAt p).toList
  | _ => []

theorem due_of_running (h : s.workers w = .running p) : s.due w = (s.taskAt p).toList := by
  simp [due, h]

theorem due_of_not_running (h : ∀ p, s.workers w ≠ .running p) : s.due w = [] := by
  unfold due
  split
  next p hp => exact absurd hp (h p)
  next => rfl

/-- A worker stays where it is and keeps its item, or moves without having one before or
after. -/
def Keeps (s t : Tpool n P R A) (w : Fin n) : Prop :=
  (t.workers w = s.workers w ∧ ∀ p, s.workers w = .running p → t.taskAt p = s.taskAt p) ∨
    (∀ p, s.workers w ≠ .running p) ∧ ∀ p, t.workers w ≠ .running p

theorem Keeps.due (h : Keeps s t w) : t.due w = s.due w := by
  rcases h with ⟨hw, htask⟩ | ⟨hs, ht⟩
  · unfold Tpool.due
    rw [hw]
    split
    next p hp => rw [htask p hp]
    next => rfl
  · rw [due_of_not_running hs, due_of_not_running ht]

/-- One worker moves between positions without an item, and no item changes. -/
theorem keeps_update {v : Fin n} {pc : WorkerPc P} (hheap : t.heap = s.heap)
    (hw : t.workers = update s.workers v pc) (hs : ∀ p, s.workers v ≠ .running p)
    (ht : ∀ p, pc ≠ .running p) (w : Fin n) : Keeps s t w := by
  by_cases hv : w = v
  · subst hv
    refine .inr ⟨hs, fun p => ?_⟩
    rw [hw, update_self]
    exact ht p
  · refine .inl ⟨by rw [hw, update_of_ne hv], fun p _ => ?_⟩
    rw [taskAt, taskAt, hheap]

theorem due_of_stays (hheap : t.heap = s.heap) (hw : t.workers w = s.workers w) :
    t.due w = s.due w := by
  have hkeep : Keeps s t w := .inl ⟨hw, fun p _ => by rw [taskAt, taskAt, hheap]⟩
  exact hkeep.due

variable [DecidableEq P]

/-- Waking waiters up changes no position with an item. -/
theorem keeps_awaken {woken : Finset (Fin n)} (hw : t.workers = (s.awaken woken).workers)
    (htask : t.taskAt = s.taskAt) (w : Fin n) : Keeps s t w := by
  rcases awaken_workers s woken w with h | ⟨hwait, hwoken⟩
  · exact .inl ⟨by rw [hw, h], fun p _ => by rw [htask]⟩
  · refine .inr ⟨fun p => ?_, fun p => ?_⟩
    · simp [hwait]
    · simp [hw, hwoken]

/-- What a worker has taken in a step and had due before is what it has run and has due after
it. -/
def Settles (s t : Tpool n P R A) (e : Event n R A) : Prop :=
  ∀ w, s.due w ++ ofWorker w e.takenTask.toList = ofWorker w e.ranTask.toList ++ t.due w

omit [DecidableEq P] in
theorem settles_of_keeps (htaken : e.takenTask = none) (hran : e.ranTask = none)
    (h : ∀ w, Keeps s t w) : Settles s t e := by
  intro w
  simp [htaken, hran, (h w).due]

theorem WorkerStep.settles {v : Fin n} (h : WorkerStep s v t e) (hq : s.Queued ts) :
    Settles s t e := by
  obtain ⟨own, q, ho, -⟩ := hq
  cases h with
  | take hpc hhead hnode =>
      intro w
      by_cases hv : w = v
      · subst hv
        rw [due_of_not_running (by simp [hpc]), due_of_running (by simp; rfl)]
        simp [Event.takenTask, Event.ranTask, ofWorker_self, taskAt, hnode]
      · simp only [Event.takenTask, Event.ranTask, Option.toList_some, Option.toList_none,
          ofWorker_of_ne (Ne.symm hv), ofWorker_nil, List.append_nil, List.nil_append]
        symm
        apply due_of_stays
        · rfl
        · exact update_of_ne hv _ _
  | run hpc hnode =>
      intro w
      by_cases hv : w = v
      · subst hv
        rw [due_of_running hpc, due_of_not_running (by simp)]
        simp [Event.takenTask, Event.ranTask, ofWorker_self, taskAt, hnode]
      · simp only [Event.takenTask, Event.ranTask, Option.toList_some, Option.toList_none,
          ofWorker_of_ne (Ne.symm hv), ofWorker_nil, List.append_nil, List.nil_append]
        symm
        apply due_of_stays
        · rfl
        · exact update_of_ne hv _ _
  | @finish p node hpc hnode =>
      apply settles_of_keeps rfl rfl
      intro w
      by_cases hv : w = v
      · subst hv
        exact .inr ⟨by simp [hpc], by simp⟩
      · refine .inl ⟨update_of_ne hv _ _, fun p' hp' => ?_⟩
        have hne : p' ≠ p := by
          rintro rfl
          have hown := (ho.worker v p' (by rw [hpc]; rfl)).1
          rw [(ho.worker w p' (by rw [hp']; rfl)).1] at hown
          cases hown
          exact hv rfl
        simp [taskAt, hne]
  | acquire hpc =>
      refine settles_of_keeps rfl rfl (keeps_update rfl rfl ?_ (by simp))
      intro p
      rcases hpc with hpc | hpc
      · simp [hpc]
      · simp [hpc]
  | empty hpc | nonempty hpc | leaveLoop hpc | prepare hpc | wait hpc | leave hpc
  | stay hpc | exit hpc =>
      exact settles_of_keeps rfl rfl (keeps_update rfl rfl (by simp [hpc]) (by simp))

variable [Fintype P]

/-- While the queue is not discarded, every step of the pool settles. -/
theorem Step.settles (h : Step s t e) (hq : s.Queued ts)
    (hrelease : ∀ d p, s.destroyers d ≠ .release p) : Settles s t e := by
  cases h with
  | worker h => exact h.settles hq
  | wake hpc => exact settles_of_keeps rfl rfl (keeps_update rfl rfl (by simp [hpc]) (by simp))
  | refuse c => exact settles_of_keeps rfl rfl fun w => .inl ⟨rfl, fun p _ => rfl⟩
  | @build c work routine args hc hfree =>
      obtain ⟨own, q, ho, -⟩ := hq
      refine settles_of_keeps rfl rfl fun w => .inl ⟨rfl, fun p hp => ?_⟩
      have hne : p ≠ work := by
        rintro rfl
        have hsome := (ho.worker w p (by rw [hp]; rfl)).2
        rw [hfree] at hsome
        cases hsome
      simp [taskAt, hne]
  | @push c frame woken t' hc _ _ _ hlink =>
      obtain ⟨own, q, ho, -⟩ := hq
      obtain ⟨t'', hlink', -, htask, -⟩ := link_of_hangs ho.chain ho.nodup
        (ho.notMem_of_caller hc) (next_of_heap (ho.caller c frame hc).2)
      rw [hlink] at hlink'
      cases hlink'
      have hworkers : t'.workers = s.workers := by
        obtain ⟨head, heap, rfl⟩ := link_frame hlink
        rfl
      have hawaken : (({ t' with callers := update t'.callers c none } :
          Tpool n P R A).awaken woken).workers = (s.awaken woken).workers := by
        simp only [awaken, hworkers]
      exact settles_of_keeps rfl rfl (keeps_awaken hawaken htask)
  | destroy h =>
      cases h with
      | release hpc => exact absurd hpc (hrelease _ _)
      | broadcast => exact settles_of_keeps rfl rfl (keeps_awaken rfl rfl)
      | giveUp | begin | shut | join | joined | empty | nonempty | unlink | teardown =>
          exact settles_of_keeps rfl rfl fun w => .inl ⟨rfl, fun p _ => rfl⟩

/-- When all workers have exited no worker takes or runs anything any more. -/
theorem Step.settles_of_exited (h : Step s t e) (hs : ∀ w, s.workers w = .exited) :
    Settles s t e := by
  have hnone : ∀ w, (∀ p, s.workers w ≠ .running p) ∧ ∀ p, t.workers w ≠ .running p := by
    intro w
    rw [h.exited (hs w), hs w]
    exact ⟨by simp, by simp⟩
  have hworker : ∀ w, ¬ ∃ t e, WorkerStep s w t e := by
    rintro w ⟨t, e, h⟩
    obtain ⟨-, -, hlive, -⟩ := h.moves
    exact hlive (hs w)
  apply settles_of_keeps
  · exact h.takenTask_eq_none fun w => by simp [hs w]
  · cases h with
    | worker h => exact absurd ⟨_, _, h⟩ (hworker _)
    | destroy h => cases h <;> rfl
    | wake | refuse | build | push => rfl
  · exact fun w => .inr (hnone w)

/-- What a run has taken and run, beside the rest of its history. -/
structure Executed (s : Tpool n P R A) (evs : List (Event n R A)) : Prop where
  history : History s evs
  tasks : ∀ w, ofWorker w (taken evs) = ofWorker w (ran evs) ++ s.due w

theorem Executed.step (h : Executed s evs) (hs : Step s t e) : Executed t (evs ++ [e]) := by
  have hsettles : Settles s t e := by
    by_cases hd : evs.any Event.discards = true
    · exact hs.settles_of_exited (h.history.discarded hd)
    · obtain ⟨ts, hq, -⟩ := h.history.queue (Bool.eq_false_iff.mpr hd)
      exact hs.settles hq fun d p hp => hd (h.history.release d p hp)
  refine ⟨h.history.step hs, fun w => ?_⟩
  calc ofWorker w (taken (evs ++ [e]))
      = ofWorker w (ran evs) ++ (s.due w ++ ofWorker w e.takenTask.toList) := by
        rw [taken_concat, ofWorker_append, h.tasks w, List.append_assoc]
    _ = ofWorker w (ran (evs ++ [e])) ++ t.due w := by
        rw [hsettles w, ran_concat, ofWorker_append, List.append_assoc]

theorem executed_of_run {acts : List (Action n P R A)}
    (h : (createTpool n P R A).runFrom acts = .ok (s, evs)) : Executed s evs := by
  have hinit : Executed (createTpool n P R A) [] := ⟨history_createTpool, fun _ => rfl⟩
  exact Machine.run_history (fun s evs => Executed s evs)
    (fun s a s' e evs hs hstep => hs.step (step_cases hstep)) hinit h

end Tpool

/-- In every run of the pool, whatever the interleaving, each worker has called the routines of
exactly the tasks it has taken, once each and in the order of taking, except for the task of the
item it holds and has not run yet. -/
theorem tpool_runs_once {P R A : Type} [DecidableEq P] [Fintype P] (acts : List (Action n P R A))
    (s : Tpool n P R A) (evs : List (Event n R A))
    (h : (createTpool n P R A).runFrom acts = .ok (s, evs)) (w : Fin n) :
    ofWorker w (taken evs) = ofWorker w (ran evs) ++ s.due w ∧ (s.due w).length ≤ 1 := by
  refine ⟨(Tpool.executed_of_run h).tasks w, ?_⟩
  unfold Tpool.due
  split
  next p _ =>
    cases s.taskAt p with
    | none => simp
    | some task => simp
  next => simp

/-- The worker has run the first task, and the second is still in the queue. -/
theorem tpool_runs_once_shutdownRun :
    ∃ s evs, (createTpool 1 (Fin 2) ℕ Unit).runFrom shutdownRun = .ok (s, evs) ∧
      ofWorker 0 (ran evs) = [(7, ())] ∧
      ofWorker 0 (taken evs) = ofWorker 0 (ran evs) ++ s.due 0 := by
  have hran : ((createTpool 1 (Fin 2) ℕ Unit).runFrom shutdownRun).map
      (fun p => ofWorker 0 (ran p.2)) = .ok [(7, ())] := by decide
  obtain ⟨⟨s, evs⟩, h, hran⟩ := Machine.map_eq_ok.mp hran
  exact ⟨s, evs, h, hran, (tpool_runs_once shutdownRun s evs h 0).1⟩

end DnsRelay.ThreadPool
