import DnsRelay.Lib.Progress
import DnsRelay.ThreadPool.Execution
import DnsRelay.ThreadPool.Wakeup
import Mathlib.Algebra.Order.BigOperators.Group.Finset

/-!
# Progress of the pool

Every step of a worker lowers a rank: the items in the queue count seven each, and each
position of a worker counts the steps that are left in its round. So however the workers
are scheduled they come to rest, and when they have, the lock is free, the queue is empty
and everything accepted has been run.
-/

namespace DnsRelay.ThreadPool

open Function DnsRelay.Lib

variable {n : ℕ} {P R A : Type}

/-- The steps that a worker has left before it waits, takes an item or is gone. -/
def WorkerPc.rank : WorkerPc P → ℕ
  | .running _ => 7
  | .finished _ => 6
  | .lock | .woken => 5
  | .testHead => 4
  | .testShutdown => 3
  | .checkShutdown | .wait => 2
  | .take | .exiting => 1
  | .waiting | .exited => 0

theorem WorkerPc.rank_le (pc : WorkerPc P) : pc.rank ≤ 7 := by
  cases pc <;> simp [WorkerPc.rank]

namespace Tpool

variable {s t : Tpool n P R A} {e : Event n R A} {w : Fin n} {ts : List (R × A)}
  {evs : List (Event n R A)}

/-- The sum of the ranks of the workers. -/
def workersRank (s : Tpool n P R A) : ℕ := ∑ w, (s.workers w).rank

theorem workersRank_le (s : Tpool n P R A) : s.workersRank ≤ 7 * n := by
  calc s.workersRank ≤ ∑ _w : Fin n, 7 := Finset.sum_le_sum fun w _ => (s.workers w).rank_le
    _ = 7 * n := by simp [mul_comm]

variable [DecidableEq P]

/-- A worker lowers its rank, or takes an item. -/
theorem WorkerStep.rank (h : WorkerStep s w t e) :
    t.workersRank < s.workersRank + 7 * e.takenTask.toList.length := by
  have hmove : ∀ pc, t.workers = update s.workers w pc →
      pc.rank < (s.workers w).rank + 7 * e.takenTask.toList.length →
      t.workersRank < s.workersRank + 7 * e.takenTask.toList.length := by
    intro pc hw hpc
    have hsum := sum_update_add WorkerPc.rank s.workers w pc
    rw [workersRank, workersRank, hw]
    omega
  cases h with
  | acquire hpc =>
      apply hmove _ rfl
      rcases hpc with hpc | hpc
      · simp [hpc, WorkerPc.rank, Event.takenTask]
      · simp [hpc, WorkerPc.rank, Event.takenTask]
  | take hpc =>
      apply hmove _ rfl
      simp [hpc, WorkerPc.rank, Event.takenTask]
  | empty hpc | nonempty hpc | leaveLoop hpc | prepare hpc | wait hpc | leave hpc | stay hpc
  | run hpc | finish hpc | exit hpc =>
      apply hmove _ rfl
      simp [hpc, WorkerPc.rank, Event.takenTask]

/-- A worker that cannot move waits, is gone, or lacks the lock that another one holds. -/
theorem stepWorker_blocked (h : s.stepWorker w = .error .blocked) :
    s.workers w = .waiting ∨ s.workers w = .exited ∨
      (s.workers w).holds = false ∧ s.queueLock ≠ none := by
  have hacquire : s.acquire w = .error .blocked → s.queueLock ≠ none := by
    intro h hlock
    simp [acquire, hlock] at h
  unfold stepWorker at h
  split at h
  · cases h
  · split at h
    case h_1 hpc => exact .inr (.inr ⟨by rw [hpc]; rfl, hacquire h⟩)
    case h_5 hpc => exact .inl hpc
    case h_6 hpc => exact .inr (.inr ⟨by rw [hpc]; rfl, hacquire h⟩)
    case h_12 hpc => exact .inr (.inl hpc)
    case h_4 | h_11 => cases h
    case h_2 | h_3 | h_7 | h_9 | h_10 =>
      split at h
      · cases h
      · cases h
    case h_8 =>
      split at h
      · cases h
      · split at h
        · cases h
        · cases h

/-- When no worker can move, nobody holds the lock, and all of them wait or are gone. -/
theorem Sound.at_rest (hs : Sound s) (h : ∀ w, s.stepWorker w = .error .blocked) :
    s.queueLock = none ∧ ∀ w, s.workers w = .waiting ∨ s.workers w = .exited := by
  have hlock : s.queueLock = none := by
    apply Option.eq_none_iff_forall_not_mem.mpr
    intro v hv
    have hholds := (hs.lock v).mpr hv
    rcases stepWorker_blocked (h v) with hpc | hpc | ⟨hpc, -⟩
    · rw [hpc] at hholds
      cases hholds
    · rw [hpc] at hholds
      cases hholds
    · rw [hpc] at hholds
      cases hholds
  refine ⟨hlock, fun w => ?_⟩
  rcases stepWorker_blocked (h w) with hpc | hpc | ⟨-, hheld⟩
  · exact .inl hpc
  · exact .inr hpc
  · exact absurd hlock hheld

/-- Before the discarding, a step of a worker takes the first item off the queue or leaves the
queue alone. -/
theorem WorkerStep.queued [Fintype P] (h : WorkerStep s w t e) (hs : Sound s)
    (hq : s.Queued ts) :
    ∃ rest, t.Queued rest ∧ ts.length = e.takenTask.toList.length + rest.length := by
  obtain ⟨-, -, hlive, -⟩ := h.moves
  have hrelease : ∀ d p, s.destroyers d ≠ .release p := by
    intro d p hp
    have hok := hs.destroyer d
    rw [hp] at hok
    exact hlive (hok.2 w)
  have hworker : e.discards = false ∧ e.acceptedTask = none := by
    cases h <;> exact ⟨rfl, rfl⟩
  obtain ⟨rest, hrest, heq⟩ := Step.queued (.worker h) hq hworker.1 hrelease
  refine ⟨rest, hrest, ?_⟩
  have hlen := congrArg List.length heq
  simpa [hworker.2] using hlen

/-- The queue has so many items, and the workers so many steps left, that the rank is `m`. -/
def Ranked (s : Tpool n P R A) (m : ℕ) : Prop :=
  Sound s ∧ ∃ ts, s.Queued ts ∧ 7 * ts.length + s.workersRank = m

theorem WorkerStep.ranked [Fintype P] {m : ℕ} (h : WorkerStep s w t e) (hr : Ranked s m) :
    ∃ m' < m, Ranked t m' := by
  obtain ⟨hs, ts, hq, rfl⟩ := hr
  obtain ⟨rest, hrest, hlen⟩ := h.queued hs hq
  have hrank := h.rank
  refine ⟨_, ?_, hs.step (.worker h), rest, hrest, rfl⟩
  omega

variable [Fintype P]

/-- The pool is freed only after `shutdown` has been set. -/
theorem Step.shutdown_of_freed (h : Step s t e) (hs : Sound s)
    (hf : s.freed = true → s.shutdown = true) (ht : t.freed = true) : t.shutdown = true := by
  cases h with
  | worker h => cases h <;> exact hf ht
  | wake | refuse | build => exact hf ht
  | push hc hlive hlock hwoken hlink =>
      obtain ⟨head, heap, rfl⟩ := link_frame hlink
      exact hf ht
  | @destroy d _ _ h =>
      cases h with
      | shut => rfl
      | teardown hpc =>
          have hok := hs.destroyer d
          rw [hpc] at hok
          exact hok.1
      | giveUp | begin | broadcast | join | joined | empty | nonempty | unlink | release =>
          exact hf ht

theorem shutdown_of_freed {acts : List (Action n P R A)}
    (h : (createTpool n P R A).runFrom acts = .ok (s, evs)) (hf : s.freed = true) :
    s.shutdown = true := by
  have hrun : Sound s ∧ (s.freed = true → s.shutdown = true) :=
    Machine.run_invariant (fun s => Sound s ∧ (s.freed = true → s.shutdown = true))
      (fun a _ s s' e hs hstep => by
        have hcases := step_cases hstep
        exact ⟨hs.1.step hcases, hcases.shutdown_of_freed hs.1 hs.2⟩)
      ⟨sound_createTpool, fun hf => by cases hf⟩ h
  exact hrun.2 hf

omit [DecidableEq P] [Fintype P] in
/-- While `shutdown` is not set nothing has been discarded. -/
theorem History.not_discarded (h : History s evs) (hn : 0 < n) (hshut : s.shutdown = false) :
    evs.any Event.discards = false := by
  apply Bool.eq_false_iff.mpr
  intro hd
  exact h.sound.not_exited hshut ⟨0, hn⟩ (h.discarded hd ⟨0, hn⟩)

omit [DecidableEq P] [Fintype P] in
/-- An empty queue has no tasks. -/
theorem Queued.eq_nil (h : s.Queued ts) (hhead : s.tpoolHead = none) : ts = [] := by
  obtain ⟨own, q, ho, htasks⟩ := h
  have hchain := ho.chain
  rw [hhead] at hchain
  cases q with
  | nil => simpa using htasks
  | cons p q => cases (Chain.hangs_cons.mp hchain).1

theorem runFrom_workers_shutdown {more : List (Action n P R A)}
    (hmore : ∀ a ∈ more, ∃ w, a = .worker w) (hshut : s.shutdown = false)
    (ht : s.runFrom more = .ok (t, evs)) : t.shutdown = false :=
  Machine.run_invariant (fun s => s.shutdown = false)
    (fun a ha s s' e hs hstep => by
      obtain ⟨w, rfl⟩ := hmore a ha
      obtain ⟨-, -, -, -, hsame, -⟩ := (workerStep_of_stepWorker hstep).moves
      exact hsame.trans hs) hshut ht

end Tpool

/-- From every state that a pool with a worker reaches before `shutdown` is set, however its
workers alone go on from there: they take at most so many steps, none of them faults, and when
none can move any more the queue is empty, every accepted task has been taken and every task
that was taken has been run by its worker. -/
theorem tpool_drains {P R A : Type} [DecidableEq P] [Fintype P] (hn : 0 < n)
    (acts more : List (Action n P R A)) (s t : Tpool n P R A) (evs evs' : List (Event n R A))
    (hs : (createTpool n P R A).runFrom acts = .ok (s, evs)) (hshut : s.shutdown = false)
    (hmore : ∀ a ∈ more, ∃ w, a = .worker w) (ht : s.runFrom more = .ok (t, evs')) :
    more.length ≤ 7 * ((accepted evs).length - (taken evs).length + n) ∧
      (∀ w e, t.step (.worker w) ≠ .error (.stop e)) ∧
      ((∀ w, t.step (.worker w) = .error .blocked) →
        t.tpoolHead = none ∧ (taken (evs ++ evs')).map Prod.snd = accepted (evs ++ evs') ∧
        ∀ w, ofWorker w (ran (evs ++ evs')) = ofWorker w (taken (evs ++ evs'))) := by
  have hrun : (createTpool n P R A).runFrom (acts ++ more) = .ok (t, evs ++ evs') :=
    Machine.run_append_eq_ok.mpr ⟨s, evs, evs', hs, ht, rfl⟩
  have hts := Tpool.executed_of_run hrun
  have htshut := Tpool.runFrom_workers_shutdown hmore hshut ht
  have htlive : t.freed = false := by
    apply Bool.eq_false_iff.mpr
    intro hf
    rw [Tpool.shutdown_of_freed hrun hf] at htshut
    cases htshut
  obtain ⟨rest, hrest, hrestEq⟩ := hts.history.queue (hts.history.not_discarded hn htshut)
  refine ⟨?_, fun w e => hts.history.sound.stepWorker_ne_stop hrest htlive w, fun hblocked => ?_⟩
  · have hh := Tpool.history_of_run hs
    obtain ⟨ts, hq, heq⟩ := hh.queue (hh.not_discarded hn hshut)
    have hstep : ∀ a ∈ more, ∀ (s : Tpool n P R A) (evs : List (Event n R A)) m s' e,
        s.Ranked m → s.step a = .ok (s', e) → ∃ m' < m, s'.Ranked m' := by
      intro a ha s evs m s' e hr hstep
      obtain ⟨w, rfl⟩ := hmore a ha
      exact (Tpool.workerStep_of_stepWorker hstep).ranked hr
    obtain ⟨m, -, hle⟩ := Machine.run_rank (fun s _ m => Tpool.Ranked s m) [] hstep
      ⟨hh.sound, ts, hq, rfl⟩ ht
    have hrank := s.workersRank_le
    have hlen := congrArg List.length heq
    simp only [List.length_append, List.length_map] at hlen
    omega
  · obtain ⟨hlock, hrest'⟩ := hts.history.sound.at_rest hblocked
    have hwait : ∀ w, t.workers w = .waiting := by
      intro w
      rcases hrest' w with hw | hw
      · exact hw
      · exact absurd hw (hts.history.sound.not_exited htshut w)
    have hhead : t.tpoolHead = none := by
      by_contra hhead
      obtain ⟨w, hw⟩ := (Tpool.wakeups_of_run hn hrun).awake hhead htshut
      exact hw (hwait w)
    rw [hrest.eq_nil hhead, List.append_nil] at hrestEq
    refine ⟨hhead, hrestEq.symm, fun w => ?_⟩
    rw [hts.tasks w, Tpool.due_of_not_running (by simp [hwait w]), List.append_nil]

/-- The workers of a pool of two. -/
def worker₁ : Fin 2 := ⟨0, Nat.two_pos⟩
def worker₂ : Fin 2 := ⟨1, Nat.one_lt_two⟩

/-- Two tasks for two workers. -/
def twoTasks : List (Action 2 Bool ℕ Unit) :=
  [.add 0 (some 7) () (some false), .push 0 ∅, .add 0 (some 8) () (some true), .push 0 ∅]

/-- The second worker runs its task while the first has not begun, and both go to wait. -/
def twoRounds : List (Action 2 Bool ℕ Unit) :=
  List.replicate 4 (.worker worker₁) ++ List.replicate 6 (.worker worker₂) ++
    List.replicate 6 (.worker worker₁) ++ List.replicate 4 (.worker worker₂)

/-- Whether a thread cannot move. -/
def stalled {n : ℕ} (s : Tpool n Bool ℕ Unit) (a : Action n Bool ℕ Unit) : Bool :=
  match s.step a with
  | .error .blocked => true
  | _ => false

theorem blocked_of_stalled {n : ℕ} {s : Tpool n Bool ℕ Unit} {a : Action n Bool ℕ Unit}
    (h : stalled s a = true) : s.step a = .error .blocked := by
  unfold stalled at h
  split at h
  next hb => exact hb
  next => cases h

theorem tpool_drains_twoTasks :
    ∃ s t evs evs', (createTpool 2 Bool ℕ Unit).runFrom twoTasks = .ok (s, evs) ∧
      s.runFrom twoRounds = .ok (t, evs') ∧ t.tpoolHead = none ∧
      (taken (evs ++ evs')).map Prod.snd = accepted (evs ++ evs') := by
  have hmore : ∀ a ∈ twoRounds, ∃ w, a = .worker w := by
    intro a ha
    simp only [twoRounds, List.mem_append, List.mem_replicate] at ha
    rcases ha with ((ha | ha) | ha) | ha <;> exact ⟨_, ha.2⟩
  have hfacts : ((createTpool 2 Bool ℕ Unit).runFrom twoTasks >>= fun p =>
      p.1.runFrom twoRounds >>= fun q => pure (p.1.shutdown,
        decide (∀ w, stalled q.1 (.worker w) = true))) = .ok (false, true) := by
    decide
  obtain ⟨⟨s, evs⟩, hs, hfacts⟩ := Machine.bind_eq_ok.mp hfacts
  obtain ⟨⟨t, evs'⟩, ht, hfacts⟩ := Machine.bind_eq_ok.mp hfacts
  obtain ⟨hshut, hblocked⟩ := Prod.mk.inj (Except.ok.inj hfacts)
  obtain ⟨-, -, hrest⟩ :=
    tpool_drains (by decide) twoTasks twoRounds s t evs evs' hs hshut hmore ht
  obtain ⟨hhead, htaken, -⟩ :=
    hrest fun w => blocked_of_stalled (of_decide_eq_true hblocked w)
  exact ⟨s, t, evs, evs', hs, ht, hhead, htaken⟩

end DnsRelay.ThreadPool
