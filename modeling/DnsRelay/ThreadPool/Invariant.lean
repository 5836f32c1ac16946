import DnsRelay.ThreadPool.Model

/-!
# The lock discipline of the thread pool

Every step of the pool is one of the transitions listed here. In every reachable
state at most one worker is inside its section, a worker knows of the queue and of
`shutdown` what its position says, and a destroyer has set, sent and joined what
its position says.
-/

namespace DnsRelay.ThreadPool

open Function DnsRelay.Lib

variable {n : ℕ} {P R A : Type}

/-- The destroyer is past `pthread_cond_broadcast`. -/
def DestroyPc.issued : DestroyPc P → Bool
  | .start | .setShutdown | .broadcast | .returned => false
  | _ => true

namespace Tpool

section Transitions

variable [DecidableEq P]

/-- The transitions of a worker. -/
inductive WorkerStep (s : Tpool n P R A) (w : Fin n) : Tpool n P R A → Event n R A → Prop
  | acquire (hpc : s.workers w = .lock ∨ s.workers w = .woken) (hlock : s.queueLock = none) :
      WorkerStep s w ({ s with queueLock := some w }.setWorker w .testHead) .silent
  | empty (hpc : s.workers w = .testHead) (hhead : s.tpoolHead = none) :
      WorkerStep s w (s.setWorker w .testShutdown) .silent
  | nonempty (hpc : s.workers w = .testHead) (hhead : s.tpoolHead ≠ none) :
      WorkerStep s w (s.setWorker w .checkShutdown) .silent
  | leaveLoop (hpc : s.workers w = .testShutdown) (hshut : s.shutdown = true) :
      WorkerStep s w (s.setWorker w .checkShutdown) (.observed w)
  | prepare (hpc : s.workers w = .testShutdown) (hshut : s.shutdown = false) :
      WorkerStep s w (s.setWorker w .wait) .silent
  | wait (hpc : s.workers w = .wait) :
      WorkerStep s w ({ s with queueLock := none }.setWorker w .waiting) .silent
  | leave (hpc : s.workers w = .checkShutdown) (hshut : s.shutdown = true) :
      WorkerStep s w (s.setWorker w .exiting) (.observed w)
  | stay (hpc : s.workers w = .checkShutdown) (hshut : s.shutdown = false) :
      WorkerStep s w (s.setWorker w .take) .silent
  | take {work : P} {node : TpoolWork P R A} (hpc : s.workers w = .take)
      (hhead : s.tpoolHead = some work) (hnode : s.heap work = some node) :
      WorkerStep s w
        ({ s with tpoolHead := node.next, queueLock := none }.setWorker w (.running work))
        (.took w node.task)
  | run {work : P} {node : TpoolWork P R A} (hpc : s.workers w = .running work)
      (hnode : s.heap work = some node) :
      WorkerStep s w (s.setWorker w (.finished work)) (.ran w node.task)
  | finish {work : P} {node : TpoolWork P R A} (hpc : s.workers w = .finished work)
      (hnode : s.heap work = some node) :
      WorkerStep s w ({ s with heap := update s.heap work none }.setWorker w .lock) .silent
  | exit (hpc : s.workers w = .exiting) :
      WorkerStep s w ({ s with queueLock := none }.setWorker w .exited) .silent

/-- The transitions of a call of `destroy_tpool`. -/
inductive DestroyStep (s : Tpool n P R A) (d : ℕ) : Tpool n P R A → Event n R A → Prop
  | giveUp (hpc : s.destroyers d = .start) (hshut : s.shutdown = true) :
      DestroyStep s d (s.setDestroyer d .returned) .silent
  | begin (hpc : s.destroyers d = .start) (hshut : s.shutdown = false) :
      DestroyStep s d (s.setDestroyer d .setShutdown) .silent
  | shut (hpc : s.destroyers d = .setShutdown) :
      DestroyStep s d ({ s with shutdown := true }.setDestroyer d .broadcast) .silent
  | broadcast (hpc : s.destroyers d = .broadcast) (hlock : s.queueLock = none) :
      DestroyStep s d ((s.awaken Finset.univ).setDestroyer d (.join 0)) (.broadcast d)
  | join {w : Fin n} (hpc : s.destroyers d = .join w) (hw : s.workers w = .exited) :
      DestroyStep s d
        ({ s with joined := update s.joined w true }.setDestroyer d (.join (w + 1))) .silent
  | joined {i : ℕ} (hpc : s.destroyers d = .join i) (hi : n ≤ i) :
      DestroyStep s d (s.setDestroyer d .discard) .silent
  | empty (hpc : s.destroyers d = .discard) (hhead : s.tpoolHead = none) :
      DestroyStep s d (s.setDestroyer d .teardown) .silent
  | nonempty {work : P} (hpc : s.destroyers d = .discard) (hhead : s.tpoolHead = some work) :
      DestroyStep s d (s.setDestroyer d (.unlink work)) .silent
  | unlink {tmpWork work : P} {node : TpoolWork P R A} (hpc : s.destroyers d = .unlink tmpWork)
      (hhead : s.tpoolHead = some work) (hnode : s.heap work = some node) :
      DestroyStep s d ({ s with tpoolHead := node.next }.setDestroyer d (.release tmpWork))
        (.discarded d)
  | release {tmpWork : P} (hpc : s.destroyers d = .release tmpWork) :
      DestroyStep s d ({ s with heap := update s.heap tmpWork none }.setDestroyer d .discard)
        .silent
  | teardown (hpc : s.destroyers d = .teardown) :
      DestroyStep s d ({ s with freed := true }.setDestroyer d .destroyed) .silent

/-- The transitions of the pool. -/
inductive Step [Fintype P] (s : Tpool n P R A) : Tpool n P R A → Event n R A → Prop
  | worker {w : Fin n} {t : Tpool n P R A} {e : Event n R A} (h : WorkerStep s w t e) : Step s t e
  | wake {w : Fin n} (hpc : s.workers w = .waiting) : Step s (s.setWorker w .woken) .silent
  | refuse (c : ℕ) : Step s s (.refused c)
  | build {c : ℕ} {work : P} (routine : R) (args : A) (hc : s.callers c = none)
      (hfree : s.heap work = none) :
      Step s { s with
        heap := update s.heap work (some ⟨routine, args, none⟩)
        callers := update s.callers c (some ⟨routine, args, work⟩) } .silent
  | push {c : ℕ} {frame : AddFrame P R A} {woken : Finset (Fin n)} {t : Tpool n P R A}
      (hc : s.callers c = some frame) (hlive : s.freed = false) (hlock : s.queueLock = none)
      (hwoken : (∃ w, s.workers w = .waiting) → ∃ w ∈ woken, s.workers w = .waiting)
      (hlink : s.link frame.work = .ok t) :
      Step s ({ t with callers := update t.callers c none }.awaken woken)
        (.accepted c (frame.routine, frame.args))
  | destroy {d : ℕ} {t : Tpool n P R A} {e : Event n R A} (h : DestroyStep s d t e) : Step s t e

variable {s t : Tpool n P R A} {w : Fin n} {d : ℕ} {e : Event n R A}

omit [DecidableEq P] in
theorem acquire_eq_ok (h : s.acquire w = .ok (t, e)) :
    s.queueLock = none ∧ t = { s with queueLock := some w }.setWorker w .testHead ∧
      e = .silent := by
  unfold acquire at h
  cases hlock : s.queueLock with
  | none =>
      rw [hlock] at h
      cases h
      exact ⟨rfl, rfl, rfl⟩
  | some v =>
      rw [hlock] at h
      cases h

theorem workerStep_of_stepWorker (h : s.stepWorker w = .ok (t, e)) : WorkerStep s w t e := by
  unfold stepWorker at h
  split at h
  · cases h
  · split at h
    case h_1 hpc =>
      obtain ⟨hlock, rfl, rfl⟩ := acquire_eq_ok h
      exact .acquire (.inl hpc) hlock
    case h_2 hpc =>
      split at h
      case h_1 hhead =>
        cases h
        exact .empty hpc hhead
      case h_2 hhead =>
        cases h
        exact .nonempty hpc (by simp [hhead])
    case h_3 hpc =>
      split at h
      case isTrue hshut =>
        cases h
        exact .leaveLoop hpc hshut
      case isFalse hshut =>
        cases h
        exact .prepare hpc (Bool.eq_false_iff.mpr hshut)
    case h_4 hpc =>
      cases h
      exact .wait hpc
    case h_5 hpc => cases h
    case h_6 hpc =>
      obtain ⟨hlock, rfl, rfl⟩ := acquire_eq_ok h
      exact .acquire (.inr hpc) hlock
    case h_7 hpc =>
      split at h
      case isTrue hshut =>
        cases h
        exact .leave hpc hshut
      case isFalse hshut =>
        cases h
        exact .stay hpc (Bool.eq_false_iff.mpr hshut)
    case h_8 hpc =>
      split at h
      case h_1 hhead => cases h
      case h_2 hhead =>
        split at h
        case h_1 hnode => cases h
        case h_2 hnode =>
          cases h
          exact .take hpc hhead hnode
    case h_9 hpc =>
      split at h
      case h_1 hnode => cases h
      case h_2 hnode =>
        cases h
        exact .run hpc hnode
    case h_10 hpc =>
      split at h
      case h_1 hnode => cases h
      case h_2 hnode =>
        cases h
        exact .finish hpc hnode
    case h_11 hpc =>
      cases h
      exact .exit hpc
    case h_12 hpc => cases h

theorem destroyStep_of_stepDestroy (h : s.stepDestroy d = .ok (t, e)) : DestroyStep s d t e := by
  unfold stepDestroy at h
  split at h
  · cases h
  · split at h
    case h_1 hpc =>
      split at h
      case isTrue hshut =>
        cases h
        exact .giveUp hpc hshut
      case isFalse hshut =>
        cases h
        exact .begin hpc (Bool.eq_false_iff.mpr hshut)
    case h_2 hpc =>
      cases h
      exact .shut hpc
    case h_3 hpc =>
      split at h
      case isTrue hlock => cases h
      case isFalse hlock =>
        cases h
        exact .broadcast hpc (by simpa using hlock)
    case h_4 i hpc =>
      split at h
      case isTrue hi =>
        split at h
        case isTrue hw => cases h
        case isFalse hw =>
          split at h
          case isTrue hj => cases h
          case isFalse hj =>
            cases h
            exact .join (w := ⟨i, hi⟩) hpc (by simpa using hw)
      case isFalse hi =>
        cases h
        exact .joined hpc (by omega)
    case h_5 hpc =>
      split at h
      case h_1 hhead =>
        cases h
        exact .empty hpc hhead
      case h_2 hhead =>
        cases h
        exact .nonempty hpc hhead
    case h_6 hpc =>
      split at h
      case h_1 hhead => cases h
      case h_2 hhead =>
        split at h
        case h_1 hnode => cases h
        case h_2 hnode =>
          cases h
          exact .unlink hpc hhead hnode
    case h_7 hpc =>
      split at h
      case h_1 hnode => cases h
      case h_2 hnode =>
        cases h
        exact .release hpc
    case h_8 hpc =>
      cases h
      exact .teardown hpc
    case h_9 hpc => cases h
    case h_10 hpc => cases h

/-- Every step of the pool is one of the transitions. -/
theorem step_cases [Fintype P] {a : Action n P R A} (h : s.step a = .ok (t, e)) :
    Step s t e := by
  cases a with
  | worker w => exact .worker (workerStep_of_stepWorker h)
  | wake w =>
      simp only [step] at h
      split at h
      case isTrue hpc =>
        cases h
        exact .wake hpc
      case isFalse hpc => cases h
  | add c routine args work =>
      simp only [step, addTask2Tpool] at h
      split at h
      case h_1 => cases h
      case h_2 =>
        cases h
        exact .refuse c
      case h_3 =>
        cases h
        exact .refuse c
      case h_4 hc =>
        split at h
        case isTrue hfree => cases h
        case isFalse hfree =>
          cases h
          exact .build _ args hc (by simpa using hfree)
  | push c woken =>
      simp only [step, pushWork] at h
      split at h
      case h_1 => cases h
      case h_2 frame hc =>
        split at h
        case isTrue => cases h
        case isFalse hlive =>
          split at h
          case isTrue => cases h
          case isFalse hlock =>
            split at h
            case isTrue => cases h
            case isFalse hwoken =>
              obtain ⟨t', hlink, h⟩ := Machine.bind_eq_ok.mp h
              cases h
              refine .push hc (Bool.eq_false_iff.mpr hlive) (by simpa using hlock) ?_ hlink
              intro hex
              by_contra hno
              exact hwoken ⟨hex, hno⟩
  | destroy d => exact .destroy (destroyStep_of_stepDestroy h)

end Transitions

section Fields

variable {s : Tpool n P R A} {w : Fin n} {d : ℕ} {pc : WorkerPc P} {pd : DestroyPc P}

@[simp] theorem setWorker_workers : (s.setWorker w pc).workers = update s.workers w pc := rfl
@[simp] theorem setWorker_shutdown : (s.setWorker w pc).shutdown = s.shutdown := rfl
@[simp] theorem setWorker_tpoolHead : (s.setWorker w pc).tpoolHead = s.tpoolHead := rfl
@[simp] theorem setWorker_queueLock : (s.setWorker w pc).queueLock = s.queueLock := rfl
@[simp] theorem setWorker_freed : (s.setWorker w pc).freed = s.freed := rfl
@[simp] theorem setWorker_heap : (s.setWorker w pc).heap = s.heap := rfl
@[simp] theorem setWorker_callers : (s.setWorker w pc).callers = s.callers := rfl
@[simp] theorem setWorker_destroyers : (s.setWorker w pc).destroyers = s.destroyers := rfl

@[simp] theorem setDestroyer_destroyers :
    (s.setDestroyer d pd).destroyers = update s.destroyers d pd := rfl
@[simp] theorem setDestroyer_workers : (s.setDestroyer d pd).workers = s.workers := rfl
@[simp] theorem setDestroyer_shutdown : (s.setDestroyer d pd).shutdown = s.shutdown := rfl
@[simp] theorem setDestroyer_tpoolHead : (s.setDestroyer d pd).tpoolHead = s.tpoolHead := rfl
@[simp] theorem setDestroyer_queueLock : (s.setDestroyer d pd).queueLock = s.queueLock := rfl
@[simp] theorem setDestroyer_freed : (s.setDestroyer d pd).freed = s.freed := rfl
@[simp] theorem setDestroyer_heap : (s.setDestroyer d pd).heap = s.heap := rfl
@[simp] theorem setDestroyer_callers : (s.setDestroyer d pd).callers = s.callers := rfl

variable [DecidableEq P] {woken : Finset (Fin n)}

@[simp] theorem awaken_shutdown : (s.awaken woken).shutdown = s.shutdown := rfl
@[simp] theorem awaken_tpoolHead : (s.awaken woken).tpoolHead = s.tpoolHead := rfl
@[simp] theorem awaken_queueLock : (s.awaken woken).queueLock = s.queueLock := rfl
@[simp] theorem awaken_freed : (s.awaken woken).freed = s.freed := rfl
@[simp] theorem awaken_heap : (s.awaken woken).heap = s.heap := rfl
@[simp] theorem awaken_callers : (s.awaken woken).callers = s.callers := rfl
@[simp] theorem awaken_destroyers : (s.awaken woken).destroyers = s.destroyers := rfl

/-- A waiter stays or wakes up, every other worker stays where it is. -/
theorem awaken_workers (s : Tpool n P R A) (woken : Finset (Fin n)) (w : Fin n) :
    (s.awaken woken).workers w = s.workers w ∨
      s.workers w = .waiting ∧ (s.awaken woken).workers w = .woken := by
  by_cases h : s.workers w = .waiting ∧ w ∈ woken
  · exact .inr ⟨h.1, if_pos h⟩
  · exact .inl (if_neg h)

theorem awaken_of_mem (hpc : s.workers w = .waiting) (hw : w ∈ woken) :
    (s.awaken woken).workers w = .woken := if_pos ⟨hpc, hw⟩

end Fields

section Sound

/-- Some call of `destroy_tpool` has sent its broadcast. -/
def Issued (s : Tpool n P R A) : Prop := ∃ d, (s.destroyers d).issued = true

/-- What holds of the pool while a worker is at a position. -/
def WorkerOk (s : Tpool n P R A) : WorkerPc P → Prop
  | .testShutdown => s.tpoolHead = none
  | .wait => s.tpoolHead = none ∧ ¬ s.Issued
  | .waiting => ¬ s.Issued
  | .checkShutdown => s.tpoolHead = none → s.shutdown = true
  | .take => s.tpoolHead ≠ none
  | .exiting | .exited => s.shutdown = true
  | _ => True

/-- What holds of the pool while a call of `destroy_tpool` is at a position. -/
def DestroyOk (s : Tpool n P R A) : DestroyPc P → Prop
  | .start | .setShutdown => True
  | .broadcast | .returned => s.shutdown = true
  | .join i => s.shutdown = true ∧ ∀ w : Fin n, w < i → s.workers w = .exited
  | _ => s.shutdown = true ∧ ∀ w, s.workers w = .exited

/-- The lock has one holder, and every thread knows what its position says. -/
structure Sound (s : Tpool n P R A) : Prop where
  lock : ∀ w, (s.workers w).holds = true ↔ s.queueLock = some w
  worker : ∀ w, s.WorkerOk (s.workers w)
  destroyer : ∀ d, s.DestroyOk (s.destroyers d)

variable {s t : Tpool n P R A} {w : Fin n} {d : ℕ} {pc : WorkerPc P} {pd : DestroyPc P}
  {e : Event n R A}

theorem sound_createTpool : Sound (createTpool n P R A) where
  lock := by simp [createTpool, WorkerPc.holds]
  worker := by simp [createTpool, WorkerOk]
  destroyer := by simp [createTpool, DestroyOk]

/-- The head matters only to a worker that holds the lock. -/
theorem WorkerOk.mono (h : s.WorkerOk pc) (hhead : pc.holds = true → t.tpoolHead = s.tpoolHead)
    (hshut : s.shutdown = true → t.shutdown = true)
    (hissued : pc = .wait ∨ pc = .waiting → t.Issued → s.Issued) : t.WorkerOk pc := by
  cases pc with
  | testShutdown => exact (hhead rfl).trans h
  | wait => exact ⟨(hhead rfl).trans h.1, fun hi => h.2 (hissued (.inl rfl) hi)⟩
  | waiting => exact fun hi => h (hissued (.inr rfl) hi)
  | checkShutdown => exact fun hnull => hshut (h ((hhead rfl).symm.trans hnull))
  | take => exact fun hnull => h ((hhead rfl).symm.trans hnull)
  | exiting => exact hshut h
  | exited => exact hshut h
  | lock => trivial
  | testHead => trivial
  | woken => trivial
  | running work => trivial
  | finished work => trivial

theorem DestroyOk.mono (h : s.DestroyOk pd) (hshut : s.shutdown = true → t.shutdown = true)
    (hexit : ∀ w, s.workers w = .exited → t.workers w = .exited) : t.DestroyOk pd := by
  cases pd with
  | start => trivial
  | setShutdown => trivial
  | broadcast => exact hshut h
  | returned => exact hshut h
  | join i => exact ⟨hshut h.1, fun w hw => hexit w (h.2 w hw)⟩
  | discard => exact ⟨hshut h.1, fun w => hexit w (h.2 w)⟩
  | unlink work => exact ⟨hshut h.1, fun w => hexit w (h.2 w)⟩
  | release work => exact ⟨hshut h.1, fun w => hexit w (h.2 w)⟩
  | teardown => exact ⟨hshut h.1, fun w => hexit w (h.2 w)⟩
  | destroyed => exact ⟨hshut h.1, fun w => hexit w (h.2 w)⟩

/-- After the broadcast `shutdown` is set. -/
theorem Sound.shutdown_of_issued (hs : Sound s) (h : s.Issued) : s.shutdown = true := by
  obtain ⟨d, hd⟩ := h
  have hok := hs.destroyer d
  cases hpd : s.destroyers d <;> rw [hpd] at hd hok
  case start => cases hd
  case setShutdown => cases hd
  case broadcast => cases hd
  case returned => cases hd
  all_goals exact hok.1

/-- Without a holder of the lock no worker is inside its section. -/
theorem Sound.holds_of_free (hs : Sound s) (hlock : s.queueLock = none) (w : Fin n) :
    (s.workers w).holds = false := by
  rw [Bool.eq_false_iff]
  intro h
  rw [(hs.lock w).mp h] at hlock
  cases hlock

/-- Two workers are never inside their sections at once. -/
theorem Sound.eq_of_holds (hs : Sound s) {v : Fin n} (hw : (s.workers w).holds = true)
    (hv : (s.workers v).holds = true) : v = w := by
  have h := (hs.lock v).mp hv
  rw [(hs.lock w).mp hw] at h
  cases h
  rfl

/-- While `shutdown` is not set no worker has exited. -/
theorem Sound.not_exited (hs : Sound s) (hshut : s.shutdown = false) (w : Fin n) :
    s.workers w ≠ .exited := by
  intro hw
  have hok := hs.worker w
  rw [hw] at hok
  rw [hok] at hshut
  cases hshut

/-- After the broadcast no worker is blocked or about to block. -/
theorem Sound.not_waiting (hs : Sound s) (h : s.Issued) (w : Fin n) :
    s.workers w ≠ .waiting ∧ s.workers w ≠ .wait := by
  have hok := hs.worker w
  constructor
  · intro hw
    rw [hw] at hok
    exact hok h
  · intro hw
    rw [hw] at hok
    exact hok.2 h

section Lock

theorem lock_keep (hs : Sound s) (hholds : pc.holds = (s.workers w).holds) (v : Fin n) :
    (update s.workers w pc v).holds = true ↔ s.queueLock = some v := by
  by_cases hv : v = w
  · subst hv
    rw [update_self, hholds, hs.lock v]
  · rw [update_of_ne hv, hs.lock v]

theorem lock_acquire (hs : Sound s) (hlock : s.queueLock = none) (hholds : pc.holds = true)
    (v : Fin n) : (update s.workers w pc v).holds = true ↔ some w = some v := by
  by_cases hv : v = w
  · subst hv
    rw [update_self, hholds]
    simp
  · rw [update_of_ne hv, hs.holds_of_free hlock v]
    simpa using Ne.symm hv

theorem lock_release (hs : Sound s) (hw : (s.workers w).holds = true) (hholds : pc.holds = false)
    (v : Fin n) : (update s.workers w pc v).holds = true ↔ none = some v := by
  by_cases hv : v = w
  · subst hv
    rw [update_self, hholds]
    simp
  · rw [update_of_ne hv]
    constructor
    · intro h
      exact absurd (hs.eq_of_holds hw h) hv
    · intro h
      cases h

end Lock

/-- A worker goes to another position; the head moves only in a section of its own. -/
theorem Sound.moveWorker (hs : Sound s) (hlive : s.workers w ≠ .exited)
    (hw : t.workers = update s.workers w pc) (hd : t.destroyers = s.destroyers)
    (hshut : t.shutdown = s.shutdown)
    (hhead : t.tpoolHead = s.tpoolHead ∨ (s.workers w).holds = true)
    (hlock : ∀ v, (update s.workers w pc v).holds = true ↔ t.queueLock = some v)
    (hok : t.WorkerOk pc) : Sound t where
  lock := by
    rw [hw]
    exact hlock
  worker := by
    intro v
    rw [hw]
    by_cases hv : v = w
    · rw [hv, update_self]
      exact hok
    · rw [update_of_ne hv]
      refine (hs.worker v).mono ?_ (by rw [hshut]; exact id) (by rw [Issued, hd]; exact fun _ => id)
      intro hholds
      rcases hhead with hhead | hhead
      · exact hhead
      · exact absurd (hs.eq_of_holds hhead hholds) hv
  destroyer := by
    intro d
    rw [hd]
    refine (hs.destroyer d).mono (by rw [hshut]; exact id) ?_
    intro v hv
    have hne : v ≠ w := by
      rintro rfl
      exact hlive hv
    rw [hw, update_of_ne hne, hv]

/-- A call of `destroy_tpool` goes to another position without moving the workers. -/
theorem Sound.moveDestroyer (hs : Sound s) (hw : t.workers = s.workers)
    (hd : t.destroyers = update s.destroyers d pd) (hlock : t.queueLock = s.queueLock)
    (hshut : s.shutdown = true → t.shutdown = true)
    (hhead : t.tpoolHead = s.tpoolHead ∨ ∀ w, s.workers w = .exited)
    (hissued : pd.issued = true → s.Issued ∨ ∀ w, s.workers w ≠ .wait ∧ s.workers w ≠ .waiting)
    (hok : t.DestroyOk pd) : Sound t where
  lock := by
    rw [hw, hlock]
    exact hs.lock
  worker := by
    intro v
    rw [hw]
    refine (hs.worker v).mono ?_ hshut ?_
    · intro hholds
      rcases hhead with hhead | hhead
      · exact hhead
      · rw [hhead v] at hholds
        cases hholds
    · rintro hwait ⟨d', hd'⟩
      rw [hd] at hd'
      by_cases heq : d' = d
      · subst heq
        rw [update_self] at hd'
        rcases hissued hd' with h | hnone
        · exact h
        · exact absurd hwait (not_or.mpr (hnone v))
      · rw [update_of_ne heq] at hd'
        exact ⟨d', hd'⟩
  destroyer := by
    intro d'
    rw [hd]
    by_cases heq : d' = d
    · rw [heq, update_self]
      exact hok
    · rw [update_of_ne heq]
      refine (hs.destroyer d').mono hshut ?_
      intro w hexit
      rw [hw, hexit]

variable [DecidableEq P]

theorem Sound.step_worker (hs : Sound s) (h : WorkerStep s w t e) : Sound t := by
  cases h with
  | acquire hpc hlock =>
      refine hs.moveWorker (w := w) ?_ rfl rfl rfl (.inl rfl) (lock_acquire hs hlock rfl) trivial
      rcases hpc with hpc | hpc <;> simp [hpc]
  | empty hpc hhead =>
      exact hs.moveWorker (by simp [hpc]) rfl rfl rfl (.inl rfl)
        (lock_keep hs (by rw [hpc]; rfl)) hhead
  | nonempty hpc hhead =>
      exact hs.moveWorker (by simp [hpc]) rfl rfl rfl (.inl rfl)
        (lock_keep hs (by rw [hpc]; rfl)) fun hnull => absurd hnull hhead
  | leaveLoop hpc hshut =>
      exact hs.moveWorker (by simp [hpc]) rfl rfl rfl (.inl rfl)
        (lock_keep hs (by rw [hpc]; rfl)) fun _ => hshut
  | prepare hpc hshut =>
      have hhead := hs.worker w
      rw [hpc] at hhead
      refine hs.moveWorker (by simp [hpc]) rfl rfl rfl (.inl rfl)
        (lock_keep hs (by rw [hpc]; rfl)) ⟨hhead, ?_⟩
      intro hissued
      have hset := hs.shutdown_of_issued (s := s) hissued
      rw [hshut] at hset
      cases hset
  | wait hpc =>
      have hok := hs.worker w
      rw [hpc] at hok
      exact hs.moveWorker (by simp [hpc]) rfl rfl rfl (.inl rfl)
        (lock_release hs (by rw [hpc]; rfl) rfl) hok.2
  | leave hpc hshut =>
      exact hs.moveWorker (by simp [hpc]) rfl rfl rfl (.inl rfl)
        (lock_keep hs (by rw [hpc]; rfl)) hshut
  | stay hpc hshut =>
      have hok := hs.worker w
      rw [hpc] at hok
      refine hs.moveWorker (by simp [hpc]) rfl rfl rfl (.inl rfl)
        (lock_keep hs (by rw [hpc]; rfl)) ?_
      intro hnull
      have hset := hok hnull
      rw [hshut] at hset
      cases hset
  | take hpc hhead hnode =>
      exact hs.moveWorker (by simp [hpc]) rfl rfl rfl (.inr (by rw [hpc]; rfl))
        (lock_release hs (by rw [hpc]; rfl) rfl) trivial
  | run hpc hnode =>
      exact hs.moveWorker (by simp [hpc]) rfl rfl rfl (.inl rfl)
        (lock_keep hs (by rw [hpc]; rfl)) trivial
  | finish hpc hnode =>
      exact hs.moveWorker (by simp [hpc]) rfl rfl rfl (.inl rfl)
        (lock_keep hs (by rw [hpc]; rfl)) trivial
  | exit hpc =>
      have hok := hs.worker w
      rw [hpc] at hok
      exact hs.moveWorker (by simp [hpc]) rfl rfl rfl (.inl rfl)
        (lock_release hs (by rw [hpc]; rfl) rfl) hok

/-- A section of another thread that wakes some waiters. -/
theorem Sound.push (hs : Sound s) {woken : Finset (Fin n)} (hlock : s.queueLock = none)
    (hw : t.workers = s.workers) (hd : t.destroyers = s.destroyers)
    (hshut : t.shutdown = s.shutdown) (hqueue : t.queueLock = s.queueLock) :
    Sound (t.awaken woken) where
  lock := by
    intro v
    rw [awaken_queueLock, hqueue, ← hs.lock v, ← hw]
    rcases awaken_workers t woken v with hv | ⟨hold, hv⟩
    · rw [hv]
    · rw [hv, hold]
      rfl
  worker := by
    intro v
    rcases awaken_workers t woken v with hv | ⟨-, hv⟩
    · rw [hv, hw]
      refine (hs.worker v).mono ?_ (by rw [awaken_shutdown, hshut]; exact id)
        (by rw [Issued, awaken_destroyers, hd]; exact fun _ => id)
      intro hholds
      rw [hs.holds_of_free hlock v] at hholds
      cases hholds
    · rw [hv]
      trivial
  destroyer := by
    intro d
    rw [awaken_destroyers, hd]
    refine (hs.destroyer d).mono (by rw [awaken_shutdown, hshut]; exact id) fun w hexit => ?_
    rcases awaken_workers t woken w with h | ⟨hold, -⟩
    · rw [h, hw, hexit]
    · rw [hw, hexit] at hold
      cases hold

/-- The broadcast leaves no worker in the condition: the lock is free, so none is about
to wait either. -/
theorem Sound.broadcast (hs : Sound s) (hpc : s.destroyers d = .broadcast)
    (hlock : s.queueLock = none) : Sound ((s.awaken Finset.univ).setDestroyer d (.join 0)) := by
  have hawake : Sound (s.awaken Finset.univ) := hs.push hlock rfl rfl rfl rfl
  have hok := hs.destroyer d
  rw [hpc] at hok
  refine hawake.moveDestroyer rfl rfl rfl id (.inl rfl) (fun _ => .inr fun w => ?_)
    ⟨hok, fun w hw => absurd hw (Nat.not_lt_zero _)⟩
  have hfree := hawake.holds_of_free hlock w
  constructor
  · intro hw
    rw [hw] at hfree
    cases hfree
  · intro hw
    rcases awaken_workers s Finset.univ w with h | ⟨-, h⟩
    · rw [awaken_of_mem (h ▸ hw) (Finset.mem_univ w)] at hw
      cases hw
    · rw [h] at hw
      cases hw

theorem Sound.step_destroy (hs : Sound s) (h : DestroyStep s d t e) : Sound t := by
  have hok := hs.destroyer d
  have hissued : (s.destroyers d).issued = true →
      s.Issued ∨ ∀ w, s.workers w ≠ .wait ∧ s.workers w ≠ .waiting := fun hd => .inl ⟨d, hd⟩
  cases h with
  | giveUp hpc hshut =>
      exact hs.moveDestroyer rfl rfl rfl id (.inl rfl) (fun h => by cases h) hshut
  | begin hpc hshut =>
      exact hs.moveDestroyer rfl rfl rfl id (.inl rfl) (fun h => by cases h) trivial
  | shut hpc =>
      exact hs.moveDestroyer rfl rfl rfl (fun _ => rfl) (.inl rfl) (fun h => by cases h) rfl
  | broadcast hpc hlock => exact hs.broadcast hpc hlock
  | @join w hpc hw =>
      rw [hpc] at hok hissued
      refine hs.moveDestroyer rfl rfl rfl id (.inl rfl) hissued ⟨hok.1, ?_⟩
      intro v hv
      rcases Nat.lt_succ_iff_lt_or_eq.mp hv with hlt | heq
      · exact hok.2 v hlt
      · rw [Fin.ext heq]
        exact hw
  | joined hpc hi =>
      rw [hpc] at hok hissued
      exact hs.moveDestroyer rfl rfl rfl id (.inl rfl) hissued
        ⟨hok.1, fun w => hok.2 w (by omega)⟩
  | empty hpc hhead =>
      rw [hpc] at hok hissued
      exact hs.moveDestroyer rfl rfl rfl id (.inl rfl) hissued hok
  | nonempty hpc hhead =>
      rw [hpc] at hok hissued
      exact hs.moveDestroyer rfl rfl rfl id (.inl rfl) hissued hok
  | unlink hpc hhead hnode =>
      rw [hpc] at hok hissued
      exact hs.moveDestroyer rfl rfl rfl id (.inr hok.2) hissued hok
  | release hpc =>
      rw [hpc] at hok hissued
      exact hs.moveDestroyer rfl rfl rfl id (.inl rfl) hissued hok
  | teardown hpc =>
      rw [hpc] at hok hissued
      exact hs.moveDestroyer rfl rfl rfl id (.inl rfl) hissued hok

/-- The stores of a push reach the head and the heap only. -/
theorem link_frame [Fintype P] {work : P} (h : s.link work = .ok t) :
    ∃ head heap, t = { s with tpoolHead := head, heap := heap } := by
  unfold link at h
  split at h
  case h_1 =>
    cases h
    exact ⟨_, _, rfl⟩
  case h_2 =>
    obtain ⟨last, -, h⟩ := Machine.bind_eq_ok.mp h
    split at h
    case h_1 => cases h
    case h_2 =>
      cases h
      exact ⟨_, _, rfl⟩

/-- Every step of the pool keeps the lock discipline. -/
theorem Sound.step [Fintype P] (hs : Sound s) (h : Step s t e) : Sound t := by
  cases h with
  | worker h => exact hs.step_worker h
  | wake hpc =>
      exact hs.moveWorker (by simp [hpc]) rfl rfl rfl (.inl rfl)
        (lock_keep hs (by rw [hpc]; rfl)) trivial
  | refuse c => exact hs
  | build routine args hc hfree => exact ⟨hs.lock, hs.worker, hs.destroyer⟩
  | push hc hlive hlock hwoken hlink =>
      obtain ⟨head, heap, rfl⟩ := link_frame hlink
      exact hs.push hlock rfl rfl rfl rfl
  | destroy h => exact hs.step_destroy h

end Sound

end Tpool

end DnsRelay.ThreadPool
