import DnsRelay.Basic
import DnsRelay.Lib.Machine
import Mathlib.Data.Fintype.Basic
import Mathlib.Data.Fintype.Card
import Mathlib.Data.Finset.Basic
import Mathlib.Logic.Function.Basic

/-!
# The thread pool (`threadPool.c`)

The pool is a machine whose steps are the steps of its threads: `n` workers, any
number of callers of `add_task_2_tpool` and of `destroy_tpool`. The section of
`add_task_2_tpool` and the broadcast hold the lock from beginning to end and are
one step each. `shutdown` is written without the lock, so the section of a worker
is cut at each of its reads.

Work items live in a heap over a finite type of addresses. The scheduler chooses
the order of the steps, the addresses that `malloc` returns, the waiters that a
signal wakes, and spurious wake-ups.
-/

namespace DnsRelay.ThreadPool

open Function DnsRelay.Lib

/-- Why a thread does not take a step: it has to wait, or the program stops. -/
inductive Stall
  | blocked
  | stop (e : Stop)
  deriving DecidableEq, Repr

/-- `tpool_work_t`. -/
structure TpoolWork (P R A : Type) where
  workRoutine : R
  args : A
  next : Option P

/-- Where a worker is in `work_routine`. -/
inductive WorkerPc (P : Type)
  /-- At `pthread_mutex_lock`. -/
  | lock
  /-- Holds the lock and tests `!pool->tpool_head`. -/
  | testHead
  /-- The queue was empty; tests `!pool->shutdown`. -/
  | testShutdown
  /-- At `pthread_cond_wait`, still with the lock. -/
  | wait
  /-- Blocked in `pthread_cond_wait`. -/
  | waiting
  /-- Awake in `pthread_cond_wait`, has to take the lock again. -/
  | woken
  /-- Out of the inner loop, at `if(pool->shutdown)`. -/
  | checkShutdown
  /-- At `work = pool->tpool_head`. -/
  | take
  /-- Released the lock, at `work->work_routine(work->args)`. -/
  | running (work : P)
  /-- At `free(work)`. -/
  | finished (work : P)
  /-- Saw `shutdown`, at `pthread_mutex_unlock`. -/
  | exiting
  /-- After `pthread_exit`. -/
  | exited
  deriving DecidableEq, Repr

/-- Where a call of `destroy_tpool` is. -/
inductive DestroyPc (P : Type)
  /-- At `if(pool->shutdown)`. -/
  | start
  /-- At `pool->shutdown = 1`. -/
  | setShutdown
  /-- At the section with `pthread_cond_broadcast`. -/
  | broadcast
  /-- At `pthread_join` of thread `i`. -/
  | join (i : ℕ)
  /-- At `while(pool->tpool_head)`. -/
  | discard
  /-- At `pool->tpool_head = pool->tpool_head->next`. -/
  | unlink (tmpWork : P)
  /-- At `free(tmp_work)`. -/
  | release (tmpWork : P)
  /-- At the destruction of the lock, of the condition and of the pool. -/
  | teardown
  /-- Returned after the pool was freed. -/
  | destroyed
  /-- Returned because `shutdown` was set already. -/
  | returned
  deriving DecidableEq, Repr

/-- The frame of a call of `add_task_2_tpool` whose work item is built. -/
structure AddFrame (P R A : Type) where
  routine : R
  args : A
  work : P

/-- `tpool_t`, the heap of work items, and the threads. -/
structure Tpool (n : ℕ) (P R A : Type) where
  shutdown : Bool
  tpoolHead : Option P
  /-- The worker that holds `queue_lock` between two steps. -/
  queueLock : Option (Fin n)
  freed : Bool
  heap : P → Option (TpoolWork P R A)
  workers : Fin n → WorkerPc P
  joined : Fin n → Bool
  callers : ℕ → Option (AddFrame P R A)
  destroyers : ℕ → DestroyPc P

/-- One step of a thread, with the choices of the scheduler. -/
inductive Action (n : ℕ) (P R A : Type)
  /-- The next step of a worker. -/
  | worker (w : Fin n)
  /-- A spurious wake-up. -/
  | wake (w : Fin n)
  /-- `add_task_2_tpool` up to the lock; `work` is what `malloc` returns. -/
  | add (c : ℕ) (routine : Option R) (args : A) (work : Option P)
  /-- The section of `add_task_2_tpool`; the signal wakes the waiters in `woken`. -/
  | push (c : ℕ) (woken : Finset (Fin n))
  /-- The next step of a call of `destroy_tpool`. -/
  | destroy (d : ℕ)

/-- What a step did, as far as it matters to the threads outside. -/
inductive Event (n : ℕ) (R A : Type)
  | silent
  /-- `add_task_2_tpool` returned `-1`. -/
  | refused (c : ℕ)
  /-- `add_task_2_tpool` returned `0`. -/
  | accepted (c : ℕ) (task : R × A)
  | took (w : Fin n) (task : R × A)
  | ran (w : Fin n) (task : R × A)
  /-- A worker read a set `shutdown`. -/
  | observed (w : Fin n)
  | broadcast (d : ℕ)
  | discarded (d : ℕ)
  deriving DecidableEq

variable {n : ℕ} {P R A : Type}

def TpoolWork.task (work : TpoolWork P R A) : R × A := (work.workRoutine, work.args)

/-- The worker holds `queue_lock`. -/
def WorkerPc.holds : WorkerPc P → Bool
  | .testHead | .testShutdown | .wait | .checkShutdown | .take | .exiting => true
  | _ => false

/-- The next step of the worker accesses the pool. -/
def WorkerPc.usesPool : WorkerPc P → Bool
  | .running _ | .finished _ | .exited => false
  | _ => true

def DestroyPc.usesPool : DestroyPc P → Bool
  | .release _ | .destroyed | .returned => false
  | _ => true

/-- `create_tpool`: every worker is about to enter its loop. -/
def createTpool (n : ℕ) (P R A : Type) : Tpool n P R A where
  shutdown := false
  tpoolHead := none
  queueLock := none
  freed := false
  heap := fun _ => none
  workers := fun _ => .lock
  joined := fun _ => false
  callers := fun _ => none
  destroyers := fun _ => .start

/-- `while(member->next) member = member->next`. -/
def lastMember (heap : P → Option (TpoolWork P R A)) : ℕ → P → Except Stall P
  | 0, _ => .error (.stop .hang)
  | fuel + 1, member =>
      match heap member with
      | none => .error (.stop .fault)
      | some work =>
          match work.next with
          | none => .ok member
          | some next => lastMember heap fuel next

namespace Tpool

variable [DecidableEq P]

def setWorker (s : Tpool n P R A) (w : Fin n) (pc : WorkerPc P) : Tpool n P R A :=
  { s with workers := update s.workers w pc }

def setDestroyer (s : Tpool n P R A) (d : ℕ) (pc : DestroyPc P) : Tpool n P R A :=
  { s with destroyers := update s.destroyers d pc }

/-- The chosen waiters leave the condition. -/
def awaken (s : Tpool n P R A) (woken : Finset (Fin n)) : Tpool n P R A :=
  { s with
    workers := fun w =>
      if s.workers w = .waiting ∧ w ∈ woken then .woken else s.workers w }

/-- `pthread_mutex_lock`, also at the end of `pthread_cond_wait`. -/
def acquire (s : Tpool n P R A) (w : Fin n) : Except Stall (Tpool n P R A × Event n R A) :=
  match s.queueLock with
  | none => .ok ({ s with queueLock := some w }.setWorker w .testHead, .silent)
  | some _ => .error .blocked

/-- One step of `work_routine`. -/
def stepWorker (s : Tpool n P R A) (w : Fin n) :
    Except Stall (Tpool n P R A × Event n R A) :=
  if s.freed ∧ (s.workers w).usesPool then .error (.stop .fault)
  else
    match s.workers w with
    | .lock => s.acquire w
    | .testHead =>
        match s.tpoolHead with
        | none => .ok (s.setWorker w .testShutdown, .silent)
        | some _ => .ok (s.setWorker w .checkShutdown, .silent)
    | .testShutdown =>
        if s.shutdown then .ok (s.setWorker w .checkShutdown, .observed w)
        else .ok (s.setWorker w .wait, .silent)
    | .wait => .ok ({ s with queueLock := none }.setWorker w .waiting, .silent)
    | .waiting => .error .blocked
    | .woken => s.acquire w
    | .checkShutdown =>
        if s.shutdown then .ok (s.setWorker w .exiting, .observed w)
        else .ok (s.setWorker w .take, .silent)
    | .take =>
        match s.tpoolHead with
        | none => .error (.stop .fault)
        | some work =>
            match s.heap work with
            | none => .error (.stop .fault)
            | some node =>
                .ok ({ s with tpoolHead := node.next, queueLock := none }.setWorker w
                  (.running work), .took w node.task)
    | .running work =>
        match s.heap work with
        | none => .error (.stop .fault)
        | some node => .ok (s.setWorker w (.finished work), .ran w node.task)
    | .finished work =>
        match s.heap work with
        | none => .error (.stop .fault)
        | some _ => .ok ({ s with heap := update s.heap work none }.setWorker w .lock, .silent)
    | .exiting => .ok ({ s with queueLock := none }.setWorker w .exited, .silent)
    | .exited => .error .blocked

/-- `add_task_2_tpool` before the lock: the checks, `malloc` and the stores into the item. -/
def addTask2Tpool (s : Tpool n P R A) (c : ℕ) (routine : Option R) (args : A)
    (work : Option P) : Except Stall (Tpool n P R A × Event n R A) :=
  match s.callers c, routine, work with
  | some _, _, _ => .error .blocked
  | none, none, _ => .ok (s, .refused c)
  | none, some _, none => .ok (s, .refused c)
  | none, some routine, some work =>
      -- `malloc` returns no address that is in use
      if (s.heap work).isSome then .error .blocked
      else
        .ok ({ s with
          heap := update s.heap work (some ⟨routine, args, none⟩)
          callers := update s.callers c (some ⟨routine, args, work⟩) }, .silent)

/-- The stores of the section of `add_task_2_tpool`: the item becomes the head of an empty
queue, or the `next` of the last member. -/
def link [Fintype P] (s : Tpool n P R A) (work : P) : Except Stall (Tpool n P R A) :=
  match s.tpoolHead with
  | none => .ok { s with tpoolHead := some work }
  | some member => do
      let last ← lastMember s.heap (Fintype.card P) member
      match s.heap last with
      | none => .error (.stop .fault)
      | some node =>
          return { s with heap := update s.heap last (some { node with next := some work }) }

/-- The section of `add_task_2_tpool`. `pthread_cond_signal` wakes at least one waiter when
there is one. -/
def pushWork [Fintype P] (s : Tpool n P R A) (c : ℕ) (woken : Finset (Fin n)) :
    Except Stall (Tpool n P R A × Event n R A) :=
  match s.callers c with
  | none => .error .blocked
  | some frame =>
      if s.freed then .error (.stop .fault)
      else if s.queueLock.isSome then .error .blocked
      else if (∃ w, s.workers w = .waiting) ∧ ¬ ∃ w ∈ woken, s.workers w = .waiting then
        .error .blocked
      else do
        let t ← s.link frame.work
        return ({ t with callers := update t.callers c none }.awaken woken,
          .accepted c (frame.routine, frame.args))

/-- One step of `destroy_tpool`. -/
def stepDestroy (s : Tpool n P R A) (d : ℕ) : Except Stall (Tpool n P R A × Event n R A) :=
  if s.freed ∧ (s.destroyers d).usesPool then .error (.stop .fault)
  else
    match s.destroyers d with
    | .start =>
        if s.shutdown then .ok (s.setDestroyer d .returned, .silent)
        else .ok (s.setDestroyer d .setShutdown, .silent)
    | .setShutdown => .ok ({ s with shutdown := true }.setDestroyer d .broadcast, .silent)
    | .broadcast =>
        if s.queueLock.isSome then .error .blocked
        else .ok ((s.awaken Finset.univ).setDestroyer d (.join 0), .broadcast d)
    | .join i =>
        if h : i < n then
          if s.workers ⟨i, h⟩ ≠ .exited then .error .blocked
          -- joining a thread twice is undefined
          else if s.joined ⟨i, h⟩ then .error (.stop .fault)
          else
            .ok ({ s with joined := update s.joined ⟨i, h⟩ true }.setDestroyer d
              (.join (i + 1)), .silent)
        else .ok (s.setDestroyer d .discard, .silent)
    | .discard =>
        match s.tpoolHead with
        | none => .ok (s.setDestroyer d .teardown, .silent)
        | some work => .ok (s.setDestroyer d (.unlink work), .silent)
    | .unlink tmpWork =>
        match s.tpoolHead with
        | none => .error (.stop .fault)
        | some work =>
            match s.heap work with
            | none => .error (.stop .fault)
            | some node =>
                .ok ({ s with tpoolHead := node.next }.setDestroyer d (.release tmpWork),
                  .discarded d)
    | .release tmpWork =>
        match s.heap tmpWork with
        | none => .error (.stop .fault)
        | some _ =>
            .ok ({ s with heap := update s.heap tmpWork none }.setDestroyer d .discard, .silent)
    | .teardown => .ok ({ s with freed := true }.setDestroyer d .destroyed, .silent)
    | .destroyed => .error .blocked
    | .returned => .error .blocked

/-- One step of the pool. -/
def step [Fintype P] (s : Tpool n P R A) :
    Action n P R A → Except Stall (Tpool n P R A × Event n R A)
  | .worker w => s.stepWorker w
  | .wake w =>
      if s.workers w = .waiting then .ok (s.setWorker w .woken, .silent) else .error .blocked
  | .add c routine args work => s.addTask2Tpool c routine args work
  | .push c woken => s.pushWork c woken
  | .destroy d => s.stepDestroy d

/-- The runs of the pool after `create_tpool`, with what its steps did. -/
def runFrom [Fintype P] (s : Tpool n P R A) (acts : List (Action n P R A)) :
    Except Stall (Tpool n P R A × List (Event n R A)) :=
  Machine.run step s acts

end Tpool

end DnsRelay.ThreadPool
