import DnsRelay.Lib.Chain
import DnsRelay.ThreadPool.Invariant
import Mathlib.Algebra.GroupWithZero.Nat

/-!
# Delivery of tasks

Every work item in use has one owner: the caller that built it, the queue, or the
worker that took it. The queue hangs from the head, and the tasks of its items are
the accepted tasks that no worker has taken, in their order.
-/

namespace DnsRelay.ThreadPool

open Function DnsRelay.Lib DnsRelay.Lib.Chain

variable {n : ℕ} {P R A : Type}

section Events

def Event.acceptedTask : Event n R A → Option (R × A)
  | .accepted _ task => some task
  | _ => none

def Event.takenTask : Event n R A → Option (Fin n × (R × A))
  | .took w task => some (w, task)
  | _ => none

/-- The event is a discarded work item of `destroy_tpool`. -/
def Event.discards : Event n R A → Bool
  | .discarded _ => true
  | _ => false

/-- The event is a worker that reads a set `shutdown`. -/
def Event.observes : Event n R A → Bool
  | .observed _ => true
  | _ => false

/-- The tasks for which `add_task_2_tpool` returned `0`, in the order of their sections. -/
def accepted (evs : List (Event n R A)) : List (R × A) := evs.filterMap Event.acceptedTask

/-- The tasks that workers took from the queue, each with its worker. -/
def taken (evs : List (Event n R A)) : List (Fin n × (R × A)) := evs.filterMap Event.takenTask

variable {evs : List (Event n R A)} {e : Event n R A}

theorem accepted_concat :
    accepted (evs ++ [e]) = accepted evs ++ e.acceptedTask.toList := by
  rw [accepted, List.filterMap_append]
  cases e <;> rfl

theorem taken_concat : taken (evs ++ [e]) = taken evs ++ e.takenTask.toList := by
  rw [taken, List.filterMap_append]
  cases e <;> rfl

theorem any_discards_eq_false (h : ∀ d, .discarded d ∉ evs) :
    evs.any Event.discards = false := by
  rw [List.any_eq_false]
  intro e he hd
  cases e with
  | discarded d => exact h d he
  | _ => cases hd

end Events

/-- The work item a worker has taken from the queue. -/
def WorkerPc.work : WorkerPc P → Option P
  | .running work | .finished work => some work
  | _ => none

/-- Who may access a work item. -/
inductive Owner (n : ℕ)
  | queue
  | worker (w : Fin n)
  | caller (c : ℕ)

namespace Tpool

/-- The `next` pointers of the work items. -/
def next (s : Tpool n P R A) : P → Option (Option P) := Option.map TpoolWork.next ∘ s.heap

def taskAt (s : Tpool n P R A) : P → Option (R × A) := Option.map TpoolWork.task ∘ s.heap

/-- The items `q` are the queue, and every item in use has one owner. -/
structure Owned (s : Tpool n P R A) (own : P → Owner n) (q : List P) : Prop where
  chain : Hangs s.next s.tpoolHead q
  nodup : q.Nodup
  queue : ∀ p ∈ q, own p = .queue
  worker : ∀ w p, (s.workers w).work = some p → own p = .worker w ∧ (s.heap p).isSome
  caller : ∀ c frame, s.callers c = some frame →
    own frame.work = .caller c ∧ s.heap frame.work = some ⟨frame.routine, frame.args, none⟩

/-- The queue holds the items `q` with the tasks `ts`. -/
def Queued (s : Tpool n P R A) (ts : List (R × A)) : Prop :=
  ∃ own q, s.Owned own q ∧ q.map s.taskAt = ts.map some

section Ownership

variable {s t : Tpool n P R A} {own : P → Owner n} {q : List P} {ts : List (R × A)}

theorem queued_createTpool : (createTpool n P R A).Queued [] := by
  refine ⟨fun _ => .queue, [], ⟨rfl, List.nodup_nil, by simp, ?_, ?_⟩, rfl⟩
  · intro w p h
    cases h
  · intro c frame h
    cases h

/-- Steps that leave the items and their pointers alone, and hand none to a worker. -/
theorem Queued.frame (h : s.Queued ts) (hheap : t.heap = s.heap)
    (hhead : t.tpoolHead = s.tpoolHead) (hcallers : t.callers = s.callers)
    (hwork : ∀ w p, (t.workers w).work = some p → (s.workers w).work = some p) :
    t.Queued ts := by
  obtain ⟨own, q, ho, htasks⟩ := h
  have hnext : t.next = s.next := by rw [next, next, hheap]
  have htask : t.taskAt = s.taskAt := by rw [taskAt, taskAt, hheap]
  refine ⟨own, q, ⟨?_, ho.nodup, ho.queue, ?_, ?_⟩, by rw [htask, htasks]⟩
  · rw [hnext, hhead]
    exact ho.chain
  · intro w p hp
    rw [hheap]
    exact ho.worker w p (hwork w p hp)
  · intro c frame hc
    rw [hheap]
    exact ho.caller c frame (hcallers ▸ hc)

variable {p last : P} {w : Fin n} {c : ℕ} {node : TpoolWork P R A} {frame : AddFrame P R A}

theorem next_of_heap (h : s.heap p = some node) : s.next p = some node.next := by
  simp [next, h]

theorem Owned.notMem_of_worker (ho : s.Owned own q) (h : (s.workers w).work = some p) :
    p ∉ q := by
  intro hp
  have hw := (ho.worker w p h).1
  rw [ho.queue p hp] at hw
  cases hw

theorem Owned.notMem_of_caller (ho : s.Owned own q) (h : s.callers c = some frame) :
    frame.work ∉ q := by
  intro hp
  have hc := (ho.caller c frame h).1
  rw [ho.queue _ hp] at hc
  cases hc

theorem Owned.isSome_of_mem (ho : s.Owned own q) (hp : p ∈ q) : (s.heap p).isSome := by
  have h := ho.chain.isSome_of_mem hp
  simpa [next] using h

section Update

variable [DecidableEq P]

/-- The worker that takes the head becomes its owner. -/
theorem Queued.take (h : s.Queued ts) (hpc : s.workers w = .take)
    (hhead : s.tpoolHead = some p) (hnode : s.heap p = some node) :
    ∃ rest, ts = node.task :: rest ∧
      ({ s with tpoolHead := node.next, queueLock := none }.setWorker w
        (.running p)).Queued rest := by
  obtain ⟨own, q, ho, htasks⟩ := h
  have hchain := ho.chain
  rw [hhead] at hchain
  obtain ⟨t, q, rfl, ht, hchain⟩ := hchain.exists_cons
  rw [next_of_heap hnode] at ht
  cases ht
  obtain ⟨hp, hnodup⟩ := List.nodup_cons.mp ho.nodup
  have hown := ho.queue p (by simp)
  cases ts with
  | nil => cases htasks
  | cons task rest =>
      rw [List.map_cons, List.map_cons, List.cons.injEq] at htasks
      obtain ⟨htask, htasks⟩ := htasks
      have heq : some node.task = some task := by
        rw [← htask]
        simp [taskAt, hnode]
      cases heq
      refine ⟨rest, rfl, update own p (.worker w), q,
        ⟨hchain, hnodup, ?_, ?_, ?_⟩, htasks⟩
      · intro x hx
        have hne : x ≠ p := by
          rintro rfl
          exact hp hx
        rw [update_of_ne hne]
        exact ho.queue x (List.mem_cons_of_mem _ hx)
      · intro v x hx
        by_cases hv : v = w
        · subst hv
          rw [setWorker_workers, update_self] at hx
          cases hx
          exact ⟨update_self _ _ _, by simp [hnode]⟩
        · rw [setWorker_workers, update_of_ne hv] at hx
          obtain ⟨hx, hsome⟩ := ho.worker v x hx
          have hne : x ≠ p := by
            rintro rfl
            rw [hown] at hx
            cases hx
          exact ⟨by rw [update_of_ne hne, hx], hsome⟩
      · intro c frame hc
        obtain ⟨hx, hsome⟩ := ho.caller c frame hc
        have hne : frame.work ≠ p := by
          rintro rfl
          rw [hown] at hx
          cases hx
        exact ⟨by rw [update_of_ne hne, hx], hsome⟩

/-- A worker frees an item of its own. -/
theorem Queued.finish (h : s.Queued ts) (hpc : s.workers w = .finished p)
    (hheap : t.heap = update s.heap p none) (hhead : t.tpoolHead = s.tpoolHead)
    (hcallers : t.callers = s.callers) (hworkers : t.workers = update s.workers w .lock) :
    t.Queued ts := by
  obtain ⟨own, q, ho, htasks⟩ := h
  have hwork : (s.workers w).work = some p := by rw [hpc, WorkerPc.work]
  have hown := (ho.worker w p hwork).1
  have hsame : ∀ x, own x ≠ .worker w → t.heap x = s.heap x := by
    intro x hx
    have hne : x ≠ p := by
      rintro rfl
      exact hx hown
    rw [hheap, update_of_ne hne]
  have hqueue : ∀ x ∈ q, t.heap x = s.heap x := by
    intro x hx
    exact hsame x (by rw [ho.queue x hx]; nofun)
  refine ⟨own, q, ⟨?_, ho.nodup, ho.queue, ?_, ?_⟩, ?_⟩
  · rw [hhead]
    refine ho.chain.congr fun x hx => ?_
    simp [next, hqueue x hx]
  · intro v x hx
    rw [hworkers] at hx
    by_cases hv : v = w
    · rw [hv, update_self] at hx
      cases hx
    · rw [update_of_ne hv] at hx
      obtain ⟨hx, hsome⟩ := ho.worker v x hx
      have hne : own x ≠ .worker w := by
        rw [hx]
        simpa using hv
      exact ⟨hx, by rw [hsame x hne, hsome]⟩
  · intro c frame hc
    rw [hcallers] at hc
    obtain ⟨hx, hitem⟩ := ho.caller c frame hc
    exact ⟨hx, by rw [hsame _ (by rw [hx]; nofun), hitem]⟩
  · rw [← htasks]
    refine List.map_congr_left fun x hx => ?_
    simp [taskAt, hqueue x hx]

/-- A caller owns the item it builds. -/
theorem Queued.build {routine : R} {args : A} (h : s.Queued ts) (hfree : s.heap p = none)
    (hheap : t.heap = update s.heap p (some ⟨routine, args, none⟩))
    (hcallers : t.callers = update s.callers c (some ⟨routine, args, p⟩))
    (hhead : t.tpoolHead = s.tpoolHead) (hworkers : t.workers = s.workers) : t.Queued ts := by
  obtain ⟨own, q, ho, htasks⟩ := h
  have hne : ∀ x, (s.heap x).isSome → x ≠ p := by
    rintro x hx rfl
    rw [hfree] at hx
    cases hx
  have hsame : ∀ x, (s.heap x).isSome → t.heap x = s.heap x := by
    intro x hx
    rw [hheap, update_of_ne (hne x hx)]
  refine ⟨update own p (.caller c), q, ⟨?_, ho.nodup, ?_, ?_, ?_⟩, ?_⟩
  · rw [hhead]
    refine ho.chain.congr fun x hx => ?_
    simp [next, hsame x (ho.isSome_of_mem hx)]
  · intro x hx
    rw [update_of_ne (hne x (ho.isSome_of_mem hx))]
    exact ho.queue x hx
  · intro v x hx
    rw [hworkers] at hx
    obtain ⟨hx, hsome⟩ := ho.worker v x hx
    exact ⟨by rw [update_of_ne (hne x hsome), hx], by rw [hsame x hsome, hsome]⟩
  · intro c' frame' hc'
    rw [hcallers] at hc'
    by_cases heq : c' = c
    · subst heq
      rw [update_self] at hc'
      cases hc'
      exact ⟨update_self _ _ _, by rw [hheap, update_self]⟩
    · rw [update_of_ne heq] at hc'
      obtain ⟨hx, hx'⟩ := ho.caller c' frame' hc'
      have hsome : (s.heap frame'.work).isSome := by rw [hx']; rfl
      exact ⟨by rw [update_of_ne (hne _ hsome), hx], by rw [hsame _ hsome, hx']⟩
  · rw [← htasks]
    refine List.map_congr_left fun x hx => ?_
    simp [taskAt, hsame x (ho.isSome_of_mem hx)]

variable [Fintype P]

omit [DecidableEq P] [Fintype P] in
theorem walks_lastMember (s : Tpool n P R A) : Walks s.next (lastMember s.heap) where
  stop := by
    intro fuel p h
    cases hp : s.heap p with
    | none => simp [next, hp] at h
    | some node =>
        have hnext : node.next = none := by simpa [next, hp] using h
        simp [lastMember, hp, hnext]
  step := by
    intro fuel p x h
    cases hp : s.heap p with
    | none => simp [next, hp] at h
    | some node =>
        have hnext : node.next = some x := by simpa [next, hp] using h
        simp [lastMember, hp, hnext]

/-- The stores of a push append the item to the queue and change no task. -/
theorem link_of_hangs (hq : Hangs s.next s.tpoolHead q) (hnodup : q.Nodup) (hp : p ∉ q)
    (hnull : s.next p = some none) :
    ∃ t, s.link p = .ok t ∧ Hangs t.next t.tpoolHead (q ++ [p]) ∧ t.taskAt = s.taskAt ∧
      ∀ x ∉ q, t.heap x = s.heap x := by
  rcases q.eq_nil_or_concat' with rfl | ⟨l, last, rfl⟩
  · refine ⟨{ s with tpoolHead := some p }, ?_, ⟨rfl, none, hnull, rfl⟩, rfl, fun x _ => rfl⟩
    rw [link, hangs_nil.mp hq]
  · obtain ⟨member, hmember⟩ : ∃ member, s.tpoolHead = some member := by
      cases l with
      | nil => exact ⟨last, hq.1⟩
      | cons x l => exact ⟨x, hq.1⟩
    have hlast := (walks_lastMember s).eq_last_of_card (hmember ▸ hq) hnodup
    obtain ⟨node, hnode⟩ := Option.isSome_iff_exists.mp
      (show (s.heap last).isSome by simpa [next] using hq.isSome_of_mem (p := last) (by simp))
    refine ⟨{ s with heap := update s.heap last (some { node with next := some p }) },
      ?_, ?_, ?_, ?_⟩
    · rw [link, hmember]
      simp only [hlast, bind, Except.bind, hnode]
      rfl
    · rw [next, comp_update]
      exact hq.append hnodup hp hnull
    · rw [taskAt, comp_update, taskAt]
      refine update_eq_self_iff.mpr ?_
      simp [hnode, TpoolWork.task]
    · intro x hx
      have hne : x ≠ last := by
        rintro rfl
        exact hx (by simp)
      exact update_of_ne hne _ _

/-- A caller hands its item over to the queue. -/
theorem Queued.push {u : Tpool n P R A} (h : s.Queued ts) (hc : s.callers c = some frame)
    (hlink : s.link frame.work = .ok t) (hheap : u.heap = t.heap)
    (hhead : u.tpoolHead = t.tpoolHead) (hcallers : u.callers = update s.callers c none)
    (hwork : ∀ w p, (u.workers w).work = some p → (s.workers w).work = some p) :
    u.Queued (ts ++ [(frame.routine, frame.args)]) := by
  obtain ⟨own, q, ho, htasks⟩ := h
  obtain ⟨hown, hitem⟩ := ho.caller c frame hc
  have hmem := ho.notMem_of_caller hc
  obtain ⟨t', hlink', hchain, htask, hframe⟩ :=
    link_of_hangs ho.chain ho.nodup hmem (next_of_heap hitem)
  rw [hlink] at hlink'
  cases hlink'
  have hnext : u.next = t.next := by rw [next, next, hheap]
  have htask' : u.taskAt = s.taskAt := by rw [← htask, taskAt, taskAt, hheap]
  refine ⟨update own frame.work .queue, q ++ [frame.work], ⟨?_, ?_, ?_, ?_, ?_⟩, ?_⟩
  · rw [hnext, hhead]
    exact hchain
  · refine List.nodup_append.mpr ⟨ho.nodup, List.nodup_singleton _, ?_⟩
    rintro x hx y hy rfl
    exact hmem (List.mem_singleton.mp hy ▸ hx)
  · intro x hx
    by_cases hne : x = frame.work
    · rw [hne, update_self]
    · rw [update_of_ne hne]
      exact ho.queue x (by simpa [hne] using hx)
  · intro v x hx
    have hx' := hwork v x hx
    obtain ⟨hw, hsome⟩ := ho.worker v x hx'
    have hne : x ≠ frame.work := by
      rintro rfl
      rw [hown] at hw
      cases hw
    refine ⟨by rw [update_of_ne hne, hw], ?_⟩
    rw [hheap, hframe x (ho.notMem_of_worker hx'), hsome]
  · intro c' frame' hc'
    rw [hcallers] at hc'
    by_cases heq : c' = c
    · rw [heq, update_self] at hc'
      cases hc'
    · rw [update_of_ne heq] at hc'
      obtain ⟨hx, hitem'⟩ := ho.caller c' frame' hc'
      have hne : frame'.work ≠ frame.work := by
        intro h
        rw [h, hown] at hx
        cases hx
        exact heq rfl
      refine ⟨by rw [update_of_ne hne, hx], ?_⟩
      rw [hheap, hframe _ (ho.notMem_of_caller hc'), hitem']
  · rw [htask', List.map_append, List.map_append, htasks]
    simp [taskAt, hitem, TpoolWork.task]

end Update

end Ownership

section Steps

variable [DecidableEq P] {s t : Tpool n P R A} {e : Event n R A} {w : Fin n} {d : ℕ}
  {ts : List (R × A)}

/-- A worker that has not exited goes to another position, and to the head only while
`shutdown` is not set. -/
theorem WorkerStep.moves (h : WorkerStep s w t e) :
    ∃ pc, t.workers = update s.workers w pc ∧ s.workers w ≠ .exited ∧
      t.destroyers = s.destroyers ∧ t.shutdown = s.shutdown ∧
      (pc = .take → s.shutdown = false) := by
  cases h with
  | acquire hpc hlock =>
      refine ⟨_, rfl, ?_, rfl, rfl, nofun⟩
      rcases hpc with hpc | hpc <;> simp [hpc]
  | stay hpc hshut => exact ⟨_, rfl, by simp [hpc], rfl, rfl, fun _ => hshut⟩
  | empty hpc | nonempty hpc | leaveLoop hpc | prepare hpc | wait hpc | leave hpc | take hpc
  | run hpc | finish hpc | exit hpc => exact ⟨_, rfl, by simp [hpc], rfl, rfl, nofun⟩

/-- `destroy_tpool` moves waiting workers only. -/
theorem DestroyStep.workers (h : DestroyStep s d t e) (v : Fin n) :
    t.workers v = s.workers v ∨ s.workers v = .waiting ∧ t.workers v = .woken := by
  cases h with
  | broadcast hpc hlock => exact awaken_workers _ _ v
  | giveUp | begin | shut | join | joined | empty | nonempty | unlink | release | teardown =>
      exact .inl rfl

theorem DestroyStep.shutdown (h : DestroyStep s d t e) (hs : s.shutdown = true) :
    t.shutdown = true := by
  cases h with
  | shut hpc => rfl
  | giveUp | begin | broadcast | join | joined | empty | nonempty | unlink | release
  | teardown => exact hs

omit [DecidableEq P] in
/-- A worker at a position to which none was moved was there before. -/
theorem workers_of_update {pc pc' : WorkerPc P} {v : Fin n}
    (h : update s.workers w pc v = pc') (hne : pc ≠ pc') : v ≠ w ∧ s.workers v = pc' := by
  by_cases hv : v = w
  · rw [hv, update_self] at h
    exact absurd h hne
  · rw [update_of_ne hv] at h
    exact ⟨hv, h⟩

variable [Fintype P]

/-- A worker that has exited takes no further step. -/
theorem Step.exited (h : Step s t e) (hw : s.workers w = .exited) : t.workers w = .exited := by
  cases h with
  | @worker v t e h =>
      obtain ⟨pc, hmove, hlive, -⟩ := h.moves
      have hne : w ≠ v := by
        rintro rfl
        exact hlive hw
      rw [hmove, update_of_ne hne, hw]
  | @wake v hpc =>
      have hne : w ≠ v := by
        rintro rfl
        rw [hw] at hpc
        cases hpc
      rw [setWorker_workers, update_of_ne hne, hw]
  | refuse c => exact hw
  | build routine args hc hfree => exact hw
  | push hc hlive hlock hwoken hlink =>
      obtain ⟨head, heap, rfl⟩ := link_frame hlink
      simp [awaken, hw]
  | destroy h =>
      rcases h.workers w with hv | ⟨hold, -⟩
      · rw [hv, hw]
      · rw [hw] at hold
        cases hold

/-- A worker at the head has not seen `shutdown`. -/
def Closed (s : Tpool n P R A) : Prop := s.shutdown = true ∧ ∀ w, s.workers w ≠ .take

/-- Once `shutdown` is set and no worker is at the head, none comes to the head again. -/
theorem Step.closed (h : Step s t e) (hs : s.Closed) : t.Closed := by
  obtain ⟨hshut, htake⟩ := hs
  cases h with
  | worker h =>
      obtain ⟨pc, hmove, -, -, hsame, hpc⟩ := h.moves
      have hne : pc ≠ .take := by
        intro h
        rw [hpc h] at hshut
        cases hshut
      refine ⟨by rw [hsame, hshut], fun v hv => ?_⟩
      rw [hmove] at hv
      exact htake v (workers_of_update hv hne).2
  | wake hpc => exact ⟨hshut, fun v hv => htake v (workers_of_update hv nofun).2⟩
  | refuse c => exact ⟨hshut, htake⟩
  | build routine args hc hfree => exact ⟨hshut, htake⟩
  | push hc hlive hlock hwoken hlink =>
      obtain ⟨head, heap, rfl⟩ := link_frame hlink
      refine ⟨hshut, fun v hv => htake v ?_⟩
      simp only [awaken] at hv
      split at hv
      · cases hv
      · exact hv
  | destroy h =>
      refine ⟨h.shutdown hshut, fun v hv => ?_⟩
      rcases h.workers v with hsame | ⟨-, hwoken⟩
      · exact htake v (hsame.symm.trans hv)
      · rw [hv] at hwoken
        cases hwoken

/-- The worker that reads a set `shutdown` holds the lock, so no other is at the head. -/
theorem Sound.closed_of_observes (hs : Sound s) (h : Step s t e) (he : e.observes = true) :
    t.Closed := by
  cases h with
  | @worker w t e h =>
      have hother : ∀ {pc : WorkerPc P}, (s.workers w).holds = true → pc ≠ .take →
          ∀ v, update s.workers w pc v ≠ .take := by
        intro pc hholds hpc v hv
        obtain ⟨hne, htake⟩ := workers_of_update hv hpc
        exact hne (hs.eq_of_holds hholds (by rw [htake]; rfl))
      cases h with
      | leaveLoop hpc hshut => exact ⟨hshut, hother (by rw [hpc]; rfl) nofun⟩
      | leave hpc hshut => exact ⟨hshut, hother (by rw [hpc]; rfl) nofun⟩
      | acquire | empty | nonempty | prepare | wait | stay | take | run | finish | exit => cases he
  | wake | refuse | build | push => cases he
  | destroy h => cases h <;> cases he

/-- Only a worker at the head takes a task. -/
theorem Step.takenTask_eq_none (h : Step s t e) (hs : ∀ w, s.workers w ≠ .take) :
    e.takenTask = none := by
  cases h with
  | worker h =>
      cases h with
      | take hpc => exact absurd hpc (hs _)
      | acquire | empty | nonempty | leaveLoop | prepare | wait | leave | stay | run | finish
      | exit => rfl
  | wake | refuse | build | push => rfl
  | destroy h => cases h <;> rfl

/-- A work item is discarded only after every worker was joined. -/
theorem Sound.exited_of_discards (hs : Sound s) (h : Step s t e) (he : e.discards = true)
    (w : Fin n) : s.workers w = .exited := by
  cases h with
  | worker h => cases h <;> cases he
  | wake | refuse | build | push => cases he
  | @destroy d t e h =>
      have hok := hs.destroyer d
      cases h with
      | unlink hpc hhead hnode =>
          rw [hpc] at hok
          exact hok.2 w
      | giveUp | begin | shut | broadcast | join | joined | empty | nonempty | release
      | teardown => cases he

/-- `destroy_tpool` frees items only after it has taken one off the queue. -/
theorem Step.release (h : Step s t e) {p : P} (hd : t.destroyers d = .release p) :
    (∃ d p, s.destroyers d = .release p) ∨ e.discards = true := by
  cases h with
  | worker h =>
      obtain ⟨-, -, -, hsame, -⟩ := h.moves
      exact .inl ⟨d, p, by rw [← hsame, hd]⟩
  | wake | refuse | build => exact .inl ⟨d, p, hd⟩
  | push hc hlive hlock hwoken hlink =>
      obtain ⟨head, heap, rfl⟩ := link_frame hlink
      exact .inl ⟨d, p, hd⟩
  | @destroy d' t e h =>
      cases h with
      | unlink => exact .inr rfl
      | giveUp | begin | shut | broadcast | join | joined | empty | nonempty | release
      | teardown =>
          rw [setDestroyer_destroyers] at hd
          by_cases hne : d = d'
          · rw [hne, update_self] at hd
            cases hd
          · rw [update_of_ne hne] at hd
            exact .inl ⟨d, p, hd⟩

omit [DecidableEq P] [Fintype P] in
theorem work_of_update {pc : WorkerPc P}
    (hpc : ∀ p, pc.work = some p → (s.workers w).work = some p) (v : Fin n) (p : P)
    (h : (update s.workers w pc v).work = some p) : (s.workers v).work = some p := by
  by_cases hv : v = w
  · rw [hv, update_self] at h
    rw [hv]
    exact hpc p h
  · rwa [update_of_ne hv] at h

omit [Fintype P] in
theorem work_of_awaken {woken : Finset (Fin n)} (v : Fin n) (p : P)
    (h : ((s.awaken woken).workers v).work = some p) : (s.workers v).work = some p := by
  rcases awaken_workers s woken v with hv | ⟨-, hv⟩
  · rwa [hv] at h
  · rw [hv] at h
    cases h

/-- A section appends the accepted task to the queue, a worker takes the first task off it,
and every other step but those of a discarding `destroy_tpool` leaves the queue alone. -/
theorem Step.queued (h : Step s t e) (hq : s.Queued ts) (he : e.discards = false)
    (hrelease : ∀ d p, s.destroyers d ≠ .release p) :
    ∃ rest, t.Queued rest ∧
      ts ++ e.acceptedTask.toList = e.takenTask.toList.map Prod.snd ++ rest := by
  have hframe : t.Queued ts → e.acceptedTask = none → e.takenTask = none →
      ∃ rest, t.Queued rest ∧
        ts ++ e.acceptedTask.toList = e.takenTask.toList.map Prod.snd ++ rest := by
    intro ht ha hk
    exact ⟨ts, ht, by rw [ha, hk]; simp⟩
  cases h with
  | worker h =>
      cases h with
      | take hpc hhead hnode =>
          obtain ⟨rest, rfl, hrest⟩ := hq.take hpc hhead hnode
          exact ⟨rest, hrest, by simp [Event.acceptedTask, Event.takenTask]⟩
      | run hpc hnode =>
          refine hframe (hq.frame rfl rfl rfl (work_of_update fun p hp => ?_)) rfl rfl
          rw [hpc]
          exact hp
      | finish hpc hnode => exact hframe (hq.finish hpc rfl rfl rfl rfl) rfl rfl
      | acquire | empty | nonempty | leaveLoop | prepare | wait | leave | stay | exit =>
          exact hframe (hq.frame rfl rfl rfl (work_of_update nofun)) rfl rfl
  | wake hpc => exact hframe (hq.frame rfl rfl rfl (work_of_update nofun)) rfl rfl
  | refuse c => exact hframe hq rfl rfl
  | build routine args hc hfree =>
      exact hframe (Queued.build hq hfree rfl rfl rfl rfl) rfl rfl
  | push hc hlive hlock hwoken hlink =>
      refine ⟨_, hq.push hc hlink rfl rfl ?_ ?_, rfl⟩
      · obtain ⟨head, heap, rfl⟩ := link_frame hlink
        rfl
      · obtain ⟨head, heap, rfl⟩ := link_frame hlink
        exact work_of_awaken
  | destroy h =>
      cases h with
      | unlink => cases he
      | release hpc => exact absurd hpc (hrelease _ _)
      | broadcast => exact hframe (hq.frame rfl rfl rfl work_of_awaken) rfl rfl
      | giveUp | begin | shut | join | joined | empty | nonempty | teardown =>
          exact hframe (hq.frame rfl rfl rfl fun v p hp => hp) rfl rfl

end Steps

section Run

variable [DecidableEq P] [Fintype P] {s t : Tpool n P R A} {e : Event n R A}
  {evs : List (Event n R A)}

/-- What the events of a run say about its last state. -/
structure History (s : Tpool n P R A) (evs : List (Event n R A)) : Prop where
  sound : Sound s
  order : (taken evs).map Prod.snd <+: accepted evs
  queue : evs.any Event.discards = false →
    ∃ ts, s.Queued ts ∧ accepted evs = (taken evs).map Prod.snd ++ ts
  discarded : evs.any Event.discards = true → ∀ w, s.workers w = .exited
  release : ∀ d p, s.destroyers d = .release p → evs.any Event.discards = true
  observed : evs.any Event.observes = true → s.Closed
  last : evs.Pairwise fun e e' => e.observes = true → e'.takenTask = none

omit [DecidableEq P] [Fintype P] in
theorem history_createTpool : History (createTpool n P R A) [] where
  sound := sound_createTpool
  order := List.nil_prefix
  queue := fun _ => ⟨[], queued_createTpool, rfl⟩
  discarded := nofun
  release := nofun
  observed := nofun
  last := List.Pairwise.nil

/-- Before the first discarded item the accepted tasks are the taken ones and the queue. -/
theorem History.queue_step (h : History s evs) (hs : Step s t e)
    (he : (evs ++ [e]).any Event.discards = false) :
    ∃ ts, t.Queued ts ∧ accepted (evs ++ [e]) = (taken (evs ++ [e])).map Prod.snd ++ ts := by
  simp only [List.any_append, List.any_cons, List.any_nil, Bool.or_false,
    Bool.or_eq_false_iff] at he
  obtain ⟨ts, hq, heq⟩ := h.queue he.1
  have hrelease : ∀ d p, s.destroyers d ≠ .release p := by
    intro d p hd
    rw [h.release d p hd] at he
    cases he.1
  obtain ⟨rest, hrest, hsplit⟩ := hs.queued hq he.2 hrelease
  refine ⟨rest, hrest, ?_⟩
  rw [accepted_concat, taken_concat, heq, List.append_assoc, hsplit, List.map_append,
    List.append_assoc]

theorem History.step (h : History s evs) (hs : Step s t e) : History t (evs ++ [e]) where
  sound := h.sound.step hs
  order := by
    cases he : (evs ++ [e]).any Event.discards with
    | false =>
        obtain ⟨ts, -, heq⟩ := h.queue_step hs he
        rw [heq]
        exact List.prefix_append _ _
    | true =>
        -- an item was discarded, so every worker has exited and none takes a task
        have hexited : ∀ w, s.workers w = .exited := by
          simp only [List.any_append, List.any_cons, List.any_nil, Bool.or_false,
            Bool.or_eq_true] at he
          rcases he with he | he
          · exact h.discarded he
          · exact h.sound.exited_of_discards hs he
        have hnone := hs.takenTask_eq_none fun w hw => by
          rw [hexited w] at hw
          cases hw
        rw [taken_concat, hnone, accepted_concat, Option.toList_none, List.append_nil]
        exact h.order.trans (List.prefix_append _ _)
  queue := h.queue_step hs
  discarded := by
    intro he w
    refine hs.exited ?_
    simp only [List.any_append, List.any_cons, List.any_nil, Bool.or_false,
      Bool.or_eq_true] at he
    rcases he with he | he
    · exact h.discarded he w
    · exact h.sound.exited_of_discards hs he w
  release := by
    intro d p hd
    rw [List.any_append]
    rcases hs.release hd with ⟨d', p', hd'⟩ | he
    · simp [h.release d' p' hd']
    · simp [he]
  observed := by
    intro he
    simp only [List.any_append, List.any_cons, List.any_nil, Bool.or_false,
      Bool.or_eq_true] at he
    rcases he with he | he
    · exact hs.closed (h.observed he)
    · exact h.sound.closed_of_observes hs he
  last := by
    refine List.pairwise_append.mpr ⟨h.last, List.pairwise_singleton _ _, ?_⟩
    intro e₁ he₁ e₂ he₂ hobs
    rw [List.mem_singleton.mp he₂]
    exact hs.takenTask_eq_none (h.observed (List.any_eq_true.mpr ⟨e₁, he₁, hobs⟩)).2

theorem history_of_run {acts : List (Action n P R A)}
    (h : (createTpool n P R A).runFrom acts = .ok (s, evs)) : History s evs :=
  Machine.run_history History (fun _ _ _ _ _ hh hstep => hh.step (step_cases hstep))
    history_createTpool h

end Run

end Tpool

section Delivery

variable [DecidableEq P] [Fintype P] {s : Tpool n P R A} {evs : List (Event n R A)}

omit [DecidableEq P] [Fintype P] in
/-- Different tasks that were taken in turn have one worker each. -/
theorem existsUnique_taker {task : R × A} (hnodup : ((taken evs).map Prod.snd).Nodup)
    (h : task ∈ (taken evs).map Prod.snd) : ∃! w, (w, task) ∈ taken evs := by
  obtain ⟨⟨w, task'⟩, hmem, rfl⟩ := List.mem_map.mp h
  refine ⟨w, hmem, fun v hv => ?_⟩
  have heq := List.inj_on_of_nodup_map hnodup hv hmem rfl
  exact congrArg Prod.fst heq

/-- In every run of the pool the taken tasks are the first accepted ones in their order, each
taken by one worker. The other accepted tasks are in the queue, each in one item, until
`destroy_tpool` discards it, which is after every worker has exited. After a worker has seen
`shutdown` no task is taken. -/
theorem tpool_delivers_once_in_order (acts : List (Action n P R A))
    (h : (createTpool n P R A).runFrom acts = .ok (s, evs)) :
    (taken evs).map Prod.snd <+: accepted evs ∧
      (∀ k, k < (taken evs).length → ∃! w, ∃ task,
        (taken evs)[k]? = some (w, task) ∧ (accepted evs)[k]? = some task) ∧
      ((accepted evs).Nodup → ∀ task ∈ (taken evs).map Prod.snd, ∃! w, (w, task) ∈ taken evs) ∧
      ((∀ d, .discarded d ∉ evs) → ∃ q : List P, Hangs s.next s.tpoolHead q ∧ q.Nodup ∧
        q.map s.taskAt = ((accepted evs).drop (taken evs).length).map some) ∧
      (∀ d, .discarded d ∈ evs → ∀ w, s.workers w = .exited) ∧
      ∀ before after w, evs = before ++ .observed w :: after → taken after = [] := by
  have hh := Tpool.history_of_run h
  refine ⟨hh.order, ?_, ?_, ?_, ?_, ?_⟩
  · intro k hk
    obtain ⟨⟨w, task⟩, hget⟩ : ∃ x, (taken evs)[k]? = some x := ⟨_, List.getElem?_eq_getElem hk⟩
    have hacc : (accepted evs)[k]? = some task := by
      obtain ⟨rest, hrest⟩ := hh.order
      rw [← hrest, List.getElem?_append_left (by simpa using hk), List.getElem?_map, hget]
      rfl
    refine ⟨w, ⟨task, hget, hacc⟩, ?_⟩
    rintro v ⟨task', hv, -⟩
    rw [hget] at hv
    cases hv
    rfl
  · intro hnodup task htask
    exact existsUnique_taker (hnodup.sublist hh.order.sublist) htask
  · intro hnone
    obtain ⟨ts, ⟨own, q, ho, htasks⟩, heq⟩ := hh.queue (any_discards_eq_false hnone)
    refine ⟨q, ho.chain, ho.nodup, ?_⟩
    have hlen : (taken evs).length = ((taken evs).map Prod.snd).length := by simp
    rw [htasks, heq, hlen, List.drop_left]
  · intro d hd
    exact hh.discarded (List.any_eq_true.mpr ⟨_, hd, rfl⟩)
  · rintro before after w rfl
    have hpair := (List.pairwise_append.mp hh.last).2.1
    rw [taken, List.filterMap_eq_nil_iff]
    intro e he
    exact (List.pairwise_cons.mp hpair).1 e he rfl

/-- One worker waits, takes the first of two tasks, and sees `shutdown` while the second is
in the queue. -/
def shutdownRun : List (Action 1 (Fin 2) ℕ Unit) :=
  List.replicate 4 (.worker 0) ++
    [.add 0 (some 7) () (some 0), .push 0 {0}, .add 1 (some 8) () (some 1), .worker 0, .worker 0,
      .worker 0, .worker 0, .push 1 ∅, .worker 0, .worker 0, .destroy 0, .destroy 0, .worker 0,
      .worker 0, .worker 0]

theorem tpool_delivers_shutdownRun :
    ∃ s evs, (createTpool 1 (Fin 2) ℕ Unit).runFrom shutdownRun = .ok (s, evs) ∧
      accepted evs = [(7, ()), (8, ())] ∧ taken evs = [(0, (7, ()))] ∧
      (taken evs).map Prod.snd <+: accepted evs ∧
      ∃ q, Hangs s.next s.tpoolHead q ∧ q.Nodup ∧ q.map s.taskAt = [some (8, ())] :=
  ⟨_, _, rfl, rfl, rfl, (tpool_delivers_once_in_order shutdownRun rfl).1,
    (tpool_delivers_once_in_order shutdownRun rfl).2.2.2.1 (by simp)⟩

end Delivery

section Safety

variable [DecidableEq P] [Fintype P] {s : Tpool n P R A} {evs : List (Event n R A)}
  {acts : List (Action n P R A)} {e : Stop}

omit [Fintype P] in
theorem Tpool.Sound.stepWorker_ne_stop {ts : List (R × A)} (hs : s.Sound) (hq : s.Queued ts)
    (hlive : s.freed = false) (w : Fin n) : s.stepWorker w ≠ .error (.stop e) := by
  obtain ⟨own, q, ho, -⟩ := hq
  have hok := hs.worker w
  have hwork := ho.worker w
  unfold Tpool.stepWorker
  rw [if_neg (by simp [hlive])]
  cases hpc : s.workers w with
  | lock | woken =>
      simp only [Tpool.acquire]
      split <;> nofun
  | testHead =>
      simp only
      split <;> nofun
  | testShutdown | checkShutdown =>
      simp only
      split <;> nofun
  | wait | waiting | exiting | exited => nofun
  | take =>
      rw [hpc] at hok
      obtain ⟨p, hp⟩ := Option.ne_none_iff_exists'.mp hok
      have hchain := ho.chain
      rw [hp] at hchain
      obtain ⟨t, rest, rfl, -⟩ := hchain.exists_cons
      obtain ⟨node, hnode⟩ := Option.isSome_iff_exists.mp
        (ho.isSome_of_mem (p := p) List.mem_cons_self)
      simp [hp, hnode]
  | running p | finished p =>
      rw [hpc] at hwork
      obtain ⟨node, hnode⟩ := Option.isSome_iff_exists.mp (hwork p rfl).2
      simp [hnode]

theorem Tpool.Queued.pushWork_ne_stop {ts : List (R × A)} (hq : s.Queued ts)
    (hlive : s.freed = false) (c : ℕ) (woken : Finset (Fin n)) :
    s.pushWork c woken ≠ .error (.stop e) := by
  obtain ⟨own, q, ho, -⟩ := hq
  unfold Tpool.pushWork
  split
  case h_1 => nofun
  case h_2 frame hc =>
    obtain ⟨t, hlink, -⟩ := Tpool.link_of_hangs ho.chain ho.nodup (ho.notMem_of_caller hc)
      (Tpool.next_of_heap (ho.caller c frame hc).2)
    rw [if_neg (by simp [hlive]), hlink]
    split
    · nofun
    · split <;> nofun

/-- Until the queue is discarded or the pool freed, no worker and no section of
`add_task_2_tpool` accesses an item that is not allocated, and the walk to the last item ends. -/
theorem tpool_never_faults (h : (createTpool n P R A).runFrom acts = .ok (s, evs))
    (hnone : ∀ d, .discarded d ∉ evs) (hlive : s.freed = false) :
    (∀ w, s.step (.worker w) ≠ .error (.stop e)) ∧
      ∀ c woken, s.step (.push c woken) ≠ .error (.stop e) := by
  have hh := Tpool.history_of_run h
  obtain ⟨ts, hq, -⟩ := hh.queue (any_discards_eq_false hnone)
  exact ⟨hh.sound.stepWorker_ne_stop hq hlive, hq.pushWork_ne_stop hlive⟩

end Safety

end DnsRelay.ThreadPool
