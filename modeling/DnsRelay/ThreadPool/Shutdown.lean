import DnsRelay.ThreadPool.Progress

/-!
# The end of the pool

A call of `destroy_tpool` sets `shutdown`, wakes every worker up and joins them one after
the other. What is left in the queue is then its own: nobody else moves any more, and it
takes the items off one by one and frees them. The ranks of the workers and the steps that
are left for the call bound the steps of both together.
-/

namespace DnsRelay.ThreadPool

open Function DnsRelay.Lib DnsRelay.Lib.Chain

variable {n : ℕ} {P R A : Type}

/-- The number of items that were discarded. -/
def discarded (evs : List (Event n R A)) : ℕ := evs.countP Event.discards

/-- The steps that the call has left, when the items in the queue are counted elsewhere. The
broadcast may give each worker five steps. -/
def DestroyPc.rank (n : ℕ) : DestroyPc P → ℕ
  | .start => 6 * n + 6
  | .setShutdown => 6 * n + 5
  | .broadcast => 6 * n + 4
  | .join i => n - i + 3
  | .release _ => 3
  | .discard => 2
  | .unlink _ | .teardown => 1
  | .destroyed | .returned => 0

/-- The call has not joined all threads. -/
def DestroyPc.joins : DestroyPc P → Bool
  | .start | .setShutdown | .broadcast | .join _ => true
  | _ => false

namespace Tpool

section Closing

variable {s t : Tpool n P R A} {e : Event n R A} {w : Fin n} {d : ℕ} {ts rest : List (R × A)}
  {evs : List (Event n R A)} {pd : DestroyPc P}

/-- The threads that are joined, and whether the pool is freed, while the only call of
`destroy_tpool` is at a position. -/
def Joining (s : Tpool n P R A) : DestroyPc P → Prop
  | .start => s.shutdown = false ∧ s.freed = false ∧ ∀ w, s.joined w = false
  | .setShutdown | .broadcast => s.freed = false ∧ ∀ w, s.joined w = false
  | .join i => s.freed = false ∧ ∀ w : Fin n, s.joined w = decide ((w : ℕ) < i)
  | .discard | .unlink _ | .release _ | .teardown => s.freed = false ∧ ∀ w, s.joined w = true
  | .destroyed => s.freed = true ∧ ∀ w, s.joined w = true
  | .returned => False

/-- The items that are left in the queue, with the tasks `ts`, and what the call knows of
them. -/
def Holding (s : Tpool n P R A) (ts : List (R × A)) : DestroyPc P → Prop
  | .unlink p => s.tpoolHead = some p ∧ s.Queued ts
  | .release p => ∃ own q, s.Owned own q ∧ q.map s.taskAt = ts.map some ∧ own p = .queue ∧
      p ∉ q ∧ (s.heap p).isSome
  | .teardown | .destroyed => s.tpoolHead = none ∧ s.Queued ts
  | _ => s.Queued ts

@[simp] theorem setDestroyer_joined : (s.setDestroyer d pd).joined = s.joined := rfl

theorem Holding.queued (h : s.Holding ts pd) (hpd : pd.joins = true) : s.Queued ts := by
  cases pd with
  | start | setShutdown | broadcast | join i => exact h
  | discard | unlink p | release p | teardown | destroyed | returned => cases hpd

theorem Queued.holding (h : s.Queued ts) (hpd : pd.joins = true) : s.Holding ts pd := by
  cases pd with
  | start | setShutdown | broadcast | join i => exact h
  | discard | unlink p | release p | teardown | destroyed | returned => cases hpd

theorem Joining.congr (h : s.Joining pd) (hshut : t.shutdown = s.shutdown)
    (hfreed : t.freed = s.freed) (hjoined : t.joined = s.joined) : t.Joining pd := by
  unfold Joining at h ⊢
  rw [hshut, hfreed, hjoined]
  exact h

/-- What has been accepted has been taken, discarded, or is left. -/
def Balanced (evs : List (Event n R A)) (ts : List (R × A)) : Prop :=
  (accepted evs).length = (taken evs).length + discarded evs + ts.length

theorem Balanced.concat (h : Balanced evs ts)
    (he : e.acceptedTask.toList.length + ts.length =
      e.takenTask.toList.length + (if e.discards then 1 else 0) + rest.length) :
    Balanced (evs ++ [e]) rest := by
  have hcount : discarded (evs ++ [e]) = discarded evs + if e.discards then 1 else 0 := by
    rw [discarded, List.countP_append, List.countP_singleton, discarded]
  have hold : (accepted evs).length = (taken evs).length + discarded evs + ts.length := h
  rw [Balanced, accepted_concat, taken_concat, hcount, List.length_append, List.length_append]
  omega

/-- The state of the pool while the call `d` of `destroy_tpool`, and no other, goes on. -/
structure Closing (d : ℕ) (s : Tpool n P R A) (evs : List (Event n R A)) (ts : List (R × A)) :
    Prop where
  sound : Sound s
  joining : s.Joining (s.destroyers d)
  holding : s.Holding ts (s.destroyers d)
  balance : Balanced evs ts

/-- While a worker has not exited the call is still joining. -/
theorem Closing.joins (h : Closing d s evs ts) (hw : s.workers w ≠ .exited) :
    (s.destroyers d).joins = true := by
  have hok := h.sound.destroyer d
  have hj := h.joining
  cases hpd : s.destroyers d with
  | start | setShutdown | broadcast | join i => rfl
  | discard | unlink p | release p | teardown | destroyed =>
      rw [hpd] at hok
      exact absurd (hok.2 w) hw
  | returned =>
      rw [hpd] at hj
      exact hj.elim

theorem Joining.freed (h : s.Joining pd) (hpd : pd.joins = true) : s.freed = false := by
  cases pd with
  | start => exact h.2.1
  | setShutdown | broadcast | join i => exact h.1
  | discard | unlink p | release p | teardown | destroyed | returned => cases hpd

/-- The steps that the pool has left, at most. -/
def closingRank (d : ℕ) (s : Tpool n P R A) (ts : List (R × A)) : ℕ :=
  7 * ts.length + s.workersRank + (s.destroyers d).rank n

variable [DecidableEq P]

theorem WorkerStep.frame (h : WorkerStep s w t e) :
    t.freed = s.freed ∧ t.joined = s.joined ∧ e.acceptedTask = none ∧ e.discards = false := by
  cases h <;> exact ⟨rfl, rfl, rfl, rfl⟩

/-- A step of a worker goes on with the items that are left. -/
theorem Closing.worker [Fintype P] (h : Closing d s evs ts) (hs : WorkerStep s w t e) :
    ∃ rest, Closing d t (evs ++ [e]) rest ∧ closingRank d t rest < closingRank d s ts := by
  obtain ⟨-, -, hlive, hd, hshut, -⟩ := hs.moves
  obtain ⟨hfreed, hjoined, haccepted, hdiscards⟩ := hs.frame
  have hpd := h.joins hlive
  obtain ⟨rest, hrest, hlen⟩ := hs.queued h.sound (h.holding.queued hpd)
  refine ⟨rest, ⟨h.sound.step (.worker hs), ?_, ?_, ?_⟩, ?_⟩
  · rw [hd]
    exact h.joining.congr hshut hfreed hjoined
  · rw [hd]
    exact hrest.holding hpd
  · apply h.balance.concat
    simp [haccepted, hdiscards, hlen]
  · have hrank := hs.rank
    rw [closingRank, closingRank, hd]
    omega

/-- A broadcast gives each worker at most the steps of one that was woken. -/
theorem workersRank_awaken (s : Tpool n P R A) (woken : Finset (Fin n)) :
    (s.awaken woken).workersRank ≤ s.workersRank + 5 * n := by
  have hone : ∀ w, ((s.awaken woken).workers w).rank ≤ (s.workers w).rank + 5 := by
    intro w
    rcases awaken_workers s woken w with h | ⟨-, h⟩
    · rw [h]
      omega
    · rw [h, WorkerPc.rank]
      omega
  calc (s.awaken woken).workersRank
      ≤ ∑ w : Fin n, ((s.workers w).rank + 5) := Finset.sum_le_sum fun w _ => hone w
    _ = s.workersRank + 5 * n := by
        rw [Finset.sum_add_distrib, workersRank]
        simp [mul_comm]

omit [DecidableEq P] in
/-- The item that the call takes off the queue is nobody else's. -/
theorem Queued.unlink {p : P} {node : TpoolWork P R A} (h : s.Queued ts)
    (hhead : s.tpoolHead = some p) (hnode : s.heap p = some node) :
    ∃ rest, ts.length = rest.length + 1 ∧
      ({ s with tpoolHead := node.next }.setDestroyer d (.release p)).Holding rest
        (.release p) := by
  obtain ⟨own, q, ho, htasks⟩ := h
  have hchain := ho.chain
  rw [hhead] at hchain
  obtain ⟨x, q, rfl, hx, hchain⟩ := hchain.exists_cons
  rw [next_of_heap hnode] at hx
  cases hx
  obtain ⟨hp, hnodup⟩ := List.nodup_cons.mp ho.nodup
  cases ts with
  | nil => cases htasks
  | cons task rest =>
      rw [List.map_cons, List.map_cons, List.cons.injEq] at htasks
      refine ⟨rest, rfl, own, q, ⟨hchain, hnodup, ?_, ho.worker, ho.caller⟩, htasks.2,
        ho.queue p List.mem_cons_self, hp, ?_⟩
      · exact fun x hx => ho.queue x (List.mem_cons_of_mem _ hx)
      · simp [hnode]

/-- Freeing it leaves the others as they are. -/
theorem Holding.release {p : P} (h : s.Holding ts (.release p)) :
    ({ s with heap := update s.heap p none }.setDestroyer d .discard).Queued ts := by
  obtain ⟨own, q, ho, htasks, hown, hp, -⟩ := h
  have hsame : ∀ x, x ≠ p → update s.heap p none x = s.heap x := fun x hx => update_of_ne hx _ _
  have hne : ∀ {o : Owner n} {x : P}, own x = o → o ≠ .queue → x ≠ p := by
    rintro o x hx ho rfl
    exact ho (hx.symm.trans hown)
  refine ⟨own, q, ⟨?_, ho.nodup, ho.queue, ?_, ?_⟩, ?_⟩
  · refine ho.chain.congr fun x hx => ?_
    have hxp : x ≠ p := fun hxp => hp (hxp ▸ hx)
    simp [next, hsame x hxp]
  · intro w x hx
    obtain ⟨hx, hsome⟩ := ho.worker w x hx
    exact ⟨hx, by simpa [hsame x (hne hx (by simp))] using hsome⟩
  · intro c frame hc
    obtain ⟨hx, hitem⟩ := ho.caller c frame hc
    exact ⟨hx, by simpa [hsame _ (hne hx (by simp))] using hitem⟩
  · rw [← htasks]
    refine List.map_congr_left fun x hx => ?_
    have hxp : x ≠ p := fun hxp => hp (hxp ▸ hx)
    simp [taskAt, hsame x hxp]

/-- The call goes to another position and leaves the items as they are. -/
theorem Closing.move [Fintype P] (h : Closing d s evs ts) (hs : DestroyStep s d t e)
    (hd : t.destroyers = update s.destroyers d pd) (hj : t.Joining pd) (hh : t.Holding ts pd)
    (hquiet : e.discards = false)
    (hrank : t.workersRank + pd.rank n < s.workersRank + (s.destroyers d).rank n) :
    ∃ rest, Closing d t (evs ++ [e]) rest ∧ closingRank d t rest < closingRank d s ts := by
  have hevent : e.acceptedTask = none ∧ e.takenTask = none := by
    cases hs <;> exact ⟨rfl, rfl⟩
  have hpd : t.destroyers d = pd := by rw [hd, update_self]
  refine ⟨ts, ⟨h.sound.step (.destroy hs), by rwa [hpd], by rwa [hpd], ?_⟩, ?_⟩
  · apply h.balance.concat
    simp [hevent, hquiet]
  · rw [closingRank, closingRank, hpd]
    omega

/-- A step of the call goes on with the items that are left. -/
theorem Closing.destroy [Fintype P] (h : Closing d s evs ts) (hs : DestroyStep s d t e) :
    ∃ rest, Closing d t (evs ++ [e]) rest ∧ closingRank d t rest < closingRank d s ts := by
  have hj := h.joining
  have hh := h.holding
  have hframe : ∀ {u : Tpool n P R A}, u.heap = s.heap → u.tpoolHead = s.tpoolHead →
      u.callers = s.callers → u.workers = s.workers → s.Queued ts → u.Queued ts := by
    intro u hheap hhead hcallers hworkers hq
    refine hq.frame hheap hhead hcallers fun w p hp => ?_
    rwa [hworkers] at hp
  cases hs with
  | giveUp hpc hshut =>
      rw [hpc] at hj
      rw [hj.1] at hshut
      cases hshut
  | begin hpc hshut =>
      rw [hpc] at hj hh
      refine h.move (.begin hpc hshut) rfl hj.2 (hframe rfl rfl rfl rfl hh) rfl ?_
      rw [hpc]
      exact Nat.add_lt_add_left (Nat.lt_succ_self _) _
  | shut hpc =>
      rw [hpc] at hj hh
      refine h.move (.shut hpc) rfl hj (hframe rfl rfl rfl rfl hh) rfl ?_
      rw [hpc]
      exact Nat.add_lt_add_left (Nat.lt_succ_self _) _
  | broadcast hpc hlock =>
      rw [hpc] at hj hh
      have hqueue : ((s.awaken Finset.univ).setDestroyer d (.join 0)).Queued ts :=
        hh.queued rfl |>.frame rfl rfl rfl work_of_awaken
      refine h.move (.broadcast hpc hlock) rfl ⟨hj.1, by simp [awaken, hj.2]⟩ hqueue rfl ?_
      have hwake := workersRank_awaken s Finset.univ
      rw [hpc]
      simp only [workersRank, setDestroyer_workers, DestroyPc.rank] at hwake ⊢
      omega
  | @join w hpc hw =>
      rw [hpc] at hj hh
      refine h.move (.join hpc hw) rfl ⟨hj.1, fun v => ?_⟩ (hframe rfl rfl rfl rfl hh) rfl ?_
      · by_cases hv : v = w
        · subst hv
          simp
        · have hne : (v : ℕ) ≠ w := fun h => hv (Fin.ext h)
          have hkeep : update s.joined w true v = decide ((v : ℕ) < w) := by
            rw [update_of_ne hv, hj.2 v]
          refine hkeep.trans (decide_eq_decide.mpr ?_)
          omega
      · have hlt := w.isLt
        rw [hpc]
        simp only [workersRank, setDestroyer_workers, DestroyPc.rank]
        omega
  | joined hpc hi =>
      rw [hpc] at hj hh
      refine h.move (.joined hpc hi) rfl ⟨hj.1, fun v => ?_⟩ (hframe rfl rfl rfl rfl hh) rfl ?_
      · rw [setDestroyer_joined, hj.2 v]
        exact decide_eq_true (by omega)
      · rw [hpc]
        simp only [workersRank, setDestroyer_workers, DestroyPc.rank]
        omega
  | empty hpc hhead =>
      rw [hpc] at hj hh
      refine h.move (.empty hpc hhead) rfl hj ⟨hhead, hframe rfl rfl rfl rfl hh⟩ rfl ?_
      rw [hpc]
      exact Nat.add_lt_add_left (Nat.lt_succ_self _) _
  | nonempty hpc hhead =>
      rw [hpc] at hj hh
      refine h.move (.nonempty hpc hhead) rfl hj ⟨hhead, hframe rfl rfl rfl rfl hh⟩ rfl ?_
      rw [hpc]
      exact Nat.add_lt_add_left (Nat.lt_succ_self _) _
  | @unlink tmpWork work node hpc hhead hnode =>
      rw [hpc] at hj hh
      have hsame := hh.1
      rw [hhead] at hsame
      cases hsame
      obtain ⟨rest, hlen, hrest⟩ := hh.2.unlink (d := d) hhead hnode
      refine ⟨rest, ⟨h.sound.step (.destroy (.unlink hpc hhead hnode)), ?_, ?_, ?_⟩, ?_⟩
      · simpa [Joining] using hj
      · simpa using hrest
      · apply h.balance.concat
        simp [Event.acceptedTask, Event.takenTask, Event.discards, hlen, Nat.add_comm]
      · simp only [closingRank, hpc, workersRank, setDestroyer_workers, setDestroyer_destroyers,
          update_self, DestroyPc.rank]
        omega
  | release hpc =>
      rw [hpc] at hj hh
      refine h.move (.release hpc) rfl hj hh.release rfl ?_
      rw [hpc]
      exact Nat.add_lt_add_left (Nat.lt_succ_self _) _
  | teardown hpc =>
      rw [hpc] at hj hh
      refine h.move (.teardown hpc) rfl ⟨rfl, hj.2⟩
        ⟨hh.1, hframe rfl rfl rfl rfl hh.2⟩ rfl ?_
      rw [hpc]
      exact Nat.add_lt_add_left (Nat.lt_succ_self _) _

/-- No worker stops the program. -/
theorem Closing.worker_ne_stop (h : Closing d s evs ts) (w : Fin n) (stop : Stop) :
    s.stepWorker w ≠ .error (.stop stop) := by
  by_cases hw : s.workers w = .exited
  · have huses : (s.workers w).usesPool = false := by rw [hw]; rfl
    unfold stepWorker
    rw [if_neg (by simp [huses])]
    simp [hw]
  · have hpd := h.joins hw
    exact h.sound.stepWorker_ne_stop (h.holding.queued hpd) (h.joining.freed hpd) w

/-- The call moves on unless it waits for the lock or for a worker, or is at its end. -/
theorem Closing.stepDestroy (h : Closing d s evs ts) :
    (∃ p, s.stepDestroy d = .ok p) ∨ s.stepDestroy d = .error .blocked ∧
      (s.destroyers d = .destroyed ∨ s.queueLock ≠ none ∨
        ∃ w, s.Issued ∧ s.workers w ≠ .exited) := by
  have hj := h.joining
  have hh := h.holding
  unfold Tpool.stepDestroy
  cases hpd : s.destroyers d with
  | start =>
      rw [hpd] at hj
      rw [if_neg (by simp [hj.2.1])]
      simp [hj.1]
  | setShutdown =>
      rw [hpd] at hj
      rw [if_neg (by simp [hj.1])]
      simp
  | broadcast =>
      rw [hpd] at hj
      rw [if_neg (by simp [hj.1])]
      cases hlock : s.queueLock with
      | none => simp
      | some w => simp
  | join i =>
      rw [hpd] at hj
      rw [if_neg (by simp [hj.1])]
      by_cases hi : i < n
      · have hjoined : s.joined ⟨i, hi⟩ = false := by simp [hj.2]
        by_cases hw : s.workers ⟨i, hi⟩ = .exited
        · simp [hi, hw, hjoined]
        · refine .inr ⟨by simp [hi, hw], .inr (.inr ⟨⟨i, hi⟩, ⟨d, ?_⟩, hw⟩)⟩
          rw [hpd]
          rfl
      · simp [hi]
  | discard =>
      rw [hpd] at hj
      rw [if_neg (by simp [hj.1])]
      cases hhead : s.tpoolHead with
      | none => simp
      | some p => simp
  | unlink p =>
      rw [hpd] at hj hh
      rw [if_neg (by simp [hj.1])]
      obtain ⟨hhead, own, q, ho, -⟩ := hh
      have hchain := ho.chain
      rw [hhead] at hchain
      obtain ⟨x, q, rfl, -⟩ := hchain.exists_cons
      obtain ⟨node, hnode⟩ := Option.isSome_iff_exists.mp
        (ho.isSome_of_mem (p := p) List.mem_cons_self)
      simp [hhead, hnode]
  | release p =>
      rw [hpd] at hj hh
      obtain ⟨-, -, -, -, -, -, hsome⟩ := hh
      obtain ⟨node, hnode⟩ := Option.isSome_iff_exists.mp hsome
      rw [if_neg (by simp [hj.1])]
      simp [hnode]
  | teardown =>
      rw [hpd] at hj
      rw [if_neg (by simp [hj.1])]
      simp
  | destroyed => simp [DestroyPc.usesPool]
  | returned =>
      rw [hpd] at hj
      exact hj.elim

/-- When nobody can move, the call is at its end. -/
theorem Closing.destroyed_of_blocked (h : Closing d s evs ts)
    (hw : ∀ w, s.stepWorker w = .error .blocked) (hd : s.stepDestroy d = .error .blocked) :
    s.destroyers d = .destroyed := by
  obtain ⟨hlock, hrest⟩ := h.sound.at_rest hw
  rcases h.stepDestroy with ⟨p, hp⟩ | ⟨-, hpd | hheld | ⟨w, hissued, hexit⟩⟩
  · rw [hd] at hp
    cases hp
  · exact hpd
  · exact absurd hlock hheld
  · rcases hrest w with hwait | hexited
    · exact absurd hwait (h.sound.not_waiting hissued w).1
    · exact absurd hexited hexit

variable [Fintype P]

/-- Before the first step of a call of `destroy_tpool` nothing of its work has been done. -/
def Unstarted (s : Tpool n P R A) (evs : List (Event n R A)) : Prop :=
  (∃ d, s.destroyers d ≠ .start) ∨
    s.shutdown = false ∧ s.freed = false ∧ (∀ w, s.joined w = false) ∧
      evs.any Event.discards = false

theorem Unstarted.step (h : Unstarted s evs) (hs : Step s t e) : Unstarted t (evs ++ [e]) := by
  have hframe : t.destroyers = s.destroyers → t.shutdown = s.shutdown → t.freed = s.freed →
      t.joined = s.joined → e.discards = false → Unstarted t (evs ++ [e]) := by
    intro hd hshut hfreed hjoined hdiscards
    rw [Unstarted] at h ⊢
    rw [hd, hshut, hfreed, hjoined, List.any_append]
    simpa [hdiscards] using h
  cases hs with
  | worker hs =>
      obtain ⟨-, -, -, hd, hshut, -⟩ := hs.moves
      obtain ⟨hfreed, hjoined, -, hdiscards⟩ := hs.frame
      exact hframe hd hshut hfreed hjoined hdiscards
  | wake | refuse | build => exact hframe rfl rfl rfl rfl rfl
  | push hc hlive hlock hwoken hlink =>
      obtain ⟨head, heap, rfl⟩ := link_frame hlink
      exact hframe rfl rfl rfl rfl rfl
  | @destroy d _ _ hs =>
      refine .inl ⟨d, ?_⟩
      cases hs <;> simp

theorem unstarted_of_run {acts : List (Action n P R A)}
    (h : (createTpool n P R A).runFrom acts = .ok (s, evs)) : Unstarted s evs := by
  have hinit : Unstarted (createTpool n P R A) [] := .inr ⟨rfl, rfl, fun _ => rfl, rfl⟩
  exact Machine.run_history (fun s evs => Unstarted s evs)
    (fun s a s' e evs hs hstep => hs.step (step_cases hstep)) hinit h

/-- A call of `destroy_tpool` that is the first one finds the pool ready for it. -/
theorem closing_of_run {acts : List (Action n P R A)}
    (h : (createTpool n P R A).runFrom acts = .ok (s, evs)) (hstart : ∀ d, s.destroyers d = .start)
    (d : ℕ) : ∃ ts, Closing d s evs ts ∧
      ts.length = (accepted evs).length - (taken evs).length := by
  rcases unstarted_of_run h with ⟨d', hd'⟩ | ⟨hshut, hfreed, hjoined, hdiscards⟩
  · exact absurd (hstart d') hd'
  · have hh := history_of_run h
    obtain ⟨ts, hq, heq⟩ := hh.queue hdiscards
    have hlen := congrArg List.length heq
    simp only [List.length_append, List.length_map] at hlen
    have hnone : discarded evs = 0 := by
      rw [discarded, List.countP_eq_zero]
      exact fun e he => by simpa using List.any_eq_false.mp hdiscards e he
    refine ⟨ts, ⟨hh.sound, ?_, ?_, ?_⟩, by omega⟩
    · rw [hstart d]
      exact ⟨hshut, hfreed, hjoined⟩
    · rw [hstart d]
      exact hq
    · rw [Balanced, hnone]
      omega

/-- What a run of the workers and the call leaves. -/
theorem Closing.run {more : List (Action n P R A)} {evs' : List (Event n R A)}
    (h : Closing d s evs ts) (hmore : ∀ a ∈ more, (∃ w, a = .worker w) ∨ a = .destroy d)
    (ht : s.runFrom more = .ok (t, evs')) :
    ∃ rest, Closing d t (evs ++ evs') rest ∧
      more.length + closingRank d t rest ≤ closingRank d s ts := by
  have hstep : ∀ a ∈ more, ∀ (s : Tpool n P R A) (evs : List (Event n R A)) m s' e,
      (∃ ts, Closing d s evs ts ∧ closingRank d s ts = m) → s.step a = .ok (s', e) →
        ∃ m' < m, ∃ ts, Closing d s' (evs ++ [e]) ts ∧ closingRank d s' ts = m' := by
    rintro a ha s evs m s' e ⟨ts, hc, rfl⟩ hstep
    have hnext : ∃ rest, Closing d s' (evs ++ [e]) rest ∧
        closingRank d s' rest < closingRank d s ts := by
      rcases hmore a ha with ⟨w, rfl⟩ | rfl
      · exact hc.worker (workerStep_of_stepWorker hstep)
      · exact hc.destroy (destroyStep_of_stepDestroy hstep)
    obtain ⟨rest, hrest, hlt⟩ := hnext
    exact ⟨_, hlt, rest, hrest, rfl⟩
  obtain ⟨m, ⟨rest, hrest, rfl⟩, hle⟩ := Machine.run_rank
    (fun s evs m => ∃ ts, Closing d s evs ts ∧ closingRank d s ts = m) evs hstep ⟨ts, h, rfl⟩ ht
  exact ⟨rest, hrest, hle⟩

end Closing

end Tpool

/-- From every state that the pool reaches before a call of `destroy_tpool`, however the workers
and one such call go on from there: they take at most so many steps, none of them faults, and
when none can move any more the call has returned, every worker has exited and was joined
once, and of the accepted tasks the first ones were taken, in their order, and run by their
workers, and the others were discarded. -/
theorem tpool_destroy_completes {P R A : Type} [DecidableEq P] [Fintype P]
    (acts more : List (Action n P R A)) (s t : Tpool n P R A) (evs evs' : List (Event n R A))
    (hs : (createTpool n P R A).runFrom acts = .ok (s, evs))
    (hstart : ∀ d, s.destroyers d = .start) (d : ℕ)
    (hmore : ∀ a ∈ more, (∃ w, a = .worker w) ∨ a = .destroy d)
    (ht : s.runFrom more = .ok (t, evs')) :
    more.length ≤ 7 * ((accepted evs).length - (taken evs).length) + 13 * n + 6 ∧
      (∀ e, (∀ w, t.step (.worker w) ≠ .error (.stop e)) ∧
        t.step (.destroy d) ≠ .error (.stop e)) ∧
      ((∀ w, t.step (.worker w) = .error .blocked) → t.step (.destroy d) = .error .blocked →
        t.destroyers d = .destroyed ∧ t.freed = true ∧ t.tpoolHead = none ∧
        (∀ w, t.workers w = .exited ∧ t.joined w = true) ∧
        (taken (evs ++ evs')).map Prod.snd <+: accepted (evs ++ evs') ∧
        (accepted (evs ++ evs')).length =
          (taken (evs ++ evs')).length + discarded (evs ++ evs') ∧
        ∀ w, ofWorker w (ran (evs ++ evs')) = ofWorker w (taken (evs ++ evs'))) := by
  have hrun : (createTpool n P R A).runFrom (acts ++ more) = .ok (t, evs ++ evs') :=
    Machine.run_append_eq_ok.mpr ⟨s, evs, evs', hs, ht, rfl⟩
  obtain ⟨ts, hclosing, hlen⟩ := Tpool.closing_of_run hs hstart d
  obtain ⟨rest, hrest, hle⟩ := hclosing.run hmore ht
  refine ⟨?_, fun e => ⟨fun w => hrest.worker_ne_stop w e, ?_⟩, fun hw hd => ?_⟩
  · have hrank := s.workersRank_le
    simp only [Tpool.closingRank, hstart d, DestroyPc.rank, hlen] at hle
    omega
  · rcases hrest.stepDestroy with ⟨p, hp⟩ | ⟨hp, -⟩
    · exact fun h => by cases hp.symm.trans h
    · exact fun h => by cases hp.symm.trans h
  · have hpd := hrest.destroyed_of_blocked hw hd
    have hok := hrest.sound.destroyer d
    have hj := hrest.joining
    have hh := hrest.holding
    have hbalance := hrest.balance
    rw [hpd] at hok hj hh
    rw [Tpool.Balanced, hh.2.eq_nil hh.1] at hbalance
    refine ⟨hpd, hj.1, hh.1, fun w => ⟨hok.2 w, hj.2 w⟩, (Tpool.history_of_run hrun).order,
      by simpa using hbalance, fun w => ?_⟩
    rw [(Tpool.executed_of_run hrun).tasks w,
      Tpool.due_of_not_running (by simp [hok.2 w]), List.append_nil]

/-- The first worker runs its task while the call begins, and the other task is discarded. -/
def closingRounds : List (Action 2 Bool ℕ Unit) :=
  List.replicate 4 (.worker worker₁) ++ List.replicate 3 (.destroy 0) ++
    List.replicate 6 (.worker worker₁) ++ List.replicate 4 (.worker worker₂) ++
      List.replicate 8 (.destroy 0)

theorem tpool_destroy_completes_twoTasks :
    ∃ s t evs evs', (createTpool 2 Bool ℕ Unit).runFrom twoTasks = .ok (s, evs) ∧
      s.runFrom closingRounds = .ok (t, evs') ∧ t.freed = true ∧
      (accepted (evs ++ evs')).length =
        (taken (evs ++ evs')).length + discarded (evs ++ evs') := by
  obtain ⟨s, evs, hs, hstart⟩ : ∃ s evs, (createTpool 2 Bool ℕ Unit).runFrom twoTasks =
      .ok (s, evs) ∧ ∀ d, s.destroyers d = .start := ⟨_, _, rfl, fun _ => rfl⟩
  have hmore : ∀ a ∈ closingRounds, (∃ w, a = .worker w) ∨ a = .destroy 0 := by
    intro a ha
    simp only [closingRounds, List.mem_append, List.mem_replicate] at ha
    rcases ha with (((ha | ha) | ha) | ha) | ha
    · exact .inl ⟨_, ha.2⟩
    · exact .inr ha.2
    · exact .inl ⟨_, ha.2⟩
    · exact .inl ⟨_, ha.2⟩
    · exact .inr ha.2
  have hfacts : ((createTpool 2 Bool ℕ Unit).runFrom twoTasks >>= fun p =>
      p.1.runFrom closingRounds >>= fun q => pure (stalled q.1 (.destroy 0),
        decide (∀ w, stalled q.1 (.worker w) = true))) = .ok (true, true) := by
    decide
  obtain ⟨p, hp, hfacts⟩ := Machine.bind_eq_ok.mp hfacts
  cases hs.symm.trans hp
  obtain ⟨⟨t, evs'⟩, ht, hfacts⟩ := Machine.bind_eq_ok.mp hfacts
  obtain ⟨hdestroy, hworkers⟩ := Prod.mk.inj (Except.ok.inj hfacts)
  obtain ⟨-, -, hrest⟩ := tpool_destroy_completes twoTasks closingRounds s t evs evs' hs hstart 0
    hmore ht
  obtain ⟨-, hfreed, -, -, -, hcount, -⟩ :=
    hrest (fun w => blocked_of_stalled (of_decide_eq_true hworkers w)) (blocked_of_stalled hdestroy)
  exact ⟨s, t, evs, evs', hs, ht, hfreed, hcount⟩

end DnsRelay.ThreadPool
