import DnsRelay.ThreadPool.Delivery

/-!
# Wake-ups

A worker decides to wait while it holds the lock over an empty queue, and the item
that ends the emptiness comes with a signal. `shutdown` may be set between the
decision and the wait, but the broadcast needs the lock and so comes after the wait.
-/

namespace DnsRelay.ThreadPool

open Function DnsRelay.Lib

variable {n : ℕ} {P R A : Type}

namespace Tpool

variable [DecidableEq P] {s t : Tpool n P R A} {e : Event n R A} {w : Fin n} {d : ℕ}
  {evs : List (Event n R A)}

/-- With work in the queue of a running pool, some worker is not blocked. -/
def Awake (s : Tpool n P R A) : Prop :=
  s.tpoolHead ≠ none → s.shutdown = false → ∃ w, s.workers w ≠ .waiting

theorem Sound.awake_worker (hs : Sound s) (h : WorkerStep s w t e) : t.Awake := by
  intro hhead hshut
  cases h with
  | wait hpc =>
      have hok := hs.worker w
      rw [hpc] at hok
      exact absurd hok.1 hhead
  | acquire | empty | nonempty | leaveLoop | prepare | leave | stay | take | run | finish
  | exit => exact ⟨w, by simp⟩

theorem awake_destroy (ha : s.Awake) (h : DestroyStep s d t e) (hs : Sound s) : t.Awake := by
  intro hhead hshut
  cases h with
  | shut hpc => cases hshut
  | broadcast hpc hlock =>
      obtain ⟨w, hw⟩ := ha hhead hshut
      rcases awaken_workers s Finset.univ w with h | ⟨hold, -⟩
      · exact ⟨w, by rwa [setDestroyer_workers, h]⟩
      · exact absurd hold hw
  | unlink hpc =>
      have hok := hs.destroyer d
      rw [hpc] at hok
      exact absurd (hok.1.symm.trans hshut) nofun
  | giveUp | begin | join | joined | empty | nonempty | release | teardown =>
      exact ha hhead hshut

/-- The signal of a push wakes a worker, unless none was waiting. -/
theorem awake_push {woken : Finset (Fin n)} (hn : 0 < n)
    (hwoken : (∃ w, s.workers w = .waiting) → ∃ w ∈ woken, s.workers w = .waiting) :
    (s.awaken woken).Awake := by
  intro _ _
  by_cases hwait : ∃ w, s.workers w = .waiting
  · obtain ⟨w, hmem, hw⟩ := hwoken hwait
    exact ⟨w, by rw [awaken_of_mem hw hmem]; nofun⟩
  · refine ⟨⟨0, hn⟩, fun hw => hwait ⟨⟨0, hn⟩, ?_⟩⟩
    rcases awaken_workers s woken ⟨0, hn⟩ with h | ⟨hold, -⟩
    · rw [← h, hw]
    · exact hold

theorem Sound.awake_step [Fintype P] (hn : 0 < n) (hs : Sound s) (ha : s.Awake)
    (h : Step s t e) : t.Awake := by
  cases h with
  | worker h => exact hs.awake_worker h
  | wake hpc =>
      intro _ _
      exact ⟨_, by rw [setWorker_workers, update_self]; nofun⟩
  | refuse c => exact ha
  | build routine args hc hfree => exact ha
  | push hc hlive hlock hwoken hlink =>
      obtain ⟨head, heap, rfl⟩ := link_frame hlink
      exact awake_push hn hwoken
  | destroy h => exact awake_destroy ha h hs

theorem DestroyStep.issued (h : DestroyStep s d t e) (hs : s.Issued) : t.Issued := by
  obtain ⟨d', hd'⟩ := hs
  by_cases hne : d' = d
  · subst hne
    cases h with
    | giveUp hpc | begin hpc | shut hpc | broadcast hpc =>
        rw [hpc] at hd'
        cases hd'
    | join | joined | empty | nonempty | unlink | release | teardown =>
        exact ⟨d', by rw [setDestroyer_destroyers, update_self]; rfl⟩
  · cases h <;> exact ⟨d', by rwa [setDestroyer_destroyers, update_of_ne hne]⟩

/-- A broadcast stays sent. -/
theorem Step.issued [Fintype P] (h : Step s t e) (hs : s.Issued) : t.Issued := by
  cases h with
  | worker h =>
      obtain ⟨-, -, -, hsame, -⟩ := h.moves
      rwa [Issued, hsame]
  | wake | refuse | build => exact hs
  | push hc hlive hlock hwoken hlink =>
      obtain ⟨head, heap, rfl⟩ := link_frame hlink
      exact hs
  | destroy h => exact h.issued hs

theorem Step.issued_of_broadcast [Fintype P] (h : Step s t e) (he : e = .broadcast d) :
    t.Issued := by
  cases h with
  | worker h => cases h <;> cases he
  | wake | refuse | build | push => cases he
  | @destroy d' t e h =>
      cases h with
      | broadcast => exact ⟨d', by rw [setDestroyer_destroyers, update_self]; rfl⟩
      | giveUp | begin | shut | join | joined | empty | nonempty | unlink | release
      | teardown => cases he

/-- What the wake-ups of a run say about its last state. -/
structure Wakeups (s : Tpool n P R A) (evs : List (Event n R A)) : Prop where
  sound : Sound s
  awake : s.Awake
  issued : ∀ d, .broadcast d ∈ evs → s.Issued

theorem Wakeups.step [Fintype P] (hn : 0 < n) (h : Wakeups s evs) (hs : Step s t e) :
    Wakeups t (evs ++ [e]) where
  sound := h.sound.step hs
  awake := h.sound.awake_step hn h.awake hs
  issued := by
    intro d hd
    rcases List.mem_append.mp hd with hd | hd
    · exact hs.issued (h.issued d hd)
    · exact hs.issued_of_broadcast (List.mem_singleton.mp hd).symm

omit [DecidableEq P] in
theorem wakeups_createTpool : Wakeups (createTpool n P R A) [] where
  sound := sound_createTpool
  awake := fun hhead => absurd rfl hhead
  issued := by
    intro d hd
    cases hd

theorem wakeups_of_run [Fintype P] (hn : 0 < n) {acts : List (Action n P R A)}
    (h : (createTpool n P R A).runFrom acts = .ok (s, evs)) : Wakeups s evs :=
  Machine.run_history Wakeups (fun _ _ _ _ _ hw hstep => hw.step hn (step_cases hstep))
    wakeups_createTpool h

end Tpool

variable [DecidableEq P] [Fintype P] {s : Tpool n P R A} {evs : List (Event n R A)}

/-- In every state of a pool with a worker, work in the queue finds a worker that is neither
blocked in `pthread_cond_wait` nor gone while `shutdown` is not set, and after the broadcast of
`destroy_tpool` no worker is blocked there or about to be. -/
theorem tpool_loses_no_wakeup (hn : 0 < n) (acts : List (Action n P R A))
    (h : (createTpool n P R A).runFrom acts = .ok (s, evs)) :
    (s.tpoolHead ≠ none → s.shutdown = false →
      ∃ w, s.workers w ≠ .waiting ∧ s.workers w ≠ .exited) ∧
      ∀ d, .broadcast d ∈ evs → ∀ w, s.workers w ≠ .waiting ∧ s.workers w ≠ .wait := by
  have hw := Tpool.wakeups_of_run hn h
  constructor
  · intro hhead hshut
    obtain ⟨w, hwake⟩ := hw.awake hhead hshut
    exact ⟨w, hwake, hw.sound.not_exited hshut w⟩
  · intro d hd
    exact hw.sound.not_waiting (hw.issued d hd)

/-- A worker is about to wait when `shutdown` is set, and waits before the broadcast. -/
def broadcastRun : List (Action 1 (Fin 1) ℕ Unit) :=
  List.replicate 3 (.worker (Fin.last 0)) ++
    [.destroy 0, .destroy 0, .worker (Fin.last 0), .destroy 0]

theorem tpool_wakes_broadcastRun :
    ∃ s evs, (createTpool 1 (Fin 1) ℕ Unit).runFrom broadcastRun = .ok (s, evs) ∧
      .broadcast 0 ∈ evs ∧ ∀ w, s.workers w ≠ .waiting ∧ s.workers w ≠ .wait :=
  ⟨_, _, rfl, by simp, (tpool_loses_no_wakeup (by decide) broadcastRun rfl).2 0 (by simp)⟩

end DnsRelay.ThreadPool
