import Mathlib.Data.List.Basic

/-!
# Partial machines

A step either returns the next state together with an output, or stops with a
reason. A run feeds a list of inputs to the step function, collects the
outputs, and ends at the first stop.
-/

namespace DnsRelay.Lib.Machine

universe u v

variable {ε : Type u} {α β σ ι ο : Type v}

/-- A composite computation returns exactly when both of its parts do. -/
theorem bind_eq_ok {x : Except ε α} {f : α → Except ε β} {b : β} :
    (x >>= f) = .ok b ↔ ∃ a, x = .ok a ∧ f a = .ok b := by
  cases x with
  | error e => simp [bind, Except.bind]
  | ok a => simp [bind, Except.bind]

/-- A composite computation that stops for a reason does so in one of its parts. -/
theorem bind_ne_error {x : Except ε α} {f : α → Except ε β} {e : ε} (hx : x ≠ .error e)
    (hf : ∀ a, x = .ok a → f a ≠ .error e) : (x >>= f) ≠ .error e := by
  cases x with
  | error e' => simpa [bind, Except.bind] using hx
  | ok a => exact hf a rfl

theorem map_eq_ok {x : Except ε α} {f : α → β} {b : β} :
    x.map f = .ok b ↔ ∃ a, x = .ok a ∧ f a = b := by
  cases x with
  | error e => simp [Except.map]
  | ok a => simp [Except.map]

section Confined

variable {P Q : ε → Prop}

/-- Every reason for which the computation may stop satisfies the predicate. -/
def Confined (P : ε → Prop) (x : Except ε α) : Prop := ∀ e, x = .error e → P e

theorem confined_ok (a : α) : Confined P (.ok a) := by
  intro e h
  cases h

theorem confined_error {e : ε} (h : P e) : Confined P (.error e : Except ε α) := by
  intro e' h'
  cases h'
  exact h

theorem Confined.mono {x : Except ε α} (h : Confined P x) (hPQ : ∀ e, P e → Q e) :
    Confined Q x := fun e he => hPQ e (h e he)

theorem Confined.or_left {x : Except ε α} (h : Confined P x) :
    Confined (fun e => P e ∨ Q e) x := h.mono fun _ he => .inl he

theorem Confined.map {x : Except ε α} (h : Confined P x) (f : α → β) : Confined P (x.map f) := by
  cases x with
  | error e => exact confined_error (h e rfl)
  | ok a => exact confined_ok (f a)

theorem Confined.bind {x : Except ε α} {f : α → Except ε β} (hx : Confined P x)
    (hf : ∀ a, x = .ok a → Confined P (f a)) : Confined P (x >>= f) := by
  cases x with
  | error e => exact confined_error (hx e rfl)
  | ok a => exact hf a rfl

end Confined

/-- Feed the inputs one after the other and collect the outputs. -/
def run (step : σ → ι → Except ε (σ × ο)) : σ → List ι → Except ε (σ × List ο)
  | s, [] => .ok (s, [])
  | s, i :: rest => do
      let (s₁, o) ← step s i
      let (s₂, os) ← run step s₁ rest
      return (s₂, o :: os)

@[simp] theorem run_nil (step : σ → ι → Except ε (σ × ο)) (s : σ) :
    run step s [] = .ok (s, []) := rfl

theorem run_cons_eq_ok {step : σ → ι → Except ε (σ × ο)} {s t : σ} {i : ι}
    {rest : List ι} {os : List ο} :
    run step s (i :: rest) = .ok (t, os) ↔
      ∃ s₁ o os', step s i = .ok (s₁, o) ∧ run step s₁ rest = .ok (t, os') ∧
        os = o :: os' := by
  constructor
  · intro h
    obtain ⟨⟨s₁, o⟩, hs, h⟩ := bind_eq_ok.mp h
    obtain ⟨⟨s₂, os'⟩, hr, h⟩ := bind_eq_ok.mp h
    cases h
    exact ⟨s₁, o, os', hs, hr, rfl⟩
  · rintro ⟨s₁, o, os', hs, hr, rfl⟩
    simp [run, hs, hr, bind, Except.bind, pure, Except.pure]

/-- A run over two lists of inputs is a run over the first and, from there, over the second. -/
theorem run_append_eq_ok {step : σ → ι → Except ε (σ × ο)} {s t : σ} {is js : List ι}
    {os : List ο} :
    run step s (is ++ js) = .ok (t, os) ↔
      ∃ s₁ os₁ os₂, run step s is = .ok (s₁, os₁) ∧ run step s₁ js = .ok (t, os₂) ∧
        os = os₁ ++ os₂ := by
  induction is generalizing s os with
  | nil => simp
  | cons i is ih =>
      rw [List.cons_append, run_cons_eq_ok]
      constructor
      · rintro ⟨s₁, o, os', hs, hr, rfl⟩
        obtain ⟨s₂, os₁, os₂, h₁, h₂, rfl⟩ := ih.mp hr
        exact ⟨s₂, o :: os₁, os₂, run_cons_eq_ok.mpr ⟨s₁, o, os₁, hs, h₁, rfl⟩, h₂, rfl⟩
      · rintro ⟨s₂, os₁, os₂, h₁, h₂, rfl⟩
        obtain ⟨s₁, o, os', hs, hr, rfl⟩ := run_cons_eq_ok.mp h₁
        exact ⟨s₁, o, os' ++ os₂, hs, ih.mpr ⟨s₂, os', os₂, hr, h₂, rfl⟩, rfl⟩

theorem run_singleton_eq_ok {step : σ → ι → Except ε (σ × ο)} {s t : σ} {i : ι} {os : List ο} :
    run step s [i] = .ok (t, os) ↔ ∃ o, step s i = .ok (t, o) ∧ os = [o] := by
  rw [run_cons_eq_ok]
  constructor
  · rintro ⟨s₁, o, os', hs, hr, rfl⟩
    cases hr
    exact ⟨o, hs, rfl⟩
  · rintro ⟨o, hs, rfl⟩
    exact ⟨t, o, [], hs, rfl, rfl⟩

/-- What every returning step on one of the inputs preserves, the run preserves. -/
theorem run_invariant {step : σ → ι → Except ε (σ × ο)} (P : σ → Prop)
    {s t : σ} {is : List ι} {os : List ο}
    (hstep : ∀ i ∈ is, ∀ s s' o, P s → step s i = .ok (s', o) → P s')
    (hs : P s) (h : run step s is = .ok (t, os)) : P t := by
  induction is generalizing s os with
  | nil =>
      cases h
      exact hs
  | cons i rest ih =>
      obtain ⟨s₁, o, os', h₁, h₂, -⟩ := run_cons_eq_ok.mp h
      exact ih (fun j hj => hstep j (List.mem_cons_of_mem _ hj))
        (hstep i (by simp) s s₁ o hs h₁) h₂

/-- A run does not stop for a reason for which no step from a kept state stops. -/
theorem run_ne_error {step : σ → ι → Except ε (σ × ο)} (P : σ → Prop) {e : ε} {s : σ}
    {is : List ι} (hstep : ∀ i ∈ is, ∀ s s' o, P s → step s i = .ok (s', o) → P s')
    (hne : ∀ i ∈ is, ∀ s, P s → step s i ≠ .error e) (hs : P s) :
    run step s is ≠ .error e := by
  induction is generalizing s with
  | nil => nofun
  | cons i rest ih =>
      refine bind_ne_error (hne i (by simp) s hs) fun p hp => ?_
      refine bind_ne_error (ih ?_ ?_ (hstep i (by simp) s p.1 p.2 hs hp)) fun q _ => by nofun
      · exact fun j hj => hstep j (List.mem_cons_of_mem _ hj)
      · exact fun j hj => hne j (List.mem_cons_of_mem _ hj)

/-- What every returning step preserves of the state and of the outputs so far, the run
preserves. -/
theorem run_history {step : σ → ι → Except ε (σ × ο)} (P : σ → List ο → Prop) {s t : σ}
    {is : List ι} {before os : List ο}
    (hstep : ∀ s i s' o os, P s os → step s i = .ok (s', o) → P s' (os ++ [o]))
    (hs : P s before) (h : run step s is = .ok (t, os)) : P t (before ++ os) := by
  induction is generalizing s before os with
  | nil =>
      cases h
      rwa [List.append_nil]
  | cons i rest ih =>
      obtain ⟨s₁, o, os', h₁, h₂, rfl⟩ := run_cons_eq_ok.mp h
      have hrest := ih (hstep s i s₁ o before hs h₁) h₂
      rwa [List.append_assoc] at hrest

section Simulation

variable {τ π : Type v}

/-- The runs of a machine that always returns. -/
def totalRun (spec : τ → ι → τ × π) : τ → List ι → τ × List π
  | m, [] => (m, [])
  | m, i :: rest =>
      ((totalRun spec (spec m i).1 rest).1, (spec m i).2 :: (totalRun spec (spec m i).1 rest).2)

theorem totalRun_concat (spec : τ → ι → τ × π) (m : τ) (is : List ι) (i : ι) :
    (totalRun spec m (is ++ [i])).1 = (spec (totalRun spec m is).1 i).1 := by
  induction is generalizing m with
  | nil => rfl
  | cons j rest ih => exact ih (spec m j).1

/-- A condition on the state before each step of a run, up to its first stop. -/
def along (step : σ → ι → Except ε (σ × ο)) (cond : σ → ι → Bool) : σ → List ι → Bool
  | _, [] => true
  | s, i :: rest =>
      cond s i &&
        match step s i with
        | .ok (s₁, _) => along step cond s₁ rest
        | .error _ => true

/-- A condition that the inputs meet in every state holds along every run. -/
theorem along_of_mem {step : σ → ι → Except ε (σ × ο)} {cond : σ → ι → Bool} {s : σ}
    {is : List ι} (h : ∀ i ∈ is, ∀ s, cond s i = true) : along step cond s is = true := by
  induction is generalizing s with
  | nil => rfl
  | cons i rest ih =>
      have hrest := fun s => ih (s := s) fun j hj => h j (List.mem_cons_of_mem _ hj)
      simp only [along, h i (by simp) s, Bool.true_and]
      cases step s i with
      | ok p => exact hrest p.1
      | error e => rfl

theorem along_append {step : σ → ι → Except ε (σ × ο)} {cond : σ → ι → Bool} {s s₁ : σ}
    {is js : List ι} {os : List ο} (h : run step s is = .ok (s₁, os)) :
    along step cond s (is ++ js) = (along step cond s is && along step cond s₁ js) := by
  induction is generalizing s os with
  | nil =>
      cases h
      rfl
  | cons i is ih =>
      obtain ⟨s₂, o, os', hs, hr, -⟩ := run_cons_eq_ok.mp h
      simp only [List.cons_append, along, hs, ih hr, Bool.and_assoc]

/-- Along every run, a condition that follows from two others in every kept state holds where
these hold. -/
theorem along_of_and {step : σ → ι → Except ε (σ × ο)} {p q r : σ → ι → Bool} (P : σ → Prop)
    {s : σ} {is : List ι}
    (hcond : ∀ s i, P s → p s i = true → q s i = true → r s i = true)
    (hstep : ∀ s i s' o, P s → r s i = true → step s i = .ok (s', o) → P s')
    (hs : P s) (hp : along step p s is = true) (hq : along step q s is = true) :
    along step r s is = true := by
  induction is generalizing s with
  | nil => rfl
  | cons i is ih =>
      simp only [along, Bool.and_eq_true] at hp hq ⊢
      have hr := hcond s i hs hp.1 hq.1
      refine ⟨hr, ?_⟩
      cases h : step s i with
      | error e => rfl
      | ok x =>
          rw [h] at hp hq
          exact ih (hstep s i x.1 x.2 hs hr h) hp.2 hq.2

/-- What every returning step under a condition preserves, every run under that condition
preserves. -/
theorem run_invariant_along {step : σ → ι → Except ε (σ × ο)} {cond : σ → ι → Bool}
    (P : σ → Prop) {s t : σ} {is : List ι} {os : List ο}
    (hstep : ∀ s i s' o, P s → cond s i = true → step s i = .ok (s', o) → P s')
    (hs : P s) (hc : along step cond s is = true) (h : run step s is = .ok (t, os)) : P t := by
  induction is generalizing s os with
  | nil =>
      cases h
      exact hs
  | cons i rest ih =>
      obtain ⟨s₁, o, os', h₁, h₂, -⟩ := run_cons_eq_ok.mp h
      simp only [along, h₁, Bool.and_eq_true] at hc
      exact ih (hstep s i s₁ o hs hc.1 h₁) hc.2 h₂

/-- A machine whose every step under a condition returns and follows a specification
returns from every run under that condition, and follows the specification. -/
theorem run_simulates {step : σ → ι → Except ε (σ × ο)} {spec : τ → ι → τ × π}
    {cond : σ → ι → Bool} {out : ο → π} (R : σ → τ → Prop)
    (hstep : ∀ s m i, R s m → cond s i = true →
      ∃ s' o, step s i = .ok (s', o) ∧ R s' (spec m i).1 ∧ out o = (spec m i).2)
    {s : σ} {m : τ} {is : List ι} (hs : R s m) (hc : along step cond s is = true) :
    ∃ t os, run step s is = .ok (t, os) ∧ R t (totalRun spec m is).1 ∧
      os.map out = (totalRun spec m is).2 := by
  induction is generalizing s m with
  | nil => exact ⟨s, [], rfl, hs, rfl⟩
  | cons i rest ih =>
      simp only [along, Bool.and_eq_true] at hc
      obtain ⟨s₁, o, hs₁, hr, ho⟩ := hstep s m i hs hc.1
      have hc₁ := hc.2
      rw [hs₁] at hc₁
      obtain ⟨t, os, hrun, ht, hos⟩ := ih hr hc₁
      refine ⟨t, o :: os, run_cons_eq_ok.mpr ⟨s₁, o, os, hs₁, hrun, rfl⟩, ht, ?_⟩
      rw [List.map_cons, ho, hos]
      rfl

end Simulation

end DnsRelay.Lib.Machine
