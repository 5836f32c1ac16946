import Mathlib.Data.List.Forall2
import DnsRelay.Lib.Machine

/-!
# Computations that send

A computation sends messages while it runs and ends with a result or with the
reason for which it stopped. What was sent before a stop stays sent. The
predicate `Ensures` bounds everything that is sent and every result, and is
carried from the parts of a computation, and from the steps of a run, to the whole.
-/

namespace DnsRelay.Lib

universe u

structure Output (ω ε α : Type u) where
  sent : List ω
  result : Except ε α

namespace Output

variable {ω ε α β σ ι : Type u}

/-- Run the second part on the result of the first, if there is one. -/
protected def bind (x : Output ω ε α) (f : α → Output ω ε β) : Output ω ε β :=
  match x.result with
  | .ok a => ⟨x.sent ++ (f a).sent, (f a).result⟩
  | .error e => ⟨x.sent, .error e⟩

instance : Monad (Output ω ε) where
  pure a := ⟨[], .ok a⟩
  bind := Output.bind

def emit (m : ω) : Output ω ε PUnit := ⟨[m], .ok ⟨⟩⟩

/-- A computation that sends nothing. -/
def lift (x : Except ε α) : Output ω ε α := ⟨[], x⟩

@[simp] theorem sent_pure (a : α) : (pure a : Output ω ε α).sent = [] := rfl

@[simp] theorem result_pure (a : α) : (pure a : Output ω ε α).result = .ok a := rfl

@[simp] theorem sent_lift (x : Except ε α) : (lift x : Output ω ε α).sent = [] := rfl

@[simp] theorem result_lift (x : Except ε α) : (lift x : Output ω ε α).result = x := rfl

@[simp] theorem pure_bind_eq (a : α) (f : α → Output ω ε β) : pure a >>= f = f a := rfl

@[simp] theorem lift_ok_bind (a : α) (f : α → Output ω ε β) : lift (.ok a) >>= f = f a := rfl

@[simp] theorem lift_error_bind (e : ε) (f : α → Output ω ε β) :
    lift (.error e) >>= f = ⟨[], .error e⟩ := rfl

@[simp] theorem sent_emit_bind (m : ω) (f : PUnit → Output ω ε β) :
    (emit m >>= f).sent = m :: (f ⟨⟩).sent := rfl

@[simp] theorem result_emit_bind (m : ω) (f : PUnit → Output ω ε β) :
    (emit m >>= f).result = (f ⟨⟩).result := rfl

theorem bind_of_ok {x : Output ω ε α} {a : α} (h : x.result = .ok a) (f : α → Output ω ε β) :
    x >>= f = ⟨x.sent ++ (f a).sent, (f a).result⟩ := by
  change Output.bind x f = _
  rw [Output.bind, h]

theorem bind_of_error {x : Output ω ε α} {e : ε} (h : x.result = .error e)
    (f : α → Output ω ε β) : x >>= f = ⟨x.sent, .error e⟩ := by
  change Output.bind x f = _
  rw [Output.bind, h]

theorem result_bind (x : Output ω ε α) (f : α → Output ω ε β) :
    (x >>= f).result = x.result >>= fun a => (f a).result := by
  cases hx : x.result with
  | error e => rw [bind_of_error hx]; rfl
  | ok a => rw [bind_of_ok hx]; rfl

theorem bind_assoc_eq {γ : Type u} (x : Output ω ε α) (f : α → Output ω ε β)
    (g : β → Output ω ε γ) : x >>= f >>= g = x >>= fun a => f a >>= g := by
  cases hx : x.result with
  | error e => rw [bind_of_error hx, bind_of_error hx, bind_of_error rfl]
  | ok a =>
      cases hf : (f a).result with
      | error e =>
          have hfirst : (x >>= f).result = .error e := by rw [bind_of_ok hx, hf]
          rw [bind_of_error hfirst, bind_of_ok hx, bind_of_ok hx, bind_of_error hf]
      | ok b =>
          have hfirst : (x >>= f).result = .ok b := by rw [bind_of_ok hx, hf]
          rw [bind_of_ok hfirst, bind_of_ok hx, bind_of_ok hx, bind_of_ok hf, List.append_assoc]

/-- A second part that sends nothing. -/
theorem sent_bind_of_nil (x : Output ω ε α) {f : α → Output ω ε β} (h : ∀ a, (f a).sent = []) :
    (x >>= f).sent = x.sent := by
  cases hr : x.result with
  | error e => rw [bind_of_error hr]
  | ok a => rw [bind_of_ok hr, h a, List.append_nil]

/-- Every message sent satisfies `Q` and the result, if there is one, satisfies `P`. -/
structure Ensures (Q : ω → Prop) (x : Output ω ε α) (P : α → Prop) : Prop where
  sent : ∀ m ∈ x.sent, Q m
  result : ∀ a, x.result = .ok a → P a

section Ensures

variable {Q : ω → Prop} {P : α → Prop} {R : β → Prop}

/-- Where nothing needs to be known of a part. -/
theorem ensures_true (x : Output ω ε α) : Ensures (fun _ => True) x fun _ => True :=
  ⟨fun _ _ => trivial, fun _ _ => trivial⟩

theorem ensures_pure {a : α} (h : P a) : Ensures Q (pure a : Output ω ε α) P := by
  constructor
  · simp
  · rintro b ⟨⟩
    exact h

theorem ensures_emit {m : ω} (h : Q m) :
    Ensures Q (emit m : Output ω ε PUnit) fun _ => True := by
  constructor
  · simpa [emit] using h
  · intro _ _
    trivial

theorem ensures_lift {x : Except ε α} (h : ∀ a, x = .ok a → P a) :
    Ensures Q (lift x : Output ω ε α) P := by
  constructor
  · simp
  · exact h

theorem Ensures.bind {x : Output ω ε α} {f : α → Output ω ε β} (hx : Ensures Q x P)
    (hf : ∀ a, P a → Ensures Q (f a) R) : Ensures Q (x >>= f) R := by
  cases hr : x.result with
  | error e =>
      rw [bind_of_error hr]
      constructor
      · exact hx.sent
      · intro b hb
        cases hb
  | ok a =>
      have hfa := hf a (hx.result a hr)
      rw [bind_of_ok hr]
      constructor
      · intro m hm
        rcases List.mem_append.mp hm with hm | hm
        · exact hx.sent m hm
        · exact hfa.sent m hm
      · exact hfa.result

end Ensures

section Run

variable {Q : ω → Prop} {P : σ → Prop} {step : σ → ι → Output ω ε σ} {s : σ} {is : List ι}

/-- Feed the inputs one after the other, up to the first stop. -/
def run (step : σ → ι → Output ω ε σ) : σ → List ι → Output ω ε σ
  | s, [] => pure s
  | s, i :: rest => step s i >>= fun s => run step s rest

/-- Running a second list of inputs after a first one. -/
theorem run_append_bind (s : σ) (front rest : List ι) :
    run step s (front ++ rest) = run step s front >>= fun t => run step t rest := by
  induction front generalizing s with
  | nil => rfl
  | cons i front ih =>
      rw [List.cons_append, run, run, bind_assoc_eq]
      simp only [ih]

/-- A step that is itself a run of smaller steps can be taken apart, in every run. -/
theorem run_flatMap {κ : Type u} (expand : κ → List ι) (s : σ) (ks : List κ) :
    run (fun t k => run step t (expand k)) s ks = run step s (ks.flatMap expand) := by
  induction ks generalizing s with
  | nil => rfl
  | cons k ks ih =>
      rw [List.flatMap_cons, run_append_bind, run]
      simp only [ih]

theorem sent_run_cons {i : ι} {t : σ} (h : (step s i).result = .ok t) :
    (run step s (i :: is)).sent = (step s i).sent ++ (run step t is).sent := by
  rw [run, bind_of_ok h]

/-- A run goes on where its first part has ended. -/
theorem run_append {front : List ι} {t : σ} (h : (run step s front).result = .ok t) :
    run step s (front ++ is) =
      ⟨(run step s front).sent ++ (run step t is).sent, (run step t is).result⟩ := by
  induction front generalizing s with
  | nil =>
      cases h
      rfl
  | cons i front ih =>
      cases hi : (step s i).result with
      | error e =>
          rw [run, bind_of_error hi] at h
          cases h
      | ok s₁ =>
          have hfirst : (run step s (i :: front)).sent =
              (step s i).sent ++ (run step s₁ front).sent := sent_run_cons hi
          rw [run, bind_of_ok hi] at h
          rw [List.cons_append, run, bind_of_ok hi, ih h, hfirst, List.append_assoc]

/-- A machine whose steps do the same as those of another one, and keep more in its state or
read more of its input, has the same runs. -/
theorem run_project {τ κ : Type u} {step' : τ → κ → Output ω ε τ} (π : τ → σ) (input : κ → ι)
    (hsent : ∀ t k, (step' t k).sent = (step (π t) (input k)).sent)
    (hresult : ∀ t k, (step' t k).result.map π = (step (π t) (input k)).result) (t : τ)
    (ks : List κ) :
    (run step' t ks).sent = (run step (π t) (ks.map input)).sent ∧
      (run step' t ks).result.map π = (run step (π t) (ks.map input)).result := by
  induction ks generalizing t with
  | nil => exact ⟨rfl, rfl⟩
  | cons k rest ih =>
      have hfirst := hresult t k
      rw [List.map_cons]
      cases hk : (step' t k).result with
      | error e =>
          rw [hk] at hfirst
          rw [run, run, bind_of_error hk, bind_of_error hfirst.symm]
          exact ⟨hsent t k, rfl⟩
      | ok t₁ =>
          rw [hk] at hfirst
          rw [run, run, bind_of_ok hk, bind_of_ok hfirst.symm, hsent t k, (ih t₁).1]
          exact ⟨rfl, (ih t₁).2⟩

/-- The step as one of a partial machine. -/
def toStep (step : σ → ι → Output ω ε σ) (s : σ) (i : ι) : Except ε (σ × List ω) :=
  match (step s i).result with
  | .ok t => .ok (t, (step s i).sent)
  | .error e => .error e

/-- A condition on the state before each step of a run, up to its first stop. -/
def along (step : σ → ι → Output ω ε σ) (cond : σ → ι → Bool) : σ → List ι → Bool :=
  Machine.along (toStep step) cond

theorem along_cons {cond : σ → ι → Bool} {i : ι} :
    along step cond s (i :: is) = true ↔ cond s i = true ∧
      ∀ t, (step s i).result = .ok t → along step cond t is = true := by
  simp only [along, Machine.along, toStep, Bool.and_eq_true]
  cases (step s i).result with
  | ok t => simp
  | error e => simp

/-- A run stops where one of its steps does. -/
theorem run_eq_error_iff {e : ε} :
    (run step s is).result = .error e ↔ ∃ front i rest t, is = front ++ i :: rest ∧
      (run step s front).result = .ok t ∧ (step t i).result = .error e := by
  constructor
  · intro h
    induction is generalizing s with
    | nil => cases h
    | cons i rest ih =>
        cases hi : (step s i).result with
        | error e' =>
            rw [run, bind_of_error hi] at h
            cases h
            exact ⟨[], i, rest, s, rfl, rfl, hi⟩
        | ok t =>
            rw [run, bind_of_ok hi] at h
            obtain ⟨front, j, back, u, rfl, hfront, hj⟩ := ih h
            refine ⟨i :: front, j, back, u, rfl, ?_, hj⟩
            rw [run, bind_of_ok hi]
            exact hfront
  · rintro ⟨front, i, rest, t, rfl, hfront, hi⟩
    rw [run_append hfront, run, bind_of_error hi]

theorem run_confined {P : ε → Prop} (hstep : ∀ s i, Machine.Confined P (step s i).result) (s : σ)
    (is : List ι) : Machine.Confined P (run step s is).result := by
  intro e h
  obtain ⟨front, i, rest, t, -, -, hi⟩ := run_eq_error_iff.mp h
  exact hstep t i e hi

/-- The steps of a run that ends have all ended. -/
theorem run_step_of_ok {front rest : List ι} {i : ι} {t u : σ}
    (h : (run step s (front ++ i :: rest)).result = .ok u)
    (hfront : (run step s front).result = .ok t) : ∃ t', (step t i).result = .ok t' := by
  cases hi : (step t i).result with
  | ok t' => exact ⟨t', rfl⟩
  | error e =>
      have herror := run_eq_error_iff.mpr ⟨front, i, rest, t, rfl, hfront, hi⟩
      rw [h] at herror
      cases herror

/-- A message of a run is one of one of its steps. -/
theorem mem_sent_run {m : ω} (h : m ∈ (run step s is).sent) : ∃ front i rest t,
    is = front ++ i :: rest ∧ (run step s front).result = .ok t ∧ m ∈ (step t i).sent := by
  induction is generalizing s with
  | nil => cases h
  | cons i rest ih =>
      cases hi : (step s i).result with
      | error e =>
          rw [run, bind_of_error hi] at h
          exact ⟨[], i, rest, s, rfl, rfl, h⟩
      | ok t =>
          rw [sent_run_cons hi] at h
          rcases List.mem_append.mp h with h | h
          · exact ⟨[], i, rest, s, rfl, rfl, h⟩
          · obtain ⟨front, j, back, u, rfl, hfront, hj⟩ := ih h
            refine ⟨i :: front, j, back, u, rfl, ?_, hj⟩
            rw [run, bind_of_ok hi]
            exact hfront

/-- What every step under a condition keeps, every run under that condition keeps, and
all its messages are among those the steps may send. -/
theorem run_ensures {cond : σ → ι → Bool}
    (hstep : ∀ s i, P s → cond s i = true → Ensures Q (step s i) P)
    (hs : P s) (hc : along step cond s is = true) : Ensures Q (run step s is) P := by
  induction is generalizing s with
  | nil => exact ensures_pure hs
  | cons i rest ih =>
      obtain ⟨hi, hrest⟩ := along_cons.mp hc
      have hfirst := hstep s i hs hi
      have hkeep : Ensures Q (step s i) fun t => P t ∧ (step s i).result = .ok t :=
        ⟨hfirst.sent, fun t ht => ⟨hfirst.result t ht, ht⟩⟩
      apply hkeep.bind
      intro t ht
      exact ih ht.1 (hrest t ht.2)

/-- The same for what every step on one of the inputs keeps. -/
theorem run_ensures_of_mem (hstep : ∀ i ∈ is, ∀ s, P s → Ensures Q (step s i) P) (hs : P s) :
    Ensures Q (run step s is) P := by
  induction is generalizing s with
  | nil => exact ensures_pure hs
  | cons i rest ih =>
      apply (hstep i (by simp) s hs).bind
      intro t ht
      exact ih (fun j hj => hstep j (List.mem_cons_of_mem _ hj)) ht

section Simulation

variable {τ κ μ : Type u} {spec : τ → κ → τ × List μ} {cond : τ → κ → Prop}

/-- A condition on the state of a specification before each of its steps. -/
def Admits (spec : τ → κ → τ × List μ) (cond : τ → κ → Prop) : τ → List κ → Prop
  | _, [] => True
  | m, k :: rest => cond m k ∧ Admits spec cond (spec m k).1 rest

/-- A machine whose every step under a condition on the specification returns, follows it and
sends what it says returns from every run under that condition, follows the specification,
and sends what it says. -/
theorem run_simulates {input : κ → ι} {ks : List κ} {m : τ} (R : σ → τ → Prop) (S : μ → ω → Prop)
    (hstep : ∀ s m k, R s m → cond m k → ∃ s', (step s (input k)).result = .ok s' ∧
      R s' (spec m k).1 ∧ List.Forall₂ S (spec m k).2 (step s (input k)).sent)
    (hs : R s m) (hc : Admits spec cond m ks) :
    ∃ t, (run step s (ks.map input)).result = .ok t ∧ R t (Machine.totalRun spec m ks).1 ∧
      List.Forall₂ S (Machine.totalRun spec m ks).2.flatten (run step s (ks.map input)).sent := by
  induction ks generalizing s m with
  | nil => exact ⟨s, rfl, hs, .nil⟩
  | cons k rest ih =>
      obtain ⟨hk, hrest⟩ := hc
      obtain ⟨s₁, hfirst, hr, hsent⟩ := hstep s m k hs hk
      obtain ⟨t, hrun, ht, hsents⟩ := ih hr hrest
      rw [List.map_cons, run, bind_of_ok hfirst]
      exact ⟨t, hrun, ht, List.rel_append hsent hsents⟩

end Simulation

end Run

end Output

end DnsRelay.Lib
