import DnsRelay.Relay.Serving

/-!
# Answers from memory

What the service remembers of a name is what the last report about it has taught, whatever
else it was asked and told in between. So a question for addresses that the file does not
decide is answered with those of the last report, and goes upstream if there was none.
-/

namespace DnsRelay.Relay

open DnsRelay.Message DnsRelay.Adapter DnsRelay.LocalRecord DnsRelay.Lib DnsRelay.Lib.Machine
open Function

section Memory

variable {d : Directory} {s : Service} {t : AddressType} {name : Label}

/-- What a stimulus teaches of the addresses that a name has of some type. -/
def Service.taught (s : Service) (t : AddressType) (name : Label) :
    Stimulus → Option (List Learned)
  | .tell _ r _ now time =>
      match s.pending r.slot with
      | some p =>
          if p.qtype = t.code ∧ addressRecords r.records ≠ [] ∧ r.name = name then
            some (r.learned now time)
          else none
      | none => none
  | _ => none

/-- What the last stimulus about a name has taught. -/
def lastTaught (d : Directory) (t : AddressType) (name : Label) :
    Service → List Stimulus → Option (List Learned)
  | _, [] => none
  | s, stimulus :: rest =>
      (lastTaught d t name (s.step d stimulus).1 rest).or (s.taught t name stimulus)

theorem consult_value (s : Service) (t' : AddressType) (client : SockaddrIn) (q : Inquiry)
    (message : Bytes) (clock time : ℤ) :
    ((s.consult t' client q message clock time).1.memory t).value = (s.memory t).value := by
  cases hget : (s.memory t').get q.name with
  | mk m found =>
      have hvalue := LruMap.value_get (s.memory t') q.name
      rw [hget] at hvalue
      cases found with
      | none =>
          rw [Service.consult, hget]
          exact congrArg (fun memory => (memory t).value)
            (forward_memory s client q message clock).1
      | some learned =>
          have hmemory : (s.consult t' client q message clock time).1.memory =
              update s.memory t' m := by
            rw [Service.consult, hget]
          rw [hmemory]
          by_cases ht : t = t'
          · rw [ht, update_self]
            exact hvalue
          · rw [update_of_ne ht]

/-- A question teaches nothing. -/
theorem ask_value (s : Service) (client : SockaddrIn) (q : Inquiry) (message : Bytes)
    (clock time : ℤ) :
    ((s.ask d client q message clock time).1.memory t).value = (s.memory t).value := by
  unfold Service.ask
  split
  next => rfl
  next =>
    cases AddressType.ofCode q.qtype with
    | none =>
        exact congrArg (fun memory => (memory t).value) (forward_memory s client q message clock).1
    | some t' =>
        dsimp only
        unfold Service.lookUp
        split
        next => rfl
        next => exact consult_value s t' client q message clock time

/-- A report replaces what is remembered of its name. -/
theorem learn_value (s : Service) (qtype : ℕ) (r : Report) (now time : ℤ) :
    (s.learn qtype r now time t).value name =
      (if qtype = t.code ∧ addressRecords r.records ≠ [] ∧ r.name = name then
        some (r.learned now time)
      else none).or ((s.memory t).value name) := by
  unfold Service.learn
  cases hcode : AddressType.ofCode qtype with
  | none =>
      rw [if_neg fun h => AddressType.ofCode_eq_none.mp hcode t h.1, Option.none_or]
  | some t' =>
      obtain rfl := AddressType.ofCode_eq_some.mp hcode
      dsimp only
      by_cases hnil : addressRecords r.records = []
      · rw [if_pos hnil, if_neg fun h => h.2.1 hnil, Option.none_or]
      · rw [if_neg hnil]
        by_cases ht : t = t'
        · subst ht
          rw [update_self, LruMap.set_value]
          by_cases hname : r.name = name
          · rw [if_pos ⟨rfl, hnil, hname⟩, ← hname, update_self, Option.some_or]
          · rw [if_neg fun h => hname h.2.2, update_of_ne (Ne.symm hname), Option.none_or]
        · rw [update_of_ne ht, if_neg fun h => ht (AddressType.code_inj h.1.symm), Option.none_or]

/-- One stimulus changes what is remembered of a name to what it teaches of it. -/
theorem step_value (s : Service) (stimulus : Stimulus) :
    ((s.step d stimulus).1.memory t).value name =
      (s.taught t name stimulus).or ((s.memory t).value name) := by
  cases stimulus with
  | tick clock => rfl
  | ask client q message clock now time =>
      exact congrFun (ask_value s client q message clock time) name
  | tell sender r message now time =>
      simp only [Service.step, Service.tell, Service.taught]
      cases s.pending r.slot with
      | none => rfl
      | some p => exact learn_value s p.qtype r now time

/-- What is remembered after any stimuli is what the last one has taught. -/
theorem totalRun_value (s : Service) (stimuli : List Stimulus) :
    ((totalRun (Service.step d) s stimuli).1.memory t).value name =
      (lastTaught d t name s stimuli).or ((s.memory t).value name) := by
  induction stimuli generalizing s with
  | nil => rfl
  | cons stimulus rest ih =>
      rw [totalRun, ih, step_value, lastTaught, Option.or_assoc]

end Memory

section Question

variable {d : Directory} {s : Service} {t : AddressType} {q : Inquiry} {learned : List Learned}

/-- A question that the directory leaves open is decided by what is remembered. -/
theorem ask_of_open (ht : q.qtype = t.code) (hfree : d.blocked q.name = false)
    (hlisted : t = .A → d.addresses q.name = []) (client : SockaddrIn) (message : Bytes)
    (clock time : ℤ) :
    s.ask d client q message clock time = s.consult t client q message clock time := by
  have hcode : AddressType.ofCode q.qtype = some t := AddressType.ofCode_eq_some.mpr ht
  have hdirectory : ¬ (t = .A ∧ d.addresses q.name ≠ []) := fun h => h.2 (hlisted h.1)
  rw [Service.ask, hfree, if_neg Bool.false_ne_true, hcode]
  dsimp only
  rw [Service.lookUp, if_neg hdirectory]

theorem consult_of_some (h : (s.memory t).value q.name = some learned) (client : SockaddrIn)
    (message : Bytes) (clock time : ℤ) :
    (s.consult t client q message clock time).2 =
      [.answer client q (learned.map (q.aged time))] := by
  have hget : (s.memory t).get q.name = (((s.memory t).get q.name).1, some learned) :=
    Prod.ext rfl ((LruMap.get_snd _ _).trans h)
  rw [Service.consult, hget]

theorem consult_of_none (h : (s.memory t).value q.name = none) (client : SockaddrIn)
    (message : Bytes) (clock time : ℤ) :
    s.consult t client q message clock time = s.forward client q message clock := by
  rw [Service.consult, LruMap.get_of_none h]

theorem forward_notices (s : Service) (client : SockaddrIn) (q : Inquiry) (message : Bytes)
    (clock : ℤ) :
    (s.forward client q message clock).2 = [] ∨
      (s.forward client q message clock).2 = [.forward s.upstream s.cursor message] := by
  unfold Service.forward
  split
  next => exact .inl rfl
  next => exact .inr rfl

end Question

section Program

/-- Under all accepted settings and after every run whose events are stimuli that the service is
meant for, a question for the addresses of a name that the chosen file neither blocks nor lists
is answered under its id with the addresses that the last report about the name has taught, each
for the time it has left. If there was no such report, nothing is answered, and at most the
question itself goes upstream. -/
theorem main_answers_lastTaught (env : Environment) (name : Bytes)
    (settings : List (Setting × Bytes)) (h : Accepted env settings) (stimuli : List Stimulus)
    (hproper : Admitted env settings stimuli) (rounds : List Round)
    (hrounds : rounds.flatMap Round.events = stimuli.map Stimulus.event)
    (a : Arrival) (q : Inquiry) (t : AddressType) (ht : q.qtype = t.code)
    (hask : (serviceRun env settings stimuli).1.Proper (capacity settings).toNat
      (chosenDirectory env settings) (.ask a.sender q a.data a.clock a.now a.time))
    (hfree : (chosenDirectory env settings).blocked q.name = false)
    (hlisted : t = .A → (chosenDirectory env settings).addresses q.name = []) :
    ∃ w, (main env (name :: commandLine settings) rounds).result = .ok (some w) ∧
      match lastTaught (chosenDirectory env settings) t q.name (chosenService env settings)
        stimuli with
      | some learned =>
          RepliesWith (loopRound w (.ready .unset (.arrived a))) a.sender q.id
            [⟨[q.labels], q.qtype, q.qclass⟩] (learned.map (q.aged a.time))
      | none =>
          (loopRound w (.ready .unset (.arrived a))).sent = [] ∨
            ∃ k : Slot, (loopRound w (.ready .unset (.arrived a))).sent =
              [⟨.query, w.queryServer, replaceId k a.data⟩] := by
  obtain ⟨v, hinit, hv⟩ := init_configured h name
  obtain ⟨w, hrun, hserves, -⟩ := hv.follows hproper
  have hresult : (main env (name :: commandLine settings) rounds).result = .ok (some w) := by
    rw [(main_of_world hinit rounds).2, hrounds, hrun]
    rfl
  refine ⟨w, hresult, ?_⟩
  -- What is remembered of the name is what the last report has taught.
  have hvalue : ((serviceRun env settings stimuli).1.memory t).value q.name =
      lastTaught (chosenDirectory env settings) t q.name (chosenService env settings) stimuli := by
    rw [serviceRun, totalRun_value]
    exact Option.or_none
  have hround : (loopRound w (.ready .unset (.arrived a))).sent =
      (step w (.request a.sender a.data a.clock a.now a.time)).sent := rfl
  have hopen := ask_of_open (s := (serviceRun env settings stimuli).1) ht hfree hlisted a.sender
    a.data a.clock a.time
  obtain ⟨w', -, -, hsays⟩ := hserves.ask hask
  rw [← chosenDirectory, hopen, ← hround] at hsays
  cases hlast : lastTaught (chosenDirectory env settings) t q.name (chosenService env settings)
      stimuli with
  | some learned =>
      rw [consult_of_some (hvalue.trans hlast)] at hsays
      obtain ⟨datagram, hsent, hsocket, hdest, hid, hdecodes⟩ := Notice.Says.single hsays
      refine ⟨datagram.bytes, ?_, hid, hdecodes⟩
      rw [hsent, ← hsocket, ← hdest]
  | none =>
      rw [consult_of_none (hvalue.trans hlast)] at hsays
      rcases forward_notices (serviceRun env settings stimuli).1 a.sender q a.data a.clock with
        hdropped | hforwarded
      · rw [hdropped] at hsays
        exact .inl (List.forall₂_nil_left_iff.mp hsays)
      · rw [hforwarded, hserves.upstream] at hsays
        obtain ⟨datagram, hsent, hdatagram⟩ := Notice.Says.single hsays
        refine .inr ⟨(serviceRun env settings stimuli).1.cursor, ?_⟩
        rw [hsent, hdatagram]

/-- After one client has asked for `c` and has got the reply, another client gets its address from
memory, for the forty seconds that are left. -/
theorem main_answers_lastTaught_sample :
    ∃ w, (main sampleEnvironment ([100] :: commandLine sampleSettings)
        [.ready .unset (.arrived ⟨⟨2, 1, 1⟩, askingFor 7, 0, 0, 0⟩),
          .ready (.arrived ⟨⟨2, 53, 9⟩, toldAddress, 0, 0, 0⟩) .unset]).result = .ok (some w) ∧
      RepliesWith (loopRound w (.ready .unset
          (.arrived ⟨⟨2, 2, 2⟩, askingFor 9, 20, 20, 20⟩)))
        ⟨2, 2, 2⟩ 9 [⟨[[[99]]], 1, 1⟩] [⟨[[[99]]], 1, 1, 40, [1, 2, 3, 4]⟩] := by
  obtain ⟨hfirst, hreport, hsecond, -⟩ := askedTwice_admitted
  exact main_answers_lastTaught sampleEnvironment [100] sampleSettings sampleSettings_accepted
    [.ask ⟨2, 1, 1⟩ (askedFor 7) (askingFor 7) 0 0 0,
      .tell ⟨2, 53, 9⟩ toldReport toldAddress 0 0] ⟨hfirst, hreport, trivial⟩ _ rfl
    ⟨⟨2, 2, 2⟩, askingFor 9, 20, 20, 20⟩ (askedFor 9) .A rfl hsecond (by decide)
    fun _ => by decide

end Program

end DnsRelay.Relay
