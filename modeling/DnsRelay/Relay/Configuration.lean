import DnsRelay.Relay.LocalNames
import DnsRelay.Relay.Program

/-!
# What the command line configures

The program serves exactly on the command lines that are pairs of an option and its value,
and of values given for the same option the last one counts. The rounds of its loop are runs
of the handlers, so what holds of all runs of the handlers holds of the program under every
configuration.
-/

namespace DnsRelay.Relay

open DnsRelay.Message DnsRelay.Adapter DnsRelay.Static DnsRelay.LocalRecord DnsRelay.Lib
open DnsRelay.Lib.Machine

section Settings

/-- The options of the command line. -/
inductive Setting
  | debugLev
  | file
  | dnsServer
  | cacheNum
  deriving DecidableEq

def Setting.option : Setting → Bytes
  | debugLev => optionDebug
  | file => optionFile
  | dnsServer => optionServer
  | cacheNum => optionCache

/-- The arguments that give these values to options, one after the other. -/
def commandLine (settings : List (Setting × Bytes)) : List Bytes :=
  settings.flatMap fun p => [p.1.option, p.2]

/-- The value given last for an option. -/
def lastValue (s : Setting) (settings : List (Setting × Bytes)) : Option Bytes :=
  (settings.filter (·.1 = s)).getLast?.map Prod.snd

@[simp] theorem lastValue_nil (s : Setting) : lastValue s [] = none := rfl

theorem lastValue_concat (s : Setting) (settings : List (Setting × Bytes)) (p : Setting × Bytes) :
    lastValue s (settings ++ [p]) = if p.1 = s then some p.2 else lastValue s settings := by
  unfold lastValue
  rw [List.filter_append]
  split
  next h => simp [h]
  next h => simp [h]

theorem commandLine_append (before after : List (Setting × Bytes)) :
    commandLine (before ++ after) = commandLine before ++ commandLine after :=
  List.flatMap_append

theorem length_commandLine (settings : List (Setting × Bytes)) :
    (commandLine settings).length = 2 * settings.length := by
  induction settings with
  | nil => rfl
  | cons p settings ih =>
      rw [commandLine, List.flatMap_cons, List.length_append, ← commandLine, ih, List.length_cons,
        List.length_cons, List.length_cons, List.length_nil]
      omega

/-- Where the loop over the arguments calls `dnsExit`. -/
inductive Misplaced : List Bytes → Prop
  | last (argument : Bytes) : Misplaced [argument]
  | unknown (argument value : Bytes) (rest : List Bytes) :
      (∀ s : Setting, argument ≠ s.option) → Misplaced (argument :: value :: rest)

/-- Arguments are pairs of an option and a value up to the first place where they are not. -/
theorem arguments_split (args : List Bytes) :
    ∃ settings rest, args = commandLine settings ++ rest ∧ (rest = [] ∨ Misplaced rest) := by
  induction h : args.length using Nat.strong_induction_on generalizing args with
  | _ n ih =>
      subst h
      rcases args with _ | ⟨first, _ | ⟨value, rest⟩⟩
      · exact ⟨[], [], rfl, .inl rfl⟩
      · exact ⟨[], [first], rfl, .inr (.last first)⟩
      · by_cases hs : ∃ s : Setting, first = s.option
        · obtain ⟨s, rfl⟩ := hs
          have hlength : rest.length < (s.option :: value :: rest).length := by
            rw [List.length_cons, List.length_cons]
            omega
          obtain ⟨settings, end_, rfl, hend⟩ := ih rest.length hlength rest rfl
          exact ⟨(s, value) :: settings, end_, rfl, hend⟩
        · exact ⟨[], _, rfl, .inr (.unknown first value rest (not_exists.mp hs))⟩

/-- What one option does, with its value behind position `i`. -/
def Setting.assign (i : ℕ) (value : Bytes) (options : Options) : Setting → Exec Options
  | debugLev => .ok { options with debugLev := i + 1 }
  | file => .ok { options with file := i + 1 }
  | dnsServer => .ok { options with dnsServer := i + 1 }
  | cacheNum => do return { options with cacheNum := ← atoi value }

def assignAll : ℕ → List (Setting × Bytes) → Options → Exec Options
  | _, [], options => .ok options
  | i, p :: settings, options => do
      let options ← p.1.assign i p.2 options
      assignAll (i + 2) settings options

theorem parseArguments_option (s : Setting) (i : ℕ) (value : Bytes) (rest : List Bytes)
    (options : Options) :
    parseArguments i (s.option :: value :: rest) options =
      s.assign i value options >>= parseArguments (i + 2) rest := by
  cases s with
  | cacheNum =>
      change (atoi value >>= fun n => _) = (atoi value >>= fun n => _) >>= _
      cases atoi value <;> rfl
  | _ => rfl

theorem Misplaced.exits {args : List Bytes} (h : Misplaced args) (i : ℕ) (options : Options) :
    parseArguments i args options = .ok none := by
  cases h with
  | last argument => rfl
  | unknown argument value rest hs =>
      have hd : argument ≠ optionDebug := hs .debugLev
      have hf : argument ≠ optionFile := hs .file
      have hserver : argument ≠ optionServer := hs .dnsServer
      have hc : argument ≠ optionCache := hs .cacheNum
      rw [parseArguments, if_neg hd, if_neg hf, if_neg hserver, if_neg hc]

/-- The loop assigns the values of all pairs, and goes on behind them. -/
theorem parseArguments_append (settings : List (Setting × Bytes)) (rest : List Bytes) (i : ℕ)
    (options : Options) :
    parseArguments i (commandLine settings ++ rest) options =
      assignAll i settings options >>= parseArguments (i + 2 * settings.length) rest := by
  induction settings generalizing i options with
  | nil => rfl
  | cons p settings ih =>
      have hline : commandLine (p :: settings) ++ rest =
          p.1.option :: p.2 :: (commandLine settings ++ rest) := rfl
      have hlength : i + 2 * (p :: settings).length = i + 2 + 2 * settings.length := by
        rw [List.length_cons]
        omega
      rw [hline, parseArguments_option, assignAll, hlength]
      cases p.1.assign i p.2 options with
      | error e => rfl
      | ok options₁ => exact ih (i + 2) options₁

/-- The values of `-c` are numbers in the range of `int`. -/
def Numeric (settings : List (Setting × Bytes)) : Prop :=
  ∀ v, (.cacheNum, v) ∈ settings → stopOf (atoi v) = none

instance numericDecidable (settings : List (Setting × Bytes)) : Decidable (Numeric settings) :=
  decidable_of_iff (∀ p ∈ settings, p.1 = .cacheNum → stopOf (atoi p.2) = none) (by
    constructor
    · exact fun h v hv => h _ hv rfl
    · rintro h ⟨s, v⟩ hv rfl
      exact h v hv)

theorem assign_ok_iff {p : Setting × Bytes} {i : ℕ} {options : Options} :
    (∃ options', p.1.assign i p.2 options = .ok options') ↔
      (p.1 = .cacheNum → stopOf (atoi p.2) = none) := by
  obtain ⟨s, value⟩ := p
  cases s with
  | cacheNum =>
      change (∃ options', (atoi value >>= fun n => pure _) = .ok options') ↔ _
      cases atoi value with
      | ok n => exact ⟨fun _ _ => rfl, fun _ => ⟨_, rfl⟩⟩
      | error e => simp [bind, Except.bind]
  | debugLev | file | dnsServer =>
      refine ⟨fun _ hs => ?_, fun _ => ⟨_, rfl⟩⟩
      cases hs

theorem assignAll_ok_iff {settings : List (Setting × Bytes)} {i : ℕ} {options : Options} :
    (∃ options', assignAll i settings options = .ok options') ↔ Numeric settings := by
  induction settings generalizing i options with
  | nil => exact ⟨fun _ v hv => by simp at hv, fun _ => ⟨options, rfl⟩⟩
  | cons p settings ih =>
      constructor
      · rintro ⟨options', h⟩ v hv
        obtain ⟨options₁, hp, h⟩ := bind_eq_ok.mp h
        rcases List.mem_cons.mp hv with rfl | hv
        · exact assign_ok_iff.mp ⟨options₁, hp⟩ rfl
        · exact ih.mp ⟨options', h⟩ v hv
      · intro h
        have hp : p.1 = .cacheNum → stopOf (atoi p.2) = none := by
          intro hs
          exact h p.2 (by rw [← hs]; simp)
        obtain ⟨options₁, hp⟩ := assign_ok_iff.mpr hp
        have hrest : ∃ options', assignAll (i + 2) settings options₁ = .ok options' :=
          ih.mpr fun v hv => h v (List.mem_cons_of_mem _ hv)
        obtain ⟨options', hrest⟩ := hrest
        exact ⟨options', bind_eq_ok.mpr ⟨options₁, hp, hrest⟩⟩

/-- The options after these settings, read from `argv`. -/
structure Chosen (argv : List Bytes) (settings : List (Setting × Bytes)) (options : Options) :
    Prop where
  file : ∀ default, argument argv options.file default =
    .ok ((lastValue .file settings).getD default)
  dnsServer : ∀ default, argument argv options.dnsServer default =
    .ok ((lastValue .dnsServer settings).getD default)
  cacheNum : (lastValue .cacheNum settings).elim (.ok 0) atoi = .ok options.cacheNum

theorem chosen_nil (argv : List Bytes) : Chosen argv [] ⟨0, 0, 0, 0⟩ :=
  ⟨fun _ => rfl, fun _ => rfl, rfl⟩

/-- One setting more. -/
theorem Chosen.assign {argv : List Bytes} {settings : List (Setting × Bytes)}
    {p : Setting × Bytes} {i : ℕ} {options options' : Options} (h : Chosen argv settings options)
    (hvalue : argv[i + 1]? = some p.2) (ha : p.1.assign i p.2 options = .ok options') :
    Chosen argv (settings ++ [p]) options' := by
  obtain ⟨s, value⟩ := p
  have harg : ∀ default, argument argv (i + 1) default = .ok value := by
    intro default
    rw [argument, if_neg (Nat.succ_ne_zero i), hvalue]
  cases s with
  | debugLev =>
      cases ha
      exact ⟨by simpa [lastValue_concat] using h.file,
        by simpa [lastValue_concat] using h.dnsServer,
        by simpa [lastValue_concat] using h.cacheNum⟩
  | file =>
      cases ha
      exact ⟨by simpa [lastValue_concat] using harg, by simpa [lastValue_concat] using h.dnsServer,
        by simpa [lastValue_concat] using h.cacheNum⟩
  | dnsServer =>
      cases ha
      exact ⟨by simpa [lastValue_concat] using h.file, by simpa [lastValue_concat] using harg,
        by simpa [lastValue_concat] using h.cacheNum⟩
  | cacheNum =>
      obtain ⟨n, hn, ha⟩ := bind_eq_ok.mp ha
      cases ha
      exact ⟨by simpa [lastValue_concat] using h.file,
        by simpa [lastValue_concat] using h.dnsServer,
        by simpa [lastValue_concat] using hn⟩

/-- The settings of a command line are all read from it. -/
theorem Chosen.assignAll {argv : List Bytes} {after : List (Setting × Bytes)} :
    ∀ {before : List (Setting × Bytes)} {options options' : Options},
      Chosen argv before options → argv.tail = commandLine (before ++ after) →
      assignAll (1 + 2 * before.length) after options = .ok options' →
      Chosen argv (before ++ after) options' := by
  induction after with
  | nil =>
      intro before options options' h _ ha
      cases ha
      rwa [List.append_nil]
  | cons p after ih =>
      intro before options options' h hargv ha
      obtain ⟨options₁, hp, ha⟩ := bind_eq_ok.mp ha
      have hvalue : argv[1 + 2 * before.length + 1]? = some p.2 := by
        rw [← List.getElem?_tail, hargv, commandLine_append,
          List.getElem?_append_right (by rw [length_commandLine]; omega), length_commandLine,
          show 1 + 2 * before.length - 2 * before.length = 1 by omega]
        rfl
      have hassoc : before ++ [p] ++ after = before ++ p :: after := by simp
      have hcount : 1 + 2 * (before ++ [p]).length = 1 + 2 * before.length + 2 := by
        rw [List.length_append, List.length_singleton]
        omega
      have hrest := ih (h.assign hvalue hp) (by rw [hassoc]; exact hargv)
        (by rw [hcount]; exact ha)
      rwa [hassoc] at hrest

theorem parseArguments_eq_none_iff {args : List Bytes} {i : ℕ} {options : Options} :
    parseArguments i args options = .ok none ↔
      ∃ settings rest, args = commandLine settings ++ rest ∧ Numeric settings ∧
        Misplaced rest := by
  constructor
  · intro h
    obtain ⟨settings, rest, rfl, hrest⟩ := arguments_split args
    rw [parseArguments_append] at h
    obtain ⟨options', hassign, h⟩ := bind_eq_ok.mp h
    refine ⟨settings, rest, rfl, assignAll_ok_iff.mp ⟨options', hassign⟩, ?_⟩
    rcases hrest with rfl | hrest
    · cases h
    · exact hrest
  · rintro ⟨settings, rest, rfl, hnum, hrest⟩
    obtain ⟨options', hassign⟩ := assignAll_ok_iff.mpr hnum
    rw [parseArguments_append]
    exact bind_eq_ok.mpr ⟨options', hassign, hrest.exits _ _⟩

end Settings

section Start

variable {env : Environment} {settings : List (Setting × Bytes)} {w : World}

def chosenFile (settings : List (Setting × Bytes)) : Bytes :=
  (lastValue .file settings).getD defaultFile

def chosenServer (settings : List (Setting × Bytes)) : Bytes :=
  (lastValue .dnsServer settings).getD defaultServer

/-- The length of the caches: the number that is given, if it is positive. -/
def capacity (settings : List (Setting × Bytes)) : ℤ :=
  match (lastValue .cacheNum settings).elim (.ok 0) atoi with
  | .ok n => if 0 < n then n else Lru.lruBufferLength
  | .error _ => Lru.lruBufferLength

theorem capacity_pos (settings : List (Setting × Bytes)) : 0 < capacity settings := by
  unfold capacity
  split
  · split
    next hpos => exact hpos
    next => decide
  · decide

/-- The records of the file that is chosen; there are none if it does not open. -/
def chosenRecords (env : Environment) (settings : List (Setting × Bytes)) : List (Bytes × Bytes) :=
  (env.fopen (chosenFile settings)).elim [] records

/-- The settings that start the program: numbers are in range and the file can be read. -/
structure Accepted (env : Environment) (settings : List (Setting × Bytes)) : Prop where
  numeric : Numeric settings
  file : ∀ bytes ∈ env.fopen (chosenFile settings), TwoTokens bytes
  length : capacity settings + 1 < 2 ^ 31
  scaled : env.scaled (capacity settings) < 2 ^ 31

/-- The loop starts as these settings ask. -/
structure Configured (env : Environment) (settings : List (Setting × Bytes)) (w : World) :
    Prop where
  initial : w.Initial
  temp : ∀ t, w.cacheset.temp t = Lru.initCache (capacity settings) cacheInfiniteSize
    (env.scaled (capacity settings))
  adapter : w.adapter = (booted 0).adapter
  queryServer : w.queryServer = initQueryServer (serverAddr env.net (chosenServer settings))
  fromFile : FromFile env.net (chosenRecords env settings) w.cacheset

/-- The stores and caches do not matter for the arrays and for the table. -/
theorem initial_of_temps {addr : UInt32} {cs : CacheSet}
    (h : ∀ t, ∃ recordLength maxSize scaled,
      cs.temp t = Lru.initCache recordLength maxSize scaled) :
    ({ booted addr with cacheset := cs } : World).Initial where
  sized := ⟨(booted_sized addr).recvBuffer, (booted_sized addr).message,
    (booted_sized addr).label, (booted_sized addr).ans⟩
  free := (booted_initial addr).free
  caches := h

theorem initARecordCache_eq_ok {scaled : ℤ → ℕ} {n : ℤ} {c : Lru.Cache}
    (h : initARecordCache scaled n = .ok c) :
    ∃ k, c = Lru.initCache n cacheInfiniteSize k := by
  unfold initARecordCache at h
  dsimp only at h
  generalize (if n ≤ 0 then Lru.lruBufferLength else n) = length at h
  split at h
  · cases h
    exact ⟨_, rfl⟩
  · cases h

theorem initARecordCache_of_pos {scaled : ℤ → ℕ} {n : ℤ} (hpos : 0 < n) (hn : n + 1 < 2 ^ 31)
    (hs : scaled n < 2 ^ 31) :
    initARecordCache scaled n = .ok (Lru.initCache n cacheInfiniteSize (scaled n)) := by
  simp only [initARecordCache, if_neg (not_le.mpr hpos), hn, hs, and_self, if_true]

/-- A length that is not positive stands for the default. -/
theorem initARecordCache_of_nonpos (scaled : ℤ → ℕ) {n : ℤ} (h : n ≤ 0) :
    initARecordCache scaled n = initARecordCache scaled Lru.lruBufferLength := by
  simp [initARecordCache, Lru.initCache, h, Lru.lruBufferLength]

/-- The caches are set up with the capacity. -/
theorem initARecordCache_capacity {n : ℤ} (h : Accepted env settings)
    (hn : (lastValue .cacheNum settings).elim (.ok 0) atoi = .ok n) :
    initARecordCache env.scaled (if n = 0 then Lru.lruBufferLength else n) =
      .ok (Lru.initCache (capacity settings) cacheInfiniteSize
        (env.scaled (capacity settings))) := by
  rw [← initARecordCache_of_pos (capacity_pos settings) h.length h.scaled]
  simp only [capacity, hn]
  by_cases hzero : n = 0
  · simp [hzero]
  · rw [if_neg hzero]
    split
    next => rfl
    next hneg => exact initARecordCache_of_nonpos _ (not_lt.mp hneg)

/-- Whenever `init` returns, the loop can start. -/
theorem init_initial {argv : List Bytes} (h : init env argv = .ok (some w)) : w.Initial := by
  obtain ⟨options, -, h⟩ := bind_eq_ok.mp h
  cases options with
  | none => cases h
  | some options =>
      obtain ⟨file, -, h⟩ := bind_eq_ok.mp h
      obtain ⟨⟨cs, done⟩, -, h⟩ := bind_eq_ok.mp h
      obtain ⟨A, hA, h⟩ := bind_eq_ok.mp h
      obtain ⟨AAAA, hAAAA, h⟩ := bind_eq_ok.mp h
      obtain ⟨server, -, h⟩ := bind_eq_ok.mp h
      cases h
      obtain ⟨k, rfl⟩ := initARecordCache_eq_ok hA
      obtain ⟨k', rfl⟩ := initARecordCache_eq_ok hAAAA
      refine initial_of_temps fun t => ?_
      cases t with
      | A => exact ⟨_, _, k, rfl⟩
      | AAAA => exact ⟨_, _, k', rfl⟩

/-- The program starts on every command line of accepted settings, and as they ask. -/
theorem init_configured (h : Accepted env settings) (name : Bytes) :
    ∃ w, init env (name :: commandLine settings) = .ok (some w) ∧ Configured env settings w := by
  have hassigned : ∃ options, assignAll 1 settings ⟨0, 0, 0, 0⟩ = .ok options :=
    assignAll_ok_iff.mpr h.numeric
  obtain ⟨options, hassign⟩ := hassigned
  have hparse := parseArguments_append settings [] 1 ⟨0, 0, 0, 0⟩
  rw [List.append_nil, hassign] at hparse
  have hchosen : Chosen (name :: commandLine settings) settings options :=
    Chosen.assignAll (chosen_nil _) rfl hassign
  have hzeroed : Zeroed zeroedSet := ⟨rfl, rfl, rfl⟩
  obtain ⟨cs, hload, hstores⟩ := loadLocalRecord_fromFile env.net env.IP hzeroed
    (env.fopen (chosenFile settings)) h.file
  have htemp := initARecordCache_capacity h hchosen.cacheNum
  have hinit : init env (name :: commandLine settings) = .ok (some
      { booted (serverAddr env.net (chosenServer settings)) with
        cacheset := { cs with
          A.temp := Lru.initCache (capacity settings) cacheInfiniteSize
            (env.scaled (capacity settings))
          AAAA.temp := Lru.initCache (capacity settings) cacheInfiniteSize
            (env.scaled (capacity settings)) } }) := by
    have hparse' : parseArguments 1 (name :: commandLine settings).tail ⟨0, 0, 0, 0⟩ =
      .ok (some options) := hparse
    have hfile := hchosen.file defaultFile
    have hserver := hchosen.dnsServer defaultServer
    have hfile' : argument (name :: commandLine settings) options.file defaultFile =
      .ok (chosenFile settings) := hfile
    simp only [init, hparse', hfile', hload, hserver, htemp, bind, Except.bind]
    rfl
  refine ⟨_, hinit, initial_of_temps fun t => ?_, fun t => ?_, rfl, rfl, ?_⟩
  · cases t <;> exact ⟨_, _, _, rfl⟩
  · cases t <;> rfl
  · exact ⟨hstores.local4, hstores.local6, hstores.black⟩

/-- Without arguments and without a file the loop starts in the booted world. -/
theorem init_defaults (env : Environment) (name : Bytes) (hfile : env.fopen defaultFile = none)
    (hscaled : env.scaled Lru.lruBufferLength = 1428) :
    init env [name] = .ok (some (booted (serverAddr env.net defaultServer))) := by
  have hcache : initARecordCache env.scaled Lru.lruBufferLength =
      .ok (Lru.initCache 1000 429496729 1428) := by
    rw [initARecordCache_of_pos (by decide) (by decide) (by rw [hscaled]; decide), hscaled]
    rfl
  have hparse : parseArguments 1 [name].tail ⟨0, 0, 0, 0⟩ = .ok (some ⟨0, 0, 0, 0⟩) := rfl
  simp only [init, hparse, argument, if_true, hfile, loadLocalRecord, hcache, bind, Except.bind]
  rfl

theorem init_eq_none_iff {argv : List Bytes} :
    init env argv = .ok none ↔ parseArguments 1 argv.tail ⟨0, 0, 0, 0⟩ = .ok none := by
  constructor
  · intro h
    obtain ⟨options, hparse, h⟩ := bind_eq_ok.mp h
    cases options with
    | none => exact hparse
    | some options =>
        obtain ⟨file, -, h⟩ := bind_eq_ok.mp h
        obtain ⟨⟨cs, done⟩, -, h⟩ := bind_eq_ok.mp h
        obtain ⟨A, -, h⟩ := bind_eq_ok.mp h
        obtain ⟨AAAA, -, h⟩ := bind_eq_ok.mp h
        obtain ⟨server, -, h⟩ := bind_eq_ok.mp h
        cases h
  · intro h
    rw [init, h]
    rfl

/-- The program starts on every command line of accepted settings with what they ask for, the
last value counting where an option is repeated, and shows its usage exactly where the
arguments cease to be pairs of an option and a value. -/
theorem command_line_configures (env : Environment) (name : Bytes) :
    (∀ settings, Accepted env settings →
      ∃ w, init env (name :: commandLine settings) = .ok (some w) ∧
        Configured env settings w) ∧
    ∀ args, init env (name :: args) = .ok none ↔
      ∃ settings rest, args = commandLine settings ++ rest ∧ Numeric settings ∧
        Misplaced rest := by
  constructor
  · intro settings h
    exact init_configured h name
  · intro args
    rw [init_eq_none_iff]
    exact parseArguments_eq_none_iff

/-- The sample file under the name `f`. -/
def sampleEnvironment : Environment where
  net := sampleNet
  fopen := fun name => if name = [102] then some sampleFile else none
  scaled := fun n => (n * 10 / 7).toNat
  IP := ⟨Vector.replicate 16 7, 0⟩

/-- `-c 1 -f f -c 5`. -/
def sampleSettings : List (Setting × Bytes) :=
  [(.cacheNum, [49]), (.file, [102]), (.cacheNum, [53])]

theorem sampleSettings_accepted : Accepted sampleEnvironment sampleSettings where
  numeric := by decide
  file := by decide
  length := by decide
  scaled := by decide

/-- The program starts with caches of length five, and shows its usage where `-f` comes last. -/
theorem command_line_configures_sample :
    (∃ w, init sampleEnvironment ([100] :: commandLine sampleSettings) = .ok (some w) ∧
      w.cacheset.temp .A = Lru.initCache 5 cacheInfiniteSize 7) ∧
    init sampleEnvironment ([100] :: (commandLine sampleSettings ++ [optionFile])) =
      .ok none := by
  obtain ⟨hstarts, hexits⟩ := command_line_configures sampleEnvironment [100]
  obtain ⟨w, hinit, hw⟩ := hstarts sampleSettings sampleSettings_accepted
  refine ⟨⟨w, hinit, (hw.temp .A).trans rfl⟩, ?_⟩
  exact (hexits _).mpr ⟨sampleSettings, [optionFile], rfl, by decide, .last _⟩

end Start

section Rounds

/-- What the handlers see of the datagram for a socket. -/
def Readable.events (event : Arrival → Event) : Readable → List Event
  | .arrived a => [event a]
  | _ => []

/-- The events of a round, in the order in which they are handled. -/
def Round.events : Round → List Event
  | .failed => []
  | .timeout clock => [.sweep clock]
  | .ready query server =>
      query.events (fun a => .relay a.sender a.data a.now a.time) ++
        server.events (fun a => .request a.sender a.data a.clock a.now a.time)

theorem bind_pure_eq (x : Output Datagram Stop World) : (x >>= fun w => pure w) = x := by
  cases hx : x.result with
  | error e => rw [Output.bind_of_error hx, ← hx]
  | ok w => rw [Output.bind_of_ok hx, Output.sent_pure, Output.result_pure, List.append_nil, ← hx]

/-- A round of the loop is a run of the handlers. -/
theorem loopRound_eq (w : World) (r : Round) : loopRound w r = mainLoop w r.events := by
  cases r with
  | failed => rfl
  | timeout clock => exact (bind_pure_eq _).symm
  | ready query server =>
      have hquery : relayPart w query =
          mainLoop w (query.events fun a => .relay a.sender a.data a.now a.time) := by
        cases query with
        | arrived a => exact (bind_pure_eq _).symm
        | _ => rfl
      have hserver : ∀ w, requestPart w server =
          mainLoop w (server.events fun a => .request a.sender a.data a.clock a.now a.time) := by
        intro w
        cases server with
        | arrived a => exact (bind_pure_eq _).symm
        | _ => rfl
      rw [Round.events, mainLoop, Output.run_append_bind, loopRound, hquery]
      exact congrArg _ (funext hserver)

/-- The loop refines the machine that makes one step for each event. -/
theorem rounds_refine (w : World) (rounds : List Round) :
    Output.run loopRound w rounds = mainLoop w (rounds.flatMap Round.events) := by
  have hround : loopRound = fun w r => Output.run step w (Round.events r) :=
    funext fun w => funext fun r => loopRound_eq w r
  rw [hround]
  exact Output.run_flatMap Round.events w rounds

/-- Any sequence of events can arise. -/
theorem exists_rounds (events : List Event) :
    ∃ rounds : List Round, rounds.flatMap Round.events = events := by
  induction events with
  | nil => exact ⟨[], rfl⟩
  | cons e events ih =>
      obtain ⟨rounds, rfl⟩ := ih
      cases e with
      | sweep clock => exact ⟨.timeout clock :: rounds, rfl⟩
      | relay sender data now time =>
          exact ⟨.ready (.arrived ⟨sender, data, 0, now, time⟩) .unset :: rounds, rfl⟩
      | request client data clock now time =>
          exact ⟨.ready .unset (.arrived ⟨client, data, clock, now, time⟩) :: rounds, rfl⟩

variable {env : Environment} {argv : List Bytes} {w : World}

theorem main_of_error {e : Stop} (h : init env argv = .error e) (rounds : List Round) :
    main env argv rounds = ⟨[], .error e⟩ := by
  rw [main, h]
  rfl

theorem main_of_usage (h : init env argv = .ok none) (rounds : List Round) :
    main env argv rounds = ⟨[], .ok none⟩ := by
  rw [main, h]
  rfl

theorem main_of_world (h : init env argv = .ok (some w)) (rounds : List Round) :
    (main env argv rounds).sent = (mainLoop w (rounds.flatMap Round.events)).sent ∧
      (main env argv rounds).result =
        (mainLoop w (rounds.flatMap Round.events)).result.map some := by
  rw [main, h, Output.lift_ok_bind]
  dsimp only
  rw [rounds_refine]
  constructor
  · exact Output.sent_bind_of_nil _ fun _ => rfl
  · rw [Output.result_bind]
    cases (mainLoop w (rounds.flatMap Round.events)).result <;> rfl

/-- A question for the mail exchanger of `a` from one client. -/
def exchangerAsked : Round :=
  .ready .unset (.arrived ⟨⟨2, 1, 1⟩, questionMessage 7 flagQuery [[97]] 15, 0, 0, 0⟩)

/-- The program refines the machine of the handlers: what a command line starts is an initial world,
its runs are the runs of the handlers from there, and every sequence of events is that of some
rounds. A command line that starts nothing sends nothing. -/
theorem main_refines (env : Environment) (argv : List Bytes) :
    (∀ w, init env argv = .ok (some w) → w.Initial ∧ ∀ rounds,
      (main env argv rounds).sent = (mainLoop w (rounds.flatMap Round.events)).sent ∧
      (main env argv rounds).result =
        (mainLoop w (rounds.flatMap Round.events)).result.map some) ∧
    ((∀ w, init env argv ≠ .ok (some w)) → ∀ rounds, (main env argv rounds).sent = []) ∧
    ∀ events, ∃ rounds : List Round, rounds.flatMap Round.events = events := by
  refine ⟨fun w h => ⟨init_initial h, main_of_world h⟩, fun h rounds => ?_, exists_rounds⟩
  cases hinit : init env argv with
  | error e => rw [main_of_error hinit]
  | ok result =>
      cases result with
      | none => rw [main_of_usage hinit]
      | some w => exact absurd hinit (h w)

/-- The question makes the program do what the loop does on the request alone. -/
theorem main_refines_sample :
    ∃ w, init sampleEnvironment ([100] :: commandLine sampleSettings) = .ok (some w) ∧
      w.Initial ∧
      (main sampleEnvironment ([100] :: commandLine sampleSettings) [exchangerAsked]).sent =
        (mainLoop w exchangerAsked.events).sent ∧
      (mainLoop w exchangerAsked.events).sent.map Datagram.socket = [.query] := by
  obtain ⟨w, hinit, -⟩ := init_configured sampleSettings_accepted [100]
  obtain ⟨hstart, hruns⟩ :=
    (main_refines sampleEnvironment ([100] :: commandLine sampleSettings)).1 w hinit
  have hsent : (main sampleEnvironment ([100] :: commandLine sampleSettings)
      [exchangerAsked]).sent = (mainLoop w exchangerAsked.events).sent := (hruns _).1
  have hsocket : (main sampleEnvironment ([100] :: commandLine sampleSettings)
      [exchangerAsked]).sent.map Datagram.socket = [.query] := by
    decide +kernel
  exact ⟨w, hinit, hstart, hsent, hsent ▸ hsocket⟩

end Rounds

section File

variable {w : World}

/-- Under all accepted settings and in every run, no query goes upstream for a name to which the
chosen file gives an address of zeros, and none for the IPv4 addresses of a name that has
some in it. -/
theorem main_spares_file (env : Environment) (name : Bytes) (settings : List (Setting × Bytes))
    (h : Accepted env settings) (rounds : List Round) :
    ∀ d ∈ (main env (name :: commandLine settings) rounds).sent, d.socket = .query →
      ∀ labels, labels ≠ [] → (∀ label ∈ labels, ValidLabel label) →
        (dotted labels).length ≤ 253 →
        (HasAt d.bytes 12 (wireName labels) →
          given env.net .black (chosenRecords env settings) (dotted labels) = []) ∧
        (HasAt d.bytes 12 (wireName labels ++ u16Bytes rrtypeA) →
          given env.net .v4 (chosenRecords env settings) (dotted labels) = []) := by
  obtain ⟨w, hinit, hw⟩ := init_configured h name
  intro d hd hq labels hne hvalid hlen
  rw [(main_of_world hinit rounds).1] at hd
  exact hw.fromFile.spared hw.initial.sized _ hd hq hne hvalid hlen

/-- The question for the mail exchanger goes upstream. One for `b` or for the IPv4 addresses of
`a` does not. -/
theorem main_spares_file_sample :
    (main sampleEnvironment ([100] :: commandLine sampleSettings) [exchangerAsked]).sent.map
        Datagram.socket = [.query] ∧
      ∀ d ∈ (main sampleEnvironment ([100] :: commandLine sampleSettings) [exchangerAsked]).sent,
        d.socket = .query → ¬ HasAt d.bytes 12 (wireName [[98]]) ∧
          ¬ HasAt d.bytes 12 (wireName [[97]] ++ u16Bytes rrtypeA) := by
  have hspared := main_spares_file sampleEnvironment [100] sampleSettings sampleSettings_accepted
    [exchangerAsked]
  have hvalid : ∀ b : UInt8, b ≠ dot → b ≠ 0 → ∀ label ∈ [[b]], ValidLabel label := by
    intro b hdot hzero label hlabel
    rw [List.mem_singleton.mp hlabel]
    exact ⟨by simp, by simp, by simpa using hdot.symm, by simpa using hzero.symm⟩
  refine ⟨by decide +kernel, fun d hd hq => ⟨fun hb => ?_, fun ha => ?_⟩⟩
  · have hblack := (hspared d hd hq [[98]] (by simp) (hvalid 98 (by decide) (by decide))
      (by decide)).1 hb
    exact absurd hblack (by decide)
  · have hlocal := (hspared d hd hq [[97]] (by simp) (hvalid 97 (by decide) (by decide))
      (by decide)).2 ha
    exact absurd hlocal (by decide)

/-- Under all accepted settings and after every run, a query for the IPv4 addresses of a name that
the chosen file does not block is answered with the addresses that the file gives it, all of
them and in file order, for an hour and under the id of the query, when they fit into the
array and into the buffer. Nothing else is sent in that round, and nothing is remembered. -/
theorem main_answers_file (env : Environment) (name : Bytes) (settings : List (Setting × Bytes))
    (h : Accepted env settings) (rounds : List Round) (w : World)
    (hrun : (main env (name :: commandLine settings) rounds).result = .ok (some w))
    (labels : List Bytes) (addrs : List Address) (hne : labels ≠ [])
    (hvalid : ∀ label ∈ labels, ValidLabel label) (hlen : (dotted labels).length ≤ 253)
    (hblack : given env.net .black (chosenRecords env settings) (dotted labels) = [])
    (haddrs : given env.net .v4 (chosenRecords env settings) (dotted labels) = addrs)
    (hsome : addrs ≠ []) (hcount : addrs.length ≤ 20)
    (hfits : 16 + (wireName labels).length + addrs.length * ((wireName labels).length + 14) ≤ 1024)
    (a : Arrival) (id qclass : ℕ) (hrequest : AddressRequest .A a.data labels id qclass) :
    RepliesWith (loopRound w (.ready .unset (.arrived a))) a.sender id
        [⟨[labels], rrtypeA, qclass⟩]
        (addrs.map fun addr => ⟨[labels], rrtypeA, qclass, 3600, addr.bytes⟩) ∧
      ∃ w', (loopRound w (.ready .unset (.arrived a))).result = .ok w' ∧
        w'.cacheset = w.cacheset ∧ w'.adapter = w.adapter := by
  obtain ⟨v, hinit, hv⟩ := init_configured h name
  rw [(main_of_world hinit rounds).2] at hrun
  obtain ⟨w', hloop, hsame⟩ := map_eq_ok.mp hrun
  cases hsame
  obtain ⟨hs, hstores⟩ := mainLoop_stores hv.initial.sized hloop
  exact (hv.fromFile.stores hstores).answered hs hne hvalid hlen hblack haddrs hsome hcount hfits
    hrequest a.sender a.clock a.now a.time

/-- After the question for the mail exchanger, which goes upstream, the address of `a` comes
from the file. -/
theorem main_answers_file_sample :
    ∃ w, (main sampleEnvironment ([100] :: commandLine sampleSettings) [exchangerAsked]).result =
        .ok (some w) ∧
      RepliesWith (loopRound w (.ready .unset
          (.arrived ⟨⟨2, 2, 2⟩, questionMessage 9 flagQuery [[97]] 1, 0, 0, 0⟩)))
        ⟨2, 2, 2⟩ 9 [⟨[[[97]]], 1, 1⟩] [⟨[[[97]]], 1, 1, 3600, [1, 2, 3, 4]⟩] := by
  have hruns : ((main sampleEnvironment ([100] :: commandLine sampleSettings)
      [exchangerAsked]).result.map Option.isSome) = .ok true := by
    decide +kernel
  obtain ⟨found, hrun, hsome⟩ := map_eq_ok.mp hruns
  obtain ⟨w, rfl⟩ := Option.isSome_iff_exists.mp hsome
  have hvalid : ∀ label ∈ [[97]], ValidLabel label := by
    intro label hlabel
    rw [List.mem_singleton.mp hlabel]
    exact ⟨by decide, by decide, by decide, by decide⟩
  have hrequest : AddressRequest .A (questionMessage 9 flagQuery [[97]] 1) [[97]] 9 1 :=
    ⟨by decide, by decide, by decide, by decide, by decide, by decide, by decide⟩
  exact ⟨w, hrun, (main_answers_file sampleEnvironment [100] sampleSettings
    sampleSettings_accepted [exchangerAsked] w hrun [[97]] [⟨4, [1, 2, 3, 4]⟩] (by decide) hvalid
    (by decide) (by decide) (by decide) (by decide) (by decide) (by decide)
    ⟨⟨2, 2, 2⟩, _, 0, 0, 0⟩ 9 1 hrequest).1⟩

end File

end DnsRelay.Relay
