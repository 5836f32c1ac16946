import DnsRelay.Lru.Release
import DnsRelay.Relay.Configuration

/-!
# Cleaning up

`clean_up` releases the stores of local records and the two caches. `free_staticCache` frees
the elements of the array of records one by one, as if each had been allocated by itself, and
then the array, so a store with a record is never released properly.
-/

namespace DnsRelay.Relay

open DnsRelay.Message DnsRelay.Adapter DnsRelay.Static DnsRelay.LocalRecord DnsRelay.Lib
open DnsRelay.Lib.Machine

section Store

/-- The allocations of a store: the array of records, their labels, and the further addresses
that hang from a record. -/
inductive Block
  | array
  | label (i : ℕ)
  | next (i j : ℕ)
  deriving DecidableEq

/-- Reading an allocation, with what has been freed so far. -/
def readBlock (freed : List Block) (b : Block) : Exec Unit :=
  if b ∈ freed then .error .fault else .ok ()

/-- `free` on an allocation. -/
def free (freed : List Block) (b : Block) : Exec (List Block) :=
  if b ∈ freed then .error .fault else .ok (b :: freed)

/-- `free(&Cache->data[i])`, which is the array for the first element and otherwise a pointer into
its middle. -/
def freeElement (freed : List Block) (i : ℕ) : Exec (List Block) :=
  if i = 0 then free freed .array else .error .fault

/-- The rest of `while (data)` behind the element: `n` further addresses, from number `j` on. -/
def freeNext (i : ℕ) : ℕ → ℕ → List Block → Exec (List Block)
  | 0, _, freed => .ok freed
  | n + 1, j, freed => do
      readBlock freed (.next i j)
      freeNext i n (j + 1) (← free freed (.next i j))

/-- The loop over the records from number `i` on. -/
def freeRecords : List StaticRecordData → ℕ → List Block → Exec (List Block)
  | [], _, freed => .ok freed
  | d :: data, i, freed => do
      readBlock freed .array
      let freed ← free freed (.label i)
      readBlock freed .array
      let freed ← freeElement freed i
      let freed ← freeNext i d.next.length 0 freed
      freeRecords data (i + 1) freed

/-- `free_staticCache`. -/
def freeStaticCache (c : StaticCache) : Exec StaticCache :=
  if c.isInit then do
    let freed ← freeRecords c.data 0 []
    let _ ← free freed .array
    return { c with isInit := false }
  else return c

/-- `clean_up`. -/
def cleanUp (cs : CacheSet) : Exec CacheSet := do
  let A ← freeStaticCache cs.A.localStore
  let AAAA ← freeStaticCache cs.AAAA.localStore
  let blacklist ← freeStaticCache cs.blacklist
  let tempA ← Lru.freeCache cs.A.temp
  let tempAAAA ← Lru.freeCache cs.AAAA.temp
  return ⟨blacklist, ⟨tempA, A⟩, ⟨tempAAAA, AAAA⟩⟩

theorem mem_of_free {freed freed' : List Block} {b x : Block} (h : free freed b = .ok freed')
    (hx : x ∈ freed) : x ∈ freed' := by
  unfold free at h
  split at h
  · cases h
  · cases h
    exact List.mem_cons_of_mem b hx

theorem mem_of_freeNext {i n j : ℕ} {freed freed' : List Block} {x : Block}
    (h : freeNext i n j freed = .ok freed') (hx : x ∈ freed) : x ∈ freed' := by
  induction n generalizing j freed with
  | zero =>
      cases h
      exact hx
  | succ n ih =>
      obtain ⟨-, -, h⟩ := bind_eq_ok.mp h
      obtain ⟨freed₁, hfree, h⟩ := bind_eq_ok.mp h
      exact ih h (mem_of_free hfree hx)

/-- The first record takes the whole array with it. -/
theorem freeRecords_cons {d : StaticRecordData} {data : List StaticRecordData}
    {freed : List Block} (h : freeRecords (d :: data) 0 [] = .ok freed) : .array ∈ freed := by
  obtain ⟨-, -, h⟩ := bind_eq_ok.mp h
  obtain ⟨freed₁, -, h⟩ := bind_eq_ok.mp h
  obtain ⟨-, -, h⟩ := bind_eq_ok.mp h
  obtain ⟨freed₂, helement, h⟩ := bind_eq_ok.mp h
  obtain ⟨freed₃, hnext, h⟩ := bind_eq_ok.mp h
  have harray : .array ∈ freed₃ := by
    refine mem_of_freeNext hnext ?_
    rw [freeElement, if_pos rfl, free] at helement
    split at helement
    · cases helement
    · cases helement
      exact List.mem_cons_self
  cases data with
  | nil =>
      cases h
      exact harray
  | cons d' data =>
      -- the second record would be read from the array
      obtain ⟨_, hread, -⟩ := bind_eq_ok.mp h
      have hfault : readBlock freed₃ .array = .error .fault := if_pos harray
      exact absurd (hfault.symm.trans hread) (by simp)

/-- A store is released exactly when it was never set up or has no record. -/
theorem freeStaticCache_ok_iff (c : StaticCache) :
    (∃ c', freeStaticCache c = .ok c') ↔ c.isInit = false ∨ c.data = [] := by
  constructor
  · rintro ⟨c', h⟩
    unfold freeStaticCache at h
    split at h
    next hinit =>
      obtain ⟨freed, hrecords, h⟩ := bind_eq_ok.mp h
      obtain ⟨freed', hfree, -⟩ := bind_eq_ok.mp h
      cases hdata : c.data with
      | nil => exact .inr rfl
      | cons d data =>
          rw [hdata] at hrecords
          rw [free, if_pos (freeRecords_cons hrecords)] at hfree
          cases hfree
    next hinit => exact .inl (Bool.eq_false_of_not_eq_true hinit)
  · rintro (hinit | hdata)
    · exact ⟨c, by rw [freeStaticCache, hinit]; rfl⟩
    · cases hinit : c.isInit with
      | false => exact ⟨c, by rw [freeStaticCache, hinit]; rfl⟩
      | true => exact ⟨{ c with isInit := false }, by rw [freeStaticCache, hinit, hdata]; rfl⟩

end Store

section CleanUp

variable {cs : CacheSet}

/-- Nothing in a store has to be freed. -/
def Releasable (c : StaticCache) : Prop := c.isInit = false ∨ c.data = []

theorem cleanUp_ok_iff : (∃ cs', cleanUp cs = .ok cs') ↔
    (Releasable cs.A.localStore ∧ Releasable cs.AAAA.localStore ∧ Releasable cs.blacklist) ∧
      ∀ t, ∃ c', Lru.freeCache (cs.temp t) = .ok c' := by
  simp only [Releasable, ← freeStaticCache_ok_iff]
  constructor
  · rintro ⟨cs', h⟩
    obtain ⟨A, hA, h⟩ := bind_eq_ok.mp h
    obtain ⟨AAAA, hAAAA, h⟩ := bind_eq_ok.mp h
    obtain ⟨blacklist, hblack, h⟩ := bind_eq_ok.mp h
    obtain ⟨tempA, htempA, h⟩ := bind_eq_ok.mp h
    obtain ⟨tempAAAA, htempAAAA, -⟩ := bind_eq_ok.mp h
    refine ⟨⟨⟨A, hA⟩, ⟨AAAA, hAAAA⟩, ⟨blacklist, hblack⟩⟩, fun t => ?_⟩
    cases t with
    | A => exact ⟨tempA, htempA⟩
    | AAAA => exact ⟨tempAAAA, htempAAAA⟩
  · rintro ⟨⟨⟨A, hA⟩, ⟨AAAA, hAAAA⟩, ⟨blacklist, hblack⟩⟩, htemp⟩
    obtain ⟨tempA, htempA⟩ := htemp .A
    obtain ⟨tempAAAA, htempAAAA⟩ := htemp .AAAA
    exact ⟨_, bind_eq_ok.mpr ⟨A, hA, bind_eq_ok.mpr ⟨AAAA, hAAAA, bind_eq_ok.mpr ⟨blacklist, hblack,
      bind_eq_ok.mpr ⟨tempA, htempA, bind_eq_ok.mpr ⟨tempAAAA, htempAAAA, rfl⟩⟩⟩⟩⟩⟩

/-- A record that is found is in the array. -/
theorem data_ne_nil {c : StaticCache} {label : Label} {record : ℕ}
    (h : getStaticCache c label = .ok (some record)) : ¬ Releasable c := by
  have hinit : c.isInit = true := by
    cases hi : c.isInit with
    | true => rfl
    | false =>
        rw [getStaticCache_of_not_init hi] at h
        cases h
  rintro (hno | hdata)
  · rw [hinit] at hno
    cases hno
  · rw [getStaticCache, if_pos hinit, hdata] at h
    obtain ⟨⟨node, isFind⟩, hnode, h⟩ := bind_eq_ok.mp h
    cases isFind with
    | false => cases h
    | true =>
        obtain ⟨front, r, back, -, -, -, hcompare, -⟩ := Hash.getHashnode_hit hnode
        cases r <;> cases hcompare

theorem not_releasable {c : StaticCache} {n : Label} {l : List Address} (h : Exact c n l)
    (hl : l ≠ []) : ¬ Releasable c := by
  obtain ⟨ips, hlisted, -, hnull⟩ := h
  obtain ⟨record, hget, -⟩ := bind_eq_ok.mp hlisted
  cases record with
  | none => exact absurd (hnull.mp hget) hl
  | some record => exact data_ne_nil hget

variable {env : Environment} {settings : List (Setting × Bytes)} {w : World}

/-- The caches in every state that the loop reaches: `free_cache` returns where no record of the
list leads to released data. -/
theorem mainLoop_freeCache {v : World} (hv : v.Initial) {events : List Event}
    (hrun : (mainLoop v events).result = .ok w) (t : AddressType) :
    (∃ c', Lru.freeCache (w.cacheset.temp t) = .ok c') ↔
      ∀ s ∈ Lru.visited (w.cacheset.temp t), (w.cacheset.temp t).records.data s ≠ .freed := by
  obtain ⟨-, hcaches⟩ := mainLoop_caches (Q := fun c => c.records.data 0 = .null) hv
    (fun _ _ _ => rfl) (fun _ _ hinv hq hexec => Lru.exec_head hinv hq hexec) hrun
  obtain ⟨⟨l, hl⟩, hhead⟩ := hcaches t
  rw [hl.visited_eq]
  exact hl.freeCache_iff hhead

/-- After any rounds of the program, `clean_up` returns exactly when no store has a record and no
record in the list of a cache leads to data that has been released already. So it never
returns where the chosen file has an address of zeros or an IPv4 address. -/
theorem main_cleanUp (env : Environment) (name : Bytes) (settings : List (Setting × Bytes))
    (h : Accepted env settings) (rounds : List Round) (w : World)
    (hrun : (main env (name :: commandLine settings) rounds).result = .ok (some w)) :
    ((∃ cs, cleanUp w.cacheset = .ok cs) ↔
      (Releasable w.cacheset.A.localStore ∧ Releasable w.cacheset.AAAA.localStore ∧
        Releasable w.cacheset.blacklist) ∧
      ∀ t, ∀ s ∈ Lru.visited (w.cacheset.temp t), (w.cacheset.temp t).records.data s ≠ .freed) ∧
    ∀ n, given env.net .black (chosenRecords env settings) n ≠ [] ∨
        given env.net .v4 (chosenRecords env settings) n ≠ [] →
      ¬ ∃ cs, cleanUp w.cacheset = .ok cs := by
  obtain ⟨v, hinit, hv⟩ := init_configured h name
  rw [(main_of_world hinit rounds).2] at hrun
  obtain ⟨w', hloop, hsame⟩ := map_eq_ok.mp hrun
  cases hsame
  have hfile := hv.fromFile.stores (mainLoop_stores hv.initial.sized hloop).2
  refine ⟨?_, ?_⟩
  · rw [cleanUp_ok_iff]
    exact and_congr_right fun _ => forall_congr' fun t => mainLoop_freeCache hv.initial hloop t
  · rintro n hn hcleans
    obtain ⟨⟨hA, -, hblack⟩, -⟩ := cleanUp_ok_iff.mp hcleans
    rcases hn with hn | hn
    · exact not_releasable (hfile.black n) hn hblack
    · exact not_releasable (hfile.local4 n) hn hA

/-- Cleaning up after the sample file frees its array of records twice. -/
theorem main_cleanUp_sample :
    ∃ w, (main sampleEnvironment ([100] :: commandLine sampleSettings) []).result =
        .ok (some w) ∧ ¬ ∃ cs, cleanUp w.cacheset = .ok cs := by
  obtain ⟨w, hinit, -⟩ := init_configured sampleSettings_accepted [100]
  have hrun : (main sampleEnvironment ([100] :: commandLine sampleSettings) []).result =
      .ok (some w) := (main_of_world hinit []).2
  exact ⟨w, hrun, (main_cleanUp sampleEnvironment [100] sampleSettings sampleSettings_accepted []
    w hrun).2 [98] (.inl (by decide))⟩

end CleanUp

end DnsRelay.Relay
