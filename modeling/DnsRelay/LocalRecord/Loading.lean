import DnsRelay.LocalRecord.Scan
import DnsRelay.Message.Answers
import DnsRelay.StaticMap

/-!
# What the stores hold after loading

A record of the file belongs to one of three stores by its address. The first pass counts
the records of each kind, so the second pass finds a store of its kind that is large enough
whenever the store was initialised at all, and lists the addresses of each name in file
order. The store of the IPv6 records is never initialised.
-/

namespace DnsRelay.LocalRecord

open DnsRelay.Message DnsRelay.Static DnsRelay.Relay DnsRelay.Lib DnsRelay.Lib.Machine Function

section Addresses

/-- An address of either family. -/
structure Address where
  family : UInt8
  bytes : Bytes
  deriving DecidableEq

/-- What a record is stored for. -/
inductive Kind
  | black
  | v4
  | v6
  deriving DecidableEq

def Address.isZero (a : Address) : Bool := a.bytes == List.replicate a.bytes.length 0

def Address.kind (a : Address) : Kind :=
  if a.isZero then .black else if a.family = ipv4 then .v4 else .v6

/-- The address that a text stands for; IPv4 comes first. -/
def address (net : InetPton) (ip : Bytes) : Option Address :=
  match net.v4 ip with
  | some bytes => some ⟨ipv4, bytes.toList⟩
  | none => (net.v6 ip).map fun bytes => ⟨ipv6, bytes.toList⟩

/-- The address in a stored entry: an IPv4 address has four bytes of the union. -/
def addressOf (ip : IP) : Address :=
  ⟨ip.type, ip.addr.toList.take (if ip.type = ipv4 then 4 else 16)⟩

/-- The addresses of one kind that the records give for a name, in order. -/
def given (net : InetPton) (kind : Kind) (rs : List (Bytes × Bytes)) (name : Label) :
    List Address :=
  rs.filterMap fun r => if r.2 = name then (address net r.1).filter (·.kind = kind) else none

/-- The number of records of one kind. -/
def countOf (net : InetPton) (kind : Kind) (rs : List (Bytes × Bytes)) : ℕ :=
  rs.countP fun r => (address net r.1).map Address.kind = some kind

variable {net : InetPton} {addr : Vector UInt8 16} {ip : Bytes} {a : Address}

theorem parseAddress_of_none (h : address net ip = none) :
    parseAddress net addr ip = (addr, none) := by
  cases h₄ : net.v4 ip with
  | some bytes => simp [address, h₄] at h
  | none =>
      cases h₆ : net.v6 ip with
      | some bytes => simp [address, h₄, h₆] at h
      | none => simp [parseAddress, h₄, h₆]

/-- Both passes see the family of an address and whether it is zero. -/
theorem parseAddress_of_some (addr : Vector UInt8 16) (h : address net ip = some a) :
    ∃ addr', parseAddress net addr ip = (addr', some (a.family, a.isZero)) ∧
      addressOf ⟨addr', a.family⟩ = a := by
  cases h₄ : net.v4 ip with
  | some bytes =>
      have htake : (copyAddr addr bytes.toList).toList.take 4 = bytes.toList := by
        rw [take_copyAddr_of_le (by simp) (by simp), List.take_of_length_le (by simp)]
      simp only [address, h₄, Option.some.injEq] at h
      subst h
      refine ⟨copyAddr addr bytes.toList, ?_, ?_⟩
      · simp [parseAddress, h₄, htake, Address.isZero]
      · simp [addressOf, htake]
  | none =>
      cases h₆ : net.v6 ip with
      | none => simp [address, h₄, h₆] at h
      | some bytes =>
          have htake : (copyAddr addr bytes.toList).toList = bytes.toList := by
            rw [← List.take_of_length_le (show (copyAddr addr bytes.toList).toList.length ≤ 16
              by simp), take_copyAddr_of_le (by simp) (by simp),
              List.take_of_length_le (by simp)]
          simp only [address, h₄, h₆, Option.map_some, Option.some.injEq] at h
          subst h
          refine ⟨copyAddr addr bytes.toList, ?_, ?_⟩
          · simp [parseAddress, h₄, h₆, htake, Address.isZero]
          · simp [addressOf, htake, ipv6, ipv4]

variable {rs : List (Bytes × Bytes)} {name : Bytes}

theorem countOf_of_none (h : address net ip = none) (k : Kind) :
    countOf net k ((ip, name) :: rs) = countOf net k rs := by
  simp [countOf, h]

theorem countOf_of_some (h : address net ip = some a) (k : Kind) :
    countOf net k ((ip, name) :: rs) = countOf net k rs + if a.kind = k then 1 else 0 := by
  simp [countOf, h, List.countP_cons]

theorem given_of_none (h : address net ip = none) (k : Kind) (n : Label) :
    given net k ((ip, name) :: rs) n = given net k rs n := by
  simp [given, h]

theorem given_of_some (h : address net ip = some a) (k : Kind) (n : Label) :
    given net k ((ip, name) :: rs) n =
      (if name = n ∧ a.kind = k then [a] else []) ++ given net k rs n := by
  by_cases hn : name = n
  · by_cases hk : a.kind = k <;> simp [given, h, hn, hk, Option.filter]
  · simp [given, hn]

end Addresses

section Stores

variable {net : InetPton} {kind : Kind} {IP : IP} {cs : CacheSet} {ip name : Bytes} {a : Address}
  {rs : List (Bytes × Bytes)} {m : Kind → Label → List DnsRelay.IP}

/-- The store for the records of one kind. -/
def store (cs : CacheSet) : Kind → StaticCache
  | .black => cs.blacklist
  | .v4 => cs.A.localStore
  | .v6 => cs.AAAA.localStore

def setStore (cs : CacheSet) : Kind → StaticCache → CacheSet
  | .black, c => { cs with blacklist := c }
  | .v4, c => { cs with A.localStore := c }
  | .v6, c => { cs with AAAA.localStore := c }

theorem store_setStore (cs : CacheSet) (kind : Kind) (c : StaticCache) :
    store (setStore cs kind c) = update (store cs) kind c := by
  funext k
  cases kind <;> cases k <;> rfl

/-- The second pass hands a record to the store of its kind. -/
theorem storeRecord_of_some (IP : DnsRelay.IP) (cs : CacheSet) (name : Bytes)
    (h : address net ip = some a) :
    ∃ IP', addressOf IP' = a ∧ ∀ set, storeRecord set net (IP, cs) ip name =
      (set (store cs a.kind) name IP').map fun r => (IP', setStore cs a.kind r.1) := by
  obtain ⟨addr', hparse, haddr⟩ := parseAddress_of_some IP.addr h
  refine ⟨⟨addr', a.family⟩, haddr, fun set => ?_⟩
  simp only [storeRecord, hparse, Address.kind]
  cases a.isZero with
  | true =>
      simp only [if_true, store]
      cases set cs.blacklist name ⟨addr', a.family⟩ <;> rfl
  | false =>
      by_cases hf : a.family = ipv4
      · simp only [hf, if_true, if_false, Bool.false_eq_true, store]
        cases set cs.A.localStore name ⟨addr', ipv4⟩ <;> rfl
      · simp only [hf, if_false, Bool.false_eq_true, store]
        cases set cs.AAAA.localStore name ⟨addr', a.family⟩ <;> rfl

theorem storeRecord_of_none (set : StaticCache → Label → DnsRelay.IP → Exec (StaticCache × Bool))
    (h : address net ip = none) :
    storeRecord set net (IP, cs) ip name = .ok (IP, cs) := by
  simp [storeRecord, parseAddress_of_none h]

/-- The store is as it came or lists what `m` says, and has room for `k` more records. -/
structure Ready (c₀ c : StaticCache) (m : Label → List DnsRelay.IP) (k : ℕ) : Prop where
  isInit : c.isInit = c₀.isInit
  raw : c₀.isInit = false → c = c₀
  lists : c₀.isInit = true → ∃ index, Lists c index m ∧ c.data.length + k ≤ c.size

theorem Ready.store {c₀ c : StaticCache} {m : Label → List DnsRelay.IP} {k : ℕ}
    (h : Ready c₀ c m (k + 1)) (name : Label) (IP : DnsRelay.IP) :
    ∃ c' r, setStaticCache c name IP = .ok (c', r) ∧ setOrStop c name IP = .ok (c', r) ∧
      Ready c₀ c' (update m name (m name ++ [IP])) k := by
  cases hinit : c₀.isInit with
  | false =>
      have hc := h.isInit.trans hinit
      have hset : setStaticCache c name IP = .ok (c, false) := by
        simp [setStaticCache, hc, pure, Except.pure]
      refine ⟨c, false, hset, ?_, ⟨h.isInit, h.raw, by simp [hinit]⟩⟩
      rwa [setOrStop, if_neg (by simp [overflows, hc])]
  | true =>
      obtain ⟨index, hlists, hroom⟩ := h.lists hinit
      have hover : ¬ overflows c name := by
        rintro ⟨-, -, hfull⟩
        omega
      obtain ⟨c', r, index', hset, hlists', hsize, hlen⟩ := hlists.setStaticCache_ok hover IP
      refine ⟨c', r, hset, by rwa [setOrStop, if_neg hover], ⟨?_, by simp [hinit], ?_⟩⟩
      · rw [hlists'.isInit, hinit]
      · exact fun _ => ⟨index', hlists', by omega⟩

/-- The second pass on the records `rs`: a store that was initialised with enough room lists
in the end what it listed before and the addresses of its kind; the others are untouched. -/
theorem storeRecords (IP : DnsRelay.IP) (cs₀ : CacheSet)
    (h : ∀ k, Ready (store cs₀ k) (store cs k) (m k) (countOf net k rs)) :
    ∃ (IP' : DnsRelay.IP) (cs' : CacheSet) (m' : Kind → Label → List DnsRelay.IP),
      (∀ set, set = setStaticCache ∨ set = setOrStop →
        rs.foldlM (fun s r => storeRecord set net s r.1 r.2) (IP, cs) = .ok (IP', cs')) ∧
      ∀ k, Ready (store cs₀ k) (store cs' k) (m' k) 0 ∧
        ∀ n, (m' k n).map addressOf = (m k n).map addressOf ++ given net k rs n := by
  induction rs generalizing IP cs m with
  | nil => exact ⟨IP, cs, m, fun _ _ => rfl, fun k => ⟨h k, by simp [given]⟩⟩
  | cons r rs ih =>
      obtain ⟨ip, name⟩ := r
      cases ha : address net ip with
      | none =>
          obtain ⟨IP', cs', m', hrun, hk⟩ := ih IP fun k => (countOf_of_none ha k) ▸ h k
          refine ⟨IP', cs', m', fun set hset => ?_, fun k => ⟨(hk k).1, fun n => ?_⟩⟩
          · rw [List.foldlM_cons, storeRecord_of_none set ha]
            exact hrun set hset
          · rw [(hk k).2 n, given_of_none ha]
      | some a =>
          obtain ⟨IP₁, haddr, hstep⟩ := storeRecord_of_some IP cs name ha
          have hself := h a.kind
          rw [countOf_of_some ha, if_pos rfl] at hself
          obtain ⟨c', r, hset, hstop, hready⟩ := hself.store name IP₁
          have hnext : ∀ k, Ready (store cs₀ k) (store (setStore cs a.kind c') k)
              (update m a.kind (update (m a.kind) name (m a.kind name ++ [IP₁])) k)
              (countOf net k rs) := by
            intro k
            rw [store_setStore]
            by_cases hk : k = a.kind
            · subst hk
              simpa using hready
            · have := h k
              rw [countOf_of_some ha, if_neg (Ne.symm hk)] at this
              simpa [hk] using this
          obtain ⟨IP', cs', m', hrun, hk⟩ := ih IP₁ hnext
          refine ⟨IP', cs', m', fun set hor => ?_, fun k => ⟨(hk k).1, fun n => ?_⟩⟩
          · have hcall : set (store cs a.kind) name IP₁ = .ok (c', r) := by
              rcases hor with rfl | rfl
              · exact hset
              · exact hstop
            rw [List.foldlM_cons, hstep, hcall]
            exact hrun set hor
          · rw [(hk k).2 n, given_of_some ha]
            by_cases hkind : k = a.kind
            · subst hkind
              by_cases hn : n = name
              · subst hn
                simp [haddr]
              · simp [hn, Ne.symm hn]
            · simp [hkind, Ne.symm hkind]

end Stores

section Load

variable {net : InetPton} {IP : IP} {cs : CacheSet} {rs : List (Bytes × Bytes)} {file : Bytes}

/-- The stores of static records as `main` finds them before the file is read. -/
structure Zeroed (cs : CacheSet) : Prop where
  blacklist : cs.blacklist = zeroed
  A : cs.A.localStore = zeroed
  AAAA : cs.AAAA.localStore = zeroed

def Counts.add (counts : Counts) : Kind → Counts
  | .black => { counts with black := counts.black + 1 }
  | .v4 => { counts with v4 := counts.v4 + 1 }
  | .v6 => { counts with v6 := counts.v6 + 1 }

theorem countRecord_of_some {ip : Bytes} {a : Address} (h : address net ip = some a)
    (IP : DnsRelay.IP) (counts : Counts) (name : Bytes) :
    ∃ IP', countRecord net (IP, counts) ip name = .ok (IP', counts.add a.kind) := by
  obtain ⟨addr', hparse, -⟩ := parseAddress_of_some IP.addr h
  refine ⟨{ IP with addr := addr' }, ?_⟩
  simp only [countRecord, hparse, Address.kind]
  by_cases hz : a.isZero = true
  · simp [hz, Counts.add]
  · by_cases hf : a.family = ipv4 <;> simp [hz, hf, Counts.add]

/-- The first pass counts the records of each kind. -/
theorem countRecords (net : InetPton) (IP : DnsRelay.IP) (counts : Counts)
    (rs : List (Bytes × Bytes)) :
    ∃ IP', rs.foldlM (fun s r => countRecord net s r.1 r.2) (IP, counts) =
      .ok (IP', ⟨counts.v4 + countOf net .v4 rs, counts.v6 + countOf net .v6 rs,
        counts.black + countOf net .black rs⟩) := by
  induction rs generalizing IP counts with
  | nil => exact ⟨IP, rfl⟩
  | cons r rs ih =>
      obtain ⟨ip, name⟩ := r
      cases ha : address net ip with
      | none =>
          obtain ⟨IP', hrun⟩ := ih IP counts
          refine ⟨IP', ?_⟩
          simp only [countOf_of_none ha]
          simpa [countRecord, parseAddress_of_none ha, bind, Except.bind] using hrun
      | some a =>
          obtain ⟨IP₁, hstep⟩ := countRecord_of_some ha IP counts name
          obtain ⟨IP', hrun⟩ := ih IP₁ (counts.add a.kind)
          refine ⟨IP', ?_⟩
          simp only [List.foldlM_cons, hstep, bind, Except.bind]
          rw [hrun]
          simp only [countOf_of_some ha]
          cases a.kind <;> simp [Counts.add] <;> omega

/-- The stores between the passes. -/
def sizedStores (net : InetPton) (cs : CacheSet) (rs : List (Bytes × Bytes)) : CacheSet :=
  initStores cs ⟨countOf net .v4 rs, countOf net .v6 rs, countOf net .black rs⟩

theorem ready_of_not_init {c : StaticCache} (h : c.isInit = false) (k : ℕ) :
    Ready c c (fun _ => []) k :=
  ⟨rfl, fun _ => rfl, by simp [h]⟩

/-- A store fresh from its initialisation has room for as many records as were counted. -/
theorem ready_initIfPos {c : StaticCache} (h : c.isInit = false) {size k : ℕ} (hk : k ≤ size) :
    Ready (initIfPos c size) (initIfPos c size) (fun _ => []) k := by
  by_cases hs : 0 < size
  · rw [initIfPos, if_pos hs]
    have hlists := Lists.init h size (4 * size / 3)
    refine ⟨rfl, fun _ => rfl, fun _ => ⟨_, hlists, ?_⟩⟩
    simpa [initStaticCache, h] using hk
  · rw [initIfPos, if_neg hs]
    exact ready_of_not_init h k

theorem ready_sizedStores (net : InetPton) (rs : List (Bytes × Bytes)) (h : Zeroed cs)
    (kind : Kind) :
    Ready (store (sizedStores net cs rs) kind) (store (sizedStores net cs rs) kind) (fun _ => [])
      (countOf net kind rs) := by
  cases kind with
  | black =>
      simp only [sizedStores, initStores, store, h.blacklist]
      exact ready_initIfPos rfl le_rfl
  | v6 =>
      simp only [sizedStores, initStores, store, h.AAAA]
      exact ready_of_not_init rfl _
  | v4 =>
      simp only [sizedStores, initStores, store, h.A]
      by_cases hv4 : 0 < countOf net .v4 rs
      · -- the second initialisation finds the store initialised
        have hsame : initIfPos (initIfPos zeroed (countOf net .v4 rs)) (countOf net .v6 rs) =
            initIfPos zeroed (countOf net .v4 rs) := by
          simp [initIfPos, hv4, initStaticCache, zeroed]
        rw [hsame]
        exact ready_initIfPos rfl le_rfl
      · have hnone : initIfPos zeroed (countOf net .v4 rs) = zeroed := by
          simp [initIfPos, hv4]
        rw [hnone]
        exact ready_initIfPos rfl (by omega)

/-- Both passes return, and so does the second one with a stop in place of an overflow. -/
theorem loadWith_ok (net : InetPton) (IP : DnsRelay.IP) (h : Zeroed cs)
    (hfile : scanned file = .ok rs) :
    ∃ (cs' : CacheSet) (m : Kind → Label → List DnsRelay.IP),
      (∀ set, set = setStaticCache ∨ set = setOrStop →
        loadWith set net IP cs file = .ok cs') ∧
      ∀ kind, Ready (store (sizedStores net cs rs) kind) (store cs' kind) (m kind) 0 ∧
        ∀ n, (m kind n).map addressOf = given net kind rs n := by
  obtain ⟨IP₁, hcount⟩ := countRecords net IP ⟨0, 0, 0⟩ rs
  obtain ⟨IP₂, cs', m, hrun, hkind⟩ := storeRecords IP₁ (sizedStores net cs rs)
    (ready_sizedStores net rs h)
  refine ⟨cs', m, fun set hset => ?_, fun kind => ⟨(hkind kind).1, fun n => ?_⟩⟩
  · have hstores := hrun set hset
    simp only [Nat.zero_add] at hcount
    rw [sizedStores] at hstores
    simp only [loadWith, countPass, scanLoop_scanned hfile, hcount, hstores, bind, Except.bind]
    rfl
  · simpa using (hkind kind).2 n

/-- The store lists exactly these addresses for a name, and NULL stands for none. -/
def Exact (c : StaticCache) (n : Label) (l : List Address) : Prop :=
  ∃ ips, listed c n = .ok ips ∧ ips.map addressOf = l ∧ (getStaticCache c n = .ok none ↔ l = [])

theorem exact_nil_of_not_init {c : StaticCache} (h : c.isInit = false) (n : Label) :
    Exact c n [] := by
  have hget := getStaticCache_of_not_init h n
  exact ⟨[], by simp [listed, hget, bind, Except.bind, pure, Except.pure], rfl, by simp [hget]⟩

theorem Ready.exact {c₀ c : StaticCache} {m : Label → List DnsRelay.IP} {k : ℕ}
    (h : Ready c₀ c m k) (hinit : c₀.isInit = true) (n : Label) :
    Exact c n ((m n).map addressOf) := by
  obtain ⟨index, hlists, -⟩ := h.lists hinit
  refine ⟨m n, hlists.listed_eq n, rfl, ?_⟩
  rw [hlists.getStaticCache_eq, Except.ok.injEq, hlists.index_eq_none, List.map_eq_nil_iff]

theorem isInit_initIfPos (c : StaticCache) (size : ℕ) :
    (initIfPos c size).isInit = (c.isInit || decide (0 < size)) := by
  by_cases hs : 0 < size
  · cases hc : c.isInit <;> simp [initIfPos, initStaticCache, hs, hc]
  · simp [initIfPos, hs]

theorem countOf_eq_zero {kind : Kind} : countOf net kind rs = 0 ↔
    ∀ r ∈ rs, ∀ a, address net r.1 = some a → a.kind ≠ kind := by
  simp [countOf, List.countP_eq_zero]

theorem mem_given {kind : Kind} {n : Label} {a : Address} : a ∈ given net kind rs n ↔
    ∃ ip, (ip, n) ∈ rs ∧ address net ip = some a ∧ a.kind = kind := by
  simp only [given, List.mem_filterMap, Option.ite_none_right_eq_some, Option.filter_eq_some_iff,
    decide_eq_true_eq]
  constructor
  · rintro ⟨⟨ip, name⟩, hr, rfl, ha, hk⟩
    exact ⟨ip, hr, ha, hk⟩
  · rintro ⟨ip, hr, ha, hk⟩
    exact ⟨(ip, n), hr, rfl, ha, hk⟩

theorem given_eq_nil {kind : Kind} (h : countOf net kind rs = 0) (n : Label) :
    given net kind rs n = [] := by
  rw [List.eq_nil_iff_forall_not_mem]
  intro a ha
  obtain ⟨ip, hr, ha, hk⟩ := mem_given.mp ha
  exact countOf_eq_zero.mp h _ hr a ha hk

theorem kind_eq_black {a : Address} : a.kind = .black ↔ a.isZero = true := by
  unfold Address.kind
  split
  next h => simp [h]
  next h =>
    split
    · simp [h]
    · simp [h]

/-- A store with as much room as there are records lists these records. -/
theorem Ready.exact_given {c₀ c : StaticCache} {m : Label → List DnsRelay.IP} {kind : Kind}
    (h : Ready c₀ c m 0) (hinit : c₀.isInit = false → countOf net kind rs = 0) (n : Label)
    (hm : (m n).map addressOf = given net kind rs n) : Exact c n (given net kind rs n) := by
  cases hc : c₀.isInit with
  | true =>
      rw [← hm]
      exact h.exact hc n
  | false =>
      rw [given_eq_nil (hinit hc)]
      exact exact_nil_of_not_init (h.isInit.trans hc) n

/-- Loading returns, with the same stores if an overflow were a stop. The store of IPv4
records and the blacklist hold the records of their kinds. -/
theorem loadLocalRecord_ok (net : InetPton) (IP : DnsRelay.IP) (h : Zeroed cs)
    (hfile : scanned file = .ok rs) :
    ∃ cs', loadLocalRecord net IP cs (some file) = .ok (cs', true) ∧
      loadWith setOrStop net IP cs file = .ok cs' ∧ cs'.AAAA.localStore.isInit = false ∧
      ∀ n, Exact cs'.A.localStore n (given net .v4 rs n) ∧
        Exact cs'.blacklist n (given net .black rs n) := by
  obtain ⟨cs', m, hload, hkind⟩ := loadWith_ok net IP h hfile
  refine ⟨cs', ?_, hload _ (.inr rfl), ?_, fun n => ⟨?_, ?_⟩⟩
  · simp [loadLocalRecord, hload _ (.inl rfl), bind, Except.bind, pure, Except.pure]
  · refine (hkind .v6).1.isInit.trans ?_
    simp [sizedStores, initStores, store, h.AAAA, zeroed]
  · refine (hkind .v4).1.exact_given ?_ n ((hkind .v4).2 n)
    intro hinit
    simp only [sizedStores, initStores, store, isInit_initIfPos, h.A, Bool.or_eq_false_iff,
      decide_eq_false_iff_not] at hinit
    omega
  · refine (hkind .black).1.exact_given ?_ n ((hkind .black).2 n)
    intro hinit
    simp only [sizedStores, initStores, store, isInit_initIfPos, h.blacklist, Bool.or_eq_false_iff,
      decide_eq_false_iff_not] at hinit
    omega

/-- The caches of the two types are those of another set of stores. -/
def SameTemps (cs cs' : CacheSet) : Prop := cs'.A.temp = cs.A.temp ∧ cs'.AAAA.temp = cs.AAAA.temp

/-- Storing a record leaves the caches alone. -/
theorem storeRecord_temps {set : StaticCache → Label → DnsRelay.IP → Exec (StaticCache × Bool)}
    {ip name : Bytes} {s s' : DnsRelay.IP × CacheSet} (hs : SameTemps cs s.2)
    (h : storeRecord set net s ip name = .ok s') : SameTemps cs s'.2 := by
  obtain ⟨IP, cs₁⟩ := s
  cases ha : address net ip with
  | none =>
      rw [storeRecord_of_none set ha] at h
      cases h
      exact hs
  | some a =>
      obtain ⟨IP', -, hstore⟩ := storeRecord_of_some IP cs₁ name ha
      rw [hstore] at h
      obtain ⟨r, -, rfl⟩ := map_eq_ok.mp h
      cases a.kind <;> exact hs

/-- Loading leaves the caches alone. -/
theorem loadLocalRecord_temps {contents : Option Bytes} {r : CacheSet × Bool}
    (h : loadLocalRecord net IP cs contents = .ok r) : SameTemps cs r.1 := by
  cases contents with
  | none =>
      cases h
      exact ⟨rfl, rfl⟩
  | some file =>
      obtain ⟨cs', hload, h⟩ := bind_eq_ok.mp h
      cases h
      obtain ⟨⟨IP', counts⟩, -, h⟩ := bind_eq_ok.mp hload
      obtain ⟨⟨IP'', cs''⟩, hloop, h⟩ := bind_eq_ok.mp h
      cases h
      exact scanLoop_keeps (P := fun s : DnsRelay.IP × CacheSet => SameTemps cs s.2)
        (fun _ _ _ _ hs hr => storeRecord_temps hs hr) ⟨rfl, rfl⟩ hloop

/-- A store of the blacklist has a record for exactly the names with an address of zeros. -/
theorem Exact.black_iff {c : StaticCache} {n : Label} (h : Exact c n (given net .black rs n)) :
    ∃ record, getStaticCache c n = .ok record ∧
      (record ≠ none ↔ ∃ ip a, (ip, n) ∈ rs ∧ address net ip = some a ∧ a.isZero = true) := by
  obtain ⟨ips, hlisted, -, hnull⟩ := h
  obtain ⟨record, hget, -⟩ := bind_eq_ok.mp hlisted
  refine ⟨record, hget, ?_⟩
  rw [hget, Except.ok.injEq] at hnull
  rw [ne_eq, hnull, List.eq_nil_iff_forall_not_mem]
  simp only [mem_given, kind_eq_black, not_forall, not_not]
  exact exists_comm

/-- After loading, the store of IPv4 records lists for each name its non-zero IPv4
addresses in file order, a name is on the blacklist exactly when a line gives it an address
of zeros, and no store has overflown. -/
theorem loadLocalRecord_exact (net : InetPton) (IP : DnsRelay.IP) (cs : CacheSet) (h : Zeroed cs)
    (file : Bytes) (hfile : TwoTokens file) :
    ∃ cs', loadLocalRecord net IP cs (some file) = .ok (cs', true) ∧
      loadWith setOrStop net IP cs file = .ok cs' ∧
      ∀ n, Exact cs'.A.localStore n (given net .v4 (records file) n) ∧
        ∃ record, getStaticCache cs'.blacklist n = .ok record ∧
          (record ≠ none ↔
            ∃ ip a, (ip, n) ∈ records file ∧ address net ip = some a ∧ a.isZero = true) := by
  obtain ⟨cs', hload, hstop, -, hstores⟩ := loadLocalRecord_ok net IP h (scanned_records hfile)
  exact ⟨cs', hload, hstop, fun n => ⟨(hstores n).1, (hstores n).2.black_iff⟩⟩

/-- `inet_pton` on the addresses of the samples below and on the default upstream server. -/
def sampleNet : InetPton where
  v4 := fun ip =>
    if ip = [49, 46, 50, 46, 51, 46, 52] then some #v[1, 2, 3, 4]
    else if ip = [48, 46, 48, 46, 48, 46, 48] then some #v[0, 0, 0, 0]
    else if ip = [49, 48, 46, 51, 46, 57, 46, 52] then some #v[10, 3, 9, 4]
    else none
  v6 := fun ip =>
    if ip = [58, 58, 49] then some #v[0, 0, 0, 0, 0, 0, 0, 0, 0, 0, 0, 0, 0, 0, 0, 1] else none

/-- The lines `1.2.3.4 a`, `0.0.0.0 b` and, without a newline, `::1 a`. -/
def sampleFile : Bytes :=
  [49, 46, 50, 46, 51, 46, 52, 32, 97, 10, 48, 46, 48, 46, 48, 46, 48, 32, 98, 10,
    58, 58, 49, 32, 97]

/-- The name `a` has one IPv4 address, and `b` is on the blacklist. -/
theorem loadLocalRecord_exact_sample :
    given sampleNet .v4 (records sampleFile) [97] = [⟨4, [1, 2, 3, 4]⟩] ∧
    ∃ cs', loadLocalRecord sampleNet ⟨Vector.replicate 16 7, 0⟩ (booted 0).cacheset
        (some sampleFile) = .ok (cs', true) ∧
      Exact cs'.A.localStore [97] (given sampleNet .v4 (records sampleFile) [97]) ∧
      getStaticCache cs'.blacklist [98] ≠ .ok none := by
  obtain ⟨cs', hload, -, hstores⟩ := loadLocalRecord_exact sampleNet ⟨Vector.replicate 16 7, 0⟩
    (booted 0).cacheset ⟨rfl, rfl, rfl⟩ sampleFile (by decide)
  refine ⟨by decide, cs', hload, (hstores [97]).1, ?_⟩
  obtain ⟨record, hget, hblack⟩ := (hstores [98]).2
  have hrecord := hblack.mpr ⟨[48, 46, 48, 46, 48, 46, 48], ⟨4, [0, 0, 0, 0]⟩, by decide, by decide,
    by decide⟩
  rw [hget]
  simpa using hrecord

/-- The store of IPv6 records is loaded only when there is nothing to load. -/
theorem loadLocalRecord_AAAA_iff (net : InetPton) (IP : DnsRelay.IP) (cs : CacheSet)
    (h : Zeroed cs) (file : Bytes) (hfile : TwoTokens file) :
    ∃ cs', loadLocalRecord net IP cs (some file) = .ok (cs', true) ∧
      ((∀ n, Exact cs'.AAAA.localStore n (given net .v6 (records file) n)) ↔
        ∀ ip n a, (ip, n) ∈ records file → address net ip = some a → a.kind ≠ .v6) := by
  obtain ⟨cs', hload, -, hraw, -⟩ := loadLocalRecord_ok net IP h (scanned_records hfile)
  refine ⟨cs', hload, ?_⟩
  constructor
  · intro hexact ip n a hr ha hk
    obtain ⟨-, -, -, hnull⟩ := hexact n
    have hnil := hnull.mp (getStaticCache_of_not_init hraw n)
    exact List.eq_nil_iff_forall_not_mem.mp hnil a (mem_given.mpr ⟨ip, hr, ha, hk⟩)
  · intro hnone n
    have hnil : given net .v6 (records file) n = [] := by
      rw [List.eq_nil_iff_forall_not_mem]
      intro a ha
      obtain ⟨ip, hr, ha, hk⟩ := mem_given.mp ha
      exact hnone ip n a hr ha hk
    rw [hnil]
    exact exact_nil_of_not_init hraw n

/-- Without IPv6 lines there is nothing to list. -/
theorem loadLocalRecord_AAAA_iff_sample :
    ∃ cs', loadLocalRecord sampleNet ⟨Vector.replicate 16 7, 0⟩ (booted 0).cacheset
        (some (sampleFile.take 19)) = .ok (cs', true) ∧
      ∀ n, Exact cs'.AAAA.localStore n (given sampleNet .v6 (records (sampleFile.take 19)) n) := by
  obtain ⟨cs', hload, hiff⟩ := loadLocalRecord_AAAA_iff sampleNet ⟨Vector.replicate 16 7, 0⟩
    (booted 0).cacheset ⟨rfl, rfl, rfl⟩ (sampleFile.take 19) (by decide)
  refine ⟨cs', hload, hiff.mpr ?_⟩
  intro ip n a hr ha hk
  have hcount : countOf sampleNet .v6 (records (sampleFile.take 19)) = 0 := by decide
  exact countOf_eq_zero.mp hcount _ hr a ha hk

/-- The address `::1` of `a` is lost. -/
theorem loadLocalRecord_loses_AAAA :
    ∃ cs', loadLocalRecord sampleNet ⟨Vector.replicate 16 7, 0⟩ (booted 0).cacheset
        (some sampleFile) = .ok (cs', true) ∧
      given sampleNet .v6 (records sampleFile) [97] =
        [⟨6, [0, 0, 0, 0, 0, 0, 0, 0, 0, 0, 0, 0, 0, 0, 0, 1]⟩] ∧
      ¬ Exact cs'.AAAA.localStore [97] (given sampleNet .v6 (records sampleFile) [97]) := by
  have hrun : (loadLocalRecord sampleNet ⟨Vector.replicate 16 7, 0⟩ (booted 0).cacheset
      (some sampleFile)).map (fun r => (getStaticCache r.1.AAAA.localStore [97], r.2)) =
      .ok (.ok none, true) := by
    decide +kernel
  obtain ⟨⟨cs', done⟩, hload, hresult⟩ := map_eq_ok.mp hrun
  obtain ⟨hget, rfl⟩ := Prod.mk.inj hresult
  refine ⟨cs', hload, by decide, ?_⟩
  rintro ⟨-, -, -, hnull⟩
  have hnil := hnull.mp hget
  revert hnil
  decide

end Load

end DnsRelay.LocalRecord
