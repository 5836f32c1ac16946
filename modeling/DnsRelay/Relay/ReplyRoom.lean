import DnsRelay.Lru.Freshness
import DnsRelay.Message.ReplySize
import DnsRelay.Relay.LocalNames

/-!
# Replies from the stores

A request that a store answers fills one entry of `ans` for each address that the store has for
the name, and each of them becomes a record of the reply. The caches never hold more than ten
addresses of a name, since the handler of replies has no room for more. The number of addresses
in a local record, and the size of the reply, have no such limit.
-/

namespace DnsRelay.Relay

open DnsRelay.Message DnsRelay.Static DnsRelay.LocalRecord DnsRelay.Lib DnsRelay.Lib.Machine

section Cached

variable {w w' : World} {t : AddressType} {e : Event}

/-- No record of a cache leads to more addresses than `tmp_ans_data` has room for. -/
def SmallChains (c : Lru.Cache) : Prop := Lru.Chains c fun chain => chain.length ≤ tmpAnsData

/-- The call of a round that returns has at most ten elements. -/
theorem cacheCall_length {op : Lru.CacheOp} (h : (step w e).result = .ok w')
    (hop : cacheCall t w e = some op) : op.elements.length ≤ tmpAnsData := by
  cases e with
  | sweep clock => cases hop
  | relay sender data now time =>
      obtain ⟨⟨k, info⟩, hreply, hop⟩ := Option.bind_eq_some_iff.mp hop
      obtain ⟨w₁, hcache⟩ := handleRelay_cached hreply h
      rcases cacheAnswers_cases hcache with
        ⟨-, hnone⟩ | ⟨t', label, answers, temp, ret, htype, hcacheable, hcount, -, -⟩
      · rw [hnone t] at hop
        cases hop
      · unfold storeCall at hop
        split at hop
        · rw [hcacheable] at hop
          cases hop
          simpa [Lru.CacheOp.elements, cacheData] using hcount
        · cases hop
  | request client data clock now time =>
      rw [lookUpCall_elements hop]
      exact Nat.zero_le _

/-- The caches in every state that the loop reaches. -/
theorem mainLoop_smallChains {v : World} (hv : v.Initial) {events : List Event}
    (h : (mainLoop v events).result = .ok w) :
    w.Sized ∧ ∀ t, (∃ l, Lru.Inv (w.cacheset.temp t) l) ∧ SmallChains (w.cacheset.temp t) := by
  apply mainLoop_caches hv _ _ h
  · intro recordLength maxSize scaled s
    exact Nat.zero_le _
  · intro w₁ w₂ e t op c r l hstep hop hinv hsmall hexec
    refine Lru.exec_chains hinv (Nat.zero_le _) hsmall (fun _ => ?_) hexec
    exact op.stored_length_le.trans (cacheCall_length hstep hop)

/-- The number of addresses that a cache holds for a name. -/
def cachedCount (c : Lru.Cache) (label : Label) : ℕ :=
  match Lru.get c label with
  | .ok (some slot) => (c.records.data slot).toList.length
  | _ => 0

/-- The addresses that these records of a file give for a name. Those for IPv6 are not stored. -/
def fileAddresses (net : InetPton) (rs : List (Bytes × Bytes)) (t : AddressType)
    (label : Label) : List Address :=
  match t with
  | .A => given net .v4 rs label
  | .AAAA => []

/-- The number of addresses that are held for a name: those from the file come first. -/
def heldCount (net : InetPton) (rs : List (Bytes × Bytes)) (cs : CacheSet) (t : AddressType)
    (label : Label) : ℕ :=
  if fileAddresses net rs t label = [] then cachedCount (cs.temp t) label
  else (fileAddresses net rs t label).length

variable {net : InetPton} {rs : List (Bytes × Bytes)} {cs : CacheSet}

/-- The store of a type lists what the file gives. -/
theorem FromFile.exact (h : FromFile net rs cs) (t : AddressType) (label : Label) :
    Exact (cs.compound t).localStore label (fileAddresses net rs t label) := by
  cases t with
  | A => exact h.local4 label
  | AAAA =>
      have hget : getStaticCache cs.AAAA.localStore label = .ok none := h.local6 label
      refine ⟨[], ?_, rfl, iff_of_true hget rfl⟩
      simp only [listed, CacheSet.compound, hget, bind, Except.bind]
      rfl

/-- A lookup that finds something finds all addresses that the file gives, or else those in the
cache, which are at most ten. -/
theorem lookUpIn_held (hfile : FromFile net rs cs) (hinv : ∃ l, Lru.Inv (cs.temp t) l)
    (hsmall : SmallChains (cs.temp t)) {c : CacheCompound} {label : Label} {now time : ℤ}
    {found : List (IP × ℕ)} (h : lookUpIn (cs.compound t) label now time = .ok (c, found))
    (hne : found ≠ []) :
    found.length = heldCount net rs cs t label ∧
      (fileAddresses net rs t label = [] → found.length ≤ tmpAnsData) := by
  obtain ⟨ips, hlisted, hips, hnull⟩ := hfile.exact t label
  obtain ⟨record, hrecord, h⟩ := bind_eq_ok.mp h
  cases record with
  | some record =>
      obtain ⟨ips', haddresses, h⟩ := bind_eq_ok.mp h
      cases h
      have hgiven : fileAddresses net rs t label ≠ [] := by
        intro hnil
        cases hrecord.symm.trans (hnull.mpr hnil)
      simp only [listed, hrecord, bind, Except.bind] at hlisted
      cases haddresses.symm.trans hlisted
      refine ⟨?_, fun hnil => absurd hnil hgiven⟩
      rw [heldCount, if_neg hgiven, ← hips, List.length_map, List.length_map]
  | none =>
      rw [heldCount, if_pos (hnull.mp hrecord)]
      obtain ⟨⟨temp, data⟩, hget, h⟩ := bind_eq_ok.mp h
      cases h
      obtain ⟨l, hl⟩ := hinv
      rcases Lru.getCacheARecord_cases hl hget with ⟨-, -, rfl⟩ | ⟨s, d, ds, -, -, -, -, -, rfl⟩ |
        ⟨s, d, ds, n, p, e, hslot, -, hd, -, -, -, rfl⟩
      · exact absurd rfl hne
      · exact absurd rfl hne
      · have hchain := hsmall s
        rw [hd] at hchain
        have hslot' : Lru.get (cs.temp t) label = .ok (some s) := hslot
        have hd' : (cs.temp t).records.data s = .live d ds := hd
        simp only [cachedCount, hslot', hd']
        exact ⟨by simp [Lru.DataPtr.toList], fun _ => by simpa [Lru.DataPtr.toList] using hchain⟩

/-- A lookup that finds something is one in the stores of an address type. -/
theorem lookUp_cases {label : Label} {now time : ℤ} {found : List (IP × ℕ)}
    (h : lookUp w label now time = .ok (w', found)) :
    found = [] ∨ ∃ t c, w.question.qtype = t.code ∧
      lookUpIn (w.cacheset.compound t) label now time = .ok (c, found) := by
  unfold lookUp at h
  split at h
  next hA =>
    obtain ⟨⟨c, l⟩, hl, h⟩ := bind_eq_ok.mp h
    cases h
    exact .inr ⟨.A, c, hA, hl⟩
  next hA =>
    split at h
    next hAAAA =>
      obtain ⟨⟨c, l⟩, hl, h⟩ := bind_eq_ok.mp h
      cases h
      exact .inr ⟨.AAAA, c, hAAAA, hl⟩
    next =>
      cases h
      exact .inl rfl

end Cached

section Reply

/-- The question of a request, its name, and the addresses that the stores have for it. A name
on the blacklist is not looked up. -/
def storeEntries (w : World) (now time : ℤ) : Exec (Question × Label × List (IP × ℕ)) := do
  let (question, _) ← readDnsQuestions w.question w.recvBuffer
  let label ← cString question.label
  match ← getStaticCache w.cacheset.blacklist label with
  | some _ => return (question, label, [])
  | none =>
      let (_, found) ← lookUp { w with question := question } label now time
      return (question, label, found)

/-- A reply from a store fills at most twenty entries of `ans`, and
`write_dns_response_by_query` writes it inside `recv_buffer` and returns at most its size. -/
def StoreReplyFits (w : World) (question : Question) (label : Label) (found : List (IP × ℕ)) :
    Prop :=
  found.length ≤ 20 ∧
    ∃ ans buffer size, fillAnswers question label found 0 w.ans = .ok ans ∧
      writeDnsResponseByQuery w.recvBuffer (ans.take found.length) = .ok (buffer, size) ∧
      size ≤ (1024 : ℕ)

/-- The file gives the name at most twenty addresses, and the question ends in `recv_buffer`, as
do the records for all addresses behind it. -/
def StoreReplySmall (net : InetPton) (rs : List (Bytes × Bytes)) (w : World) (t : AddressType)
    (label : Label) : Prop :=
  (fileAddresses net rs t label).length ≤ 20 ∧
    ∃ buffer pos, answerStart w.recvBuffer (heldCount net rs w.cacheset t label) =
        .ok (buffer, pos) ∧
      pos + heldCount net rs w.cacheset t label * (label.length + 12 + t.width) ≤ (1024 : ℕ)

variable {w : World} {now time : ℤ} {question : Question} {label : Label} {found : List (IP × ℕ)}
  {net : InetPton} {rs : List (Bytes × Bytes)} {t : AddressType}

/-- What is known of a request that is answered from a store. -/
structure Served (net : InetPton) (rs : List (Bytes × Bytes)) (w : World) (question : Question)
    (label : Label) (found : List (IP × ℕ)) (t : AddressType) : Prop where
  type : question.qtype = t.code
  label_lt : label.length < maxNameLength
  no_nul : 0 ∉ label
  held : found.length = heldCount net rs w.cacheset t label
  cached : fileAddresses net rs t label = [] → found.length ≤ tmpAnsData

theorem storeEntries_served (hs : w.Sized) (hfile : FromFile net rs w.cacheset) (hcaches : ∀ t,
      (∃ l, Lru.Inv (w.cacheset.temp t) l) ∧ SmallChains (w.cacheset.temp t))
    (h : storeEntries w now time = .ok (question, label, found)) (hne : found ≠ []) :
    ∃ t, Served net rs w question label found t := by
  obtain ⟨⟨question', n⟩, hread, h⟩ := bind_eq_ok.mp h
  obtain ⟨label', hlabel, h⟩ := bind_eq_ok.mp h
  obtain ⟨black, -, h⟩ := bind_eq_ok.mp h
  cases black with
  | some record =>
      cases h
      exact absurd rfl hne
  | none =>
      obtain ⟨⟨w₁, found'⟩, hlook, h⟩ := bind_eq_ok.mp h
      cases h
      have hlen := (readDnsQuestions_length hread).trans hs.label
      obtain ⟨hnul, rest, hrest⟩ := cString_eq_ok.mp hlabel
      rcases lookUp_cases hlook with hnil | ⟨t, c, ht, hin⟩
      · exact absurd hnil hne
      · obtain ⟨hinv, hsmall⟩ := hcaches t
        obtain ⟨hheld, hten⟩ := lookUpIn_held hfile hinv hsmall hin hne
        refine ⟨t, ht, ?_, hnul, hheld, hten⟩
        rw [hrest, List.length_append, List.length_cons] at hlen
        omega

/-- The entries that are filled for at most twenty addresses. -/
theorem Served.fill (h : Served net rs w question label found t) (hs : w.Sized)
    (hle : found.length ≤ 20) :
    ∃ ans, fillAnswers question label found 0 w.ans = .ok ans ∧
      (ans.take found.length).length = found.length ∧
      ∀ a ∈ ans.take found.length, SameOwner label t.code a := by
  have hroom : 0 + found.length ≤ w.ans.length := by
    rw [hs.ans.length]
    omega
  obtain ⟨ans, hfill, -, hfilled⟩ := fillAnswers_filled question h.no_nul h.label_lt hs.ans hroom
  rw [List.drop_zero] at hfilled
  refine ⟨ans, hfill, hfilled.length_eq.symm, fun a ha => ?_⟩
  obtain ⟨p, hp⟩ := filled_of_mem hfilled ha
  exact ⟨hp.name, hp.type.trans h.type⟩

/-- The number of addresses found is in order exactly when that in the file is. -/
theorem Served.count_iff (h : Served net rs w question label found t) :
    found.length ≤ 20 ↔ (fileAddresses net rs t label).length ≤ 20 := by
  by_cases hnil : fileAddresses net rs t label = []
  · exact iff_of_true ((h.cached hnil).trans (by decide)) (by simp [hnil])
  · rw [h.held, heldCount, if_neg hnil]

theorem Served.fits_iff (h : Served net rs w question label found t) (hs : w.Sized) :
    StoreReplyFits w question label found ↔ StoreReplySmall net rs w t label := by
  have hlabel : label.length < maxDnsSize := h.label_lt.trans (by decide)
  have htype : t.code = rrtypeA ∨ t.code = rrtypeAAAA := by cases t <;> decide
  have hwidth : addrSize t.code = t.width := by cases t <;> rfl
  refine and_congr_right_iff.mpr ?_ |>.trans (and_congr_left' h.count_iff)
  intro hcount
  obtain ⟨ans, hfill, hlen, hsame⟩ := h.fill hs hcount
  have hwrite := writeDnsResponseByQuery_iff hlabel htype hsame w.recvBuffer
  rw [hlen, h.held, hwidth, hs.recvBuffer] at hwrite
  rw [← hwrite]
  constructor
  · rintro ⟨ans', buffer, size, hfill', hw, hle⟩
    cases hfill.symm.trans hfill'
    exact ⟨buffer, size, h.held ▸ hw, hle⟩
  · rintro ⟨buffer, size, hw, hle⟩
    exact ⟨ans, buffer, size, hfill, h.held ▸ hw, hle⟩

theorem fillAnswers_room {ans ans' : List Answer} {count : ℕ} (hne : found ≠ [])
    (h : fillAnswers question label found count ans = .ok ans') :
    count + found.length ≤ ans.length := by
  induction found generalizing count ans with
  | nil => exact absurd rfl hne
  | cons p found ih =>
      rw [fillAnswers] at h
      split at h
      next => cases h
      next a ha =>
        obtain ⟨name, -, h⟩ := bind_eq_ok.mp h
        obtain ⟨hlt, -⟩ := List.getElem?_eq_some_iff.mp ha
        rw [List.length_cons]
        by_cases hnil : found = []
        · subst hnil
          exact hlt
        · have hrest := ih hnil h
          rw [List.length_set] at hrest
          omega

/-- A request that has been answered has stayed inside the arrays. -/
theorem answerQuestion_answered {w' : World} {reply : Bytes} (hs : w.Sized)
    (h : answerQuestion w now time = .ok (w', .answered reply)) :
    ∃ question label found, storeEntries w now time = .ok (question, label, found) ∧
      found ≠ [] ∧ StoreReplyFits w question label found := by
  obtain ⟨⟨question, n⟩, hread, h⟩ := bind_eq_ok.mp h
  obtain ⟨label, hlabel, h⟩ := bind_eq_ok.mp h
  obtain ⟨black, hblack, h⟩ := bind_eq_ok.mp h
  cases black with
  | some record =>
      obtain ⟨buffer₁, -, h⟩ := bind_eq_ok.mp h
      obtain ⟨buffer₂, -, h⟩ := bind_eq_ok.mp h
      cases h
  | none =>
      obtain ⟨⟨w₁, found⟩, hlook, h⟩ := bind_eq_ok.mp h
      have hentries : storeEntries w now time = .ok (question, label, found) := by
        have hblack' : getStaticCache w.cacheset.blacklist label = .ok none := hblack
        simp only [storeEntries, hread, hlabel, hblack', hlook, bind, Except.bind]
        rfl
      obtain ⟨cacheset, rfl⟩ := lookUp_frame hlook
      dsimp only at h
      split at h
      next => cases h
      next hne =>
        obtain ⟨ans, hfill, h⟩ := bind_eq_ok.mp h
        obtain ⟨⟨buffer, size⟩, hwrite, h⟩ := bind_eq_ok.mp h
        obtain ⟨bytes, hbytes, h⟩ := bind_eq_ok.mp h
        cases h
        have hcount := fillAnswers_room hne hfill
        have hroom := readBytes_le (i := 0) (Nat.zero_le _) hbytes
        rw [writeDnsResponseByQuery_length hwrite, hs.recvBuffer] at hroom
        rw [hs.ans.length] at hcount
        exact ⟨question, label, found, hentries, hne, by omega, ans, buffer, size, hfill, hwrite,
          by omega⟩

end Reply

section Runs

/-- The loop starts with the records of a file as it starts without. -/
theorem loaded_initial {net : InetPton} {IP : IP} {addr : UInt32} {file : Option Bytes}
    {cs : CacheSet} {done : Bool}
    (h : loadLocalRecord net IP (booted addr).cacheset file = .ok (cs, done)) :
    ({ booted addr with cacheset := cs } : World).Initial := by
  have hb := booted_initial addr
  obtain ⟨hA, hAAAA⟩ := loadLocalRecord_temps h
  refine ⟨⟨hb.sized.recvBuffer, hb.sized.message, hb.sized.label, hb.sized.ans⟩, hb.free, ?_⟩
  intro t
  obtain ⟨recordLength, maxSize, scaled, hinit⟩ := hb.caches t
  refine ⟨recordLength, maxSize, scaled, ?_⟩
  rw [← hinit]
  cases t with
  | A => exact hA
  | AAAA => exact hAAAA

theorem storeReplyFits_iff_small {net : InetPton} {rs : List (Bytes × Bytes)} {v w : World}
    (hv : v.Initial) (hfile : FromFile net rs v.cacheset) {events : List Event}
    (hrun : (mainLoop v events).result = .ok w) {data : Bytes} {now time : ℤ}
    {question : Question} {label : Label} {found : List (IP × ℕ)}
    (hentries : storeEntries (asked w data) now time = .ok (question, label, found))
    (hne : found ≠ []) :
    ∃ t : AddressType, question.qtype = t.code ∧
      (StoreReplyFits (asked w data) question label found ↔
        StoreReplySmall net rs (asked w data) t label) := by
  obtain ⟨hs, hcaches⟩ := mainLoop_smallChains hv hrun
  have hs' := asked_sized hs data
  have hfile' : FromFile net rs (asked w data).cacheset := by
    rw [asked_cacheset]
    exact hfile.stores (mainLoop_stores hv.sized hrun).2
  have hcaches' : ∀ t, (∃ l, Lru.Inv ((asked w data).cacheset.temp t) l) ∧
      SmallChains ((asked w data).cacheset.temp t) := by
    simpa only [CacheSet.temp, asked_cacheset] using hcaches
  obtain ⟨t, hserved⟩ := storeEntries_served hs' hfile' hcaches' hentries hne
  exact ⟨t, hserved.type, hserved.fits_iff hs'⟩

/-- After any file of local records and any events, a reply from a store fits the arrays exactly
when the file gives the name at most twenty addresses, and question and records end inside the
buffer. -/
theorem storeReply_fits_iff (net : InetPton) (IP : IP) (addr : UInt32) (file : Option Bytes)
    (cs : CacheSet) (done : Bool)
    (hload : loadLocalRecord net IP (booted addr).cacheset file = .ok (cs, done)) :
    ∃ rs, scannedFrom file = .ok rs ∧
      ∀ (events : List Event) (w : World),
        (mainLoop { booted addr with cacheset := cs } events).result = .ok w →
        ∀ (data : Bytes) (now time : ℤ) (question : Question) (label : Label)
          (found : List (DnsRelay.IP × ℕ)),
          storeEntries (asked w data) now time = .ok (question, label, found) → found ≠ [] →
          ∃ t : AddressType, question.qtype = t.code ∧
            (StoreReplyFits (asked w data) question label found ↔
              StoreReplySmall net rs (asked w data) t label) := by
  obtain ⟨rs, hrs, hfile⟩ := fromFile_of_loaded ⟨rfl, rfl, rfl⟩ hload
  exact ⟨rs, hrs, fun events w hrun data now time question label found hentries hne =>
    storeReplyFits_iff_small (loaded_initial hload) hfile hrun hentries hne⟩

/-- The world after the start with a file of local records. -/
private def loaded (cs : CacheSet) : World := { booted 0 with cacheset := cs }

private def addressQuestion (labels : List Bytes) : Bytes := questionMessage 7 flagQuery labels 1

/-- What a request for the addresses of a name finds after the start with a file: the result of
loading, the type of the question, the name, the number of addresses and the place behind the
question in a reply with `count` records. -/
private def servedFrom (file : Bytes) (labels : List Bytes) (count : ℕ) :
    Exec (Bool × ℕ × Bytes × ℕ × ℤ) := do
  let (cs, done) ← loadLocalRecord sampleNet ⟨Vector.replicate 16 7, 0⟩ (booted 0).cacheset
    (some file)
  let w := asked (loaded cs) (addressQuestion labels)
  let (question, label, found) ← storeEntries w 0 0
  let (_, pos) ← answerStart w.recvBuffer count
  return (done, question.qtype, label, found.length, pos)

private theorem served {file : Bytes} {labels : List Bytes} {count qtype n : ℕ} {done : Bool}
    {label : Bytes} {pos : ℤ}
    (h : servedFrom file labels count = .ok (done, qtype, label, n, pos)) :
    ∃ cs, loadLocalRecord sampleNet ⟨Vector.replicate 16 7, 0⟩ (booted 0).cacheset
        (some file) = .ok (cs, done) ∧
      ∃ question found buffer,
        storeEntries (asked (loaded cs) (addressQuestion labels)) 0 0 =
          .ok (question, label, found) ∧
        question.qtype = qtype ∧ found.length = n ∧
        answerStart (asked (loaded cs) (addressQuestion labels)).recvBuffer count =
          .ok (buffer, pos) := by
  obtain ⟨⟨cs, done⟩, hload, h⟩ := bind_eq_ok.mp h
  obtain ⟨⟨question, label, found⟩, hentries, h⟩ := bind_eq_ok.mp h
  obtain ⟨⟨buffer, pos⟩, hstart, h⟩ := bind_eq_ok.mp h
  cases h
  exact ⟨cs, hload, question, found, buffer, hentries, rfl, rfl, hstart⟩

/-- The reply with the only address of `a`. -/
theorem storeReply_fits_sample :
    ∃ cs, loadLocalRecord sampleNet ⟨Vector.replicate 16 7, 0⟩ (booted 0).cacheset
        (some sampleFile) = .ok (cs, true) ∧
      ∃ question found, storeEntries (asked (loaded cs) (addressQuestion [[97]])) 0 0 =
          .ok (question, [97], found) ∧ found.length = 1 ∧
        StoreReplyFits (asked (loaded cs) (addressQuestion [[97]])) question [97] found := by
  have hserved : servedFrom sampleFile [[97]] 1 = .ok (true, 1, [97], 1, 19) := by
    decide +kernel
  obtain ⟨cs, hload, question, found, buffer, hentries, htype, hlen, hstart⟩ := served hserved
  refine ⟨cs, hload, question, found, hentries, hlen, ?_⟩
  obtain ⟨rs, hrs, hfits⟩ := storeReply_fits_iff sampleNet _ 0 (some sampleFile) cs true hload
  obtain ⟨t, ht, hiff⟩ := hfits [] _ rfl (addressQuestion [[97]]) 0 0 question [97] found hentries
    (by rintro rfl; cases hlen)
  have hscan : scannedFrom (some sampleFile) = .ok (records sampleFile) := by decide
  cases hrs.symm.trans hscan
  have hfile : fileAddresses sampleNet (records sampleFile) .A [97] = [⟨4, [1, 2, 3, 4]⟩] := by
    decide
  cases t with
  | AAAA => cases htype.symm.trans ht
  | A =>
      apply hiff.mpr
      rw [StoreReplySmall, heldCount, hfile, if_neg (List.cons_ne_nil _ _)]
      exact ⟨by decide, buffer, 19, hstart, by decide⟩

/-- The line `1.2.3.4 name`, `n` times. -/
def recordLines (n : ℕ) (name : Bytes) : Bytes :=
  (List.replicate n ([49, 46, 50, 46, 51, 46, 52, 32] ++ name ++ [newline])).flatten

/-- The labels of a name of the greatest length, 253 characters. -/
def fullLabels : List Bytes :=
  [List.replicate 63 97, List.replicate 63 97, List.replicate 63 97, List.replicate 61 97]

private theorem recordLines_given :
    ∃ rs, scannedFrom (some (recordLines 3 (dotted fullLabels))) = .ok rs ∧
      fileAddresses sampleNet rs .A (dotted fullLabels) = List.replicate 3 ⟨4, [1, 2, 3, 4]⟩ :=
  ⟨records (recordLines 3 (dotted fullLabels)), by decide +kernel, by decide +kernel⟩

/-- A name with twenty-one lines fills an entry behind the end of `ans`. Three records of 269
bytes for a name of 253 characters, behind the 271 bytes of the request, are too many for the
buffer. -/
theorem storeReply_not_fits :
    (∃ cs, loadLocalRecord sampleNet ⟨Vector.replicate 16 7, 0⟩ (booted 0).cacheset
        (some (recordLines 21 [97])) = .ok (cs, true) ∧
      ∃ question found, storeEntries (asked (loaded cs) (addressQuestion [[97]])) 0 0 =
          .ok (question, [97], found) ∧ found.length = 21 ∧
        ¬ StoreReplyFits (asked (loaded cs) (addressQuestion [[97]])) question [97] found) ∧
    (addressQuestion fullLabels).length = 271 ∧
    ∃ cs, loadLocalRecord sampleNet ⟨Vector.replicate 16 7, 0⟩ (booted 0).cacheset
        (some (recordLines 3 (dotted fullLabels))) = .ok (cs, true) ∧
      ∃ question found buffer, storeEntries (asked (loaded cs) (addressQuestion fullLabels)) 0 0 =
          .ok (question, dotted fullLabels, found) ∧
        found.length = 3 ∧ (dotted fullLabels).length = 253 ∧
        answerStart (asked (loaded cs) (addressQuestion fullLabels)).recvBuffer 3 =
          .ok (buffer, 271) ∧
        ¬ StoreReplyFits (asked (loaded cs) (addressQuestion fullLabels)) question
          (dotted fullLabels) found := by
  refine ⟨?_, by decide +kernel, ?_⟩
  · have hserved : servedFrom (recordLines 21 [97]) [[97]] 21 = .ok (true, 1, [97], 21, 19) := by
      decide +kernel
    obtain ⟨cs, hload, question, found, buffer, hentries, -, hlen, -⟩ := served hserved
    refine ⟨cs, hload, question, found, hentries, hlen, fun hfits => ?_⟩
    have hcount := hfits.1
    omega
  · have hserved : servedFrom (recordLines 3 (dotted fullLabels)) fullLabels 3 =
        .ok (true, 1, dotted fullLabels, 3, 271) := by
      decide +kernel
    obtain ⟨cs, hload, question, found, buffer, hentries, htype, hlen, hstart⟩ := served hserved
    have hlabel : (dotted fullLabels).length = 253 := by decide +kernel
    refine ⟨cs, hload, question, found, buffer, hentries, hlen, hlabel, hstart, fun hfits => ?_⟩
    obtain ⟨rs, hrs, hfile⟩ := fromFile_of_loaded ⟨rfl, rfl, rfl⟩ hload
    have hstarted : (mainLoop (loaded cs) []).result = .ok (loaded cs) := rfl
    obtain ⟨rs', hscan, hgiven⟩ := recordLines_given
    cases hrs.symm.trans hscan
    obtain ⟨t, ht, hiff⟩ := storeReplyFits_iff_small (loaded_initial hload) hfile hstarted hentries
      (by rintro rfl; cases hlen)
    cases t with
    | AAAA => cases htype.symm.trans ht
    | A =>
        obtain ⟨-, buffer', pos, hstart', hle⟩ := hiff.mp hfits
        rw [heldCount, hgiven, if_neg (by decide), List.length_replicate] at hstart' hle
        cases hstart.symm.trans hstart'
        rw [hlabel] at hle
        exact absurd hle (by decide)

end Runs

end DnsRelay.Relay
