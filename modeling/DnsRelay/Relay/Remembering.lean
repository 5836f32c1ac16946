import DnsRelay.Lru.Refinement
import DnsRelay.Relay.LocalNames
import DnsRelay.Relay.Service

/-!
# The memory of the service

A cache that represents a map from names to elements is, address by address, the memory of the
service for one type. Looking a name up and storing under a name are the two operations on it,
and both return as long as nothing has to be evicted or is out of date.
-/

namespace DnsRelay.Relay

open DnsRelay.Message DnsRelay.Adapter DnsRelay.Static DnsRelay.Lib DnsRelay.Lib.Machine Function

/-- What the service remembers of a cached element with an address of a type. -/
def learnedOf (t : AddressType) (d : Lru.RecordData) : Learned :=
  ⟨d.ip.addr.toList.take t.width, d.ttl⟩

/-- The cache, with the length `n`, holds the memory for a type. -/
structure Remembers (n : ℕ) (t : AddressType) (c : Lru.Cache) (m : Memory) : Prop where
  maxLength : c.maxLength = n
  represents : ∃ l lm, Lru.Represents c l lm ∧ m = lm.map (List.map (learnedOf t))

section Cache

variable {n : ℕ} {t : AddressType} {c : Lru.Cache} {m : Memory} {name : Label} {now time : ℤ}

/-- Nothing is represented by an empty list. -/
theorem represents_value_ne_nil {l : List ℤ} {lm : Lru.LabelMap} {ds : List Lru.RecordData}
    (h : Lru.Represents c l lm) (hvalue : lm.value name = some ds) : ds ≠ [] := by
  have hmem : name ∈ lm.order := (lm.mem_order name).mpr (by rw [hvalue]; rfl)
  obtain ⟨s, hs, hname⟩ := h.slot_of_mem hmem
  obtain ⟨-, d, rest, -, hd, -⟩ := h.live hs
  have hsame := (h.values s hs name hname).symm.trans hvalue
  rw [hd, Option.some.injEq] at hsame
  rw [← hsame]
  exact List.cons_ne_nil d rest

/-- A lookup finds what is remembered, if its first address is still valid. -/
theorem Remembers.get (h : Remembers n t c m)
    (hvalid : ∀ learned, m.value name = some learned → ∀ a ∈ learned.head?, now ≤ a.expiry) :
    ∃ c' found, Lru.getCacheARecord c name now = .ok (c', found) ∧
      Remembers n t c' (m.get name).1 ∧ found.map (List.map (learnedOf t)) = m.value name ∧
      found ≠ some [] := by
  obtain ⟨l, lm, hr, rfl⟩ := h.represents
  have hfresh : ∀ s d ds, Lru.get c name = .ok (some s) → c.records.data s = .live d ds →
      now ≤ d.ttl := by
    intro s d ds hget hd
    rcases hr.get_cases name with ⟨-, hmiss⟩ | ⟨-, s', hs, hname, hhit⟩
    · cases hget.symm.trans hmiss
    · cases hget.symm.trans hhit
      have hvalue := hr.values s hs name hname
      rw [hd] at hvalue
      exact hvalid ((d :: ds).map (learnedOf t))
        (by simp only [LruMap.map, hvalue, Lru.DataPtr.toList, Option.map_some]) _ rfl
  obtain ⟨c', found, l', hget, hr', hfound⟩ := hr.get hfresh
  have hexec : (Lru.CacheOp.get name now).exec c = .ok (c', .got found) := by
    simp only [Lru.CacheOp.exec, hget, bind, Except.bind]
    rfl
  have hmax := (Lru.exec_inv hr.inv hexec).1.1
  rw [LruMap.get_snd] at hfound
  refine ⟨c', found, hget, ⟨hmax.trans h.maxLength, l', (lm.get name).1, hr', ?_⟩, ?_, ?_⟩
  · rw [LruMap.map_get]
  · rw [hfound]
    rfl
  · rintro rfl
    exact represents_value_ne_nil hr hfound.symm rfl

/-- Storing under a name sets it, if there is room and something is still valid. -/
theorem Remembers.set (h : Remembers n t c m) {data : List Lru.RecordData}
    (hlabel : ∀ d ∈ data, d.label = name) (hroom : m.order.length + 1 < n)
    (hne : (data.filter fun d => time ≤ d.ttl) ≠ []) :
    ∃ c' ret, Lru.setCacheAMultiRecord c name data time = .ok (c', ret) ∧
      Remembers n t c' (m.set name ((data.filter fun d => time ≤ d.ttl).map (learnedOf t))) := by
  obtain ⟨l, lm, hr, rfl⟩ := h.represents
  have hlength : l.length = lm.order.length := by
    have hkeys := congrArg List.length hr.keys
    rwa [List.length_map, List.length_map] at hkeys
  have hfull : Lru.isFull c = false := by
    rw [Lru.isFull, decide_eq_false_iff_not, hr.inv.length_eq, h.maxLength, hlength]
    have hroom' : lm.order.length + 1 < n := hroom
    omega
  obtain ⟨c', ret, l', hexec, hr'⟩ :=
    hr.set (show (Lru.CacheOp.setMulti name data time).isSet = true from rfl) hlabel hfull hne
  have hmax := (Lru.exec_inv hr.inv hexec).1.1
  obtain ⟨⟨temp, ret'⟩, hset, hret⟩ := bind_eq_ok.mp hexec
  cases hret
  refine ⟨c', _, hset, hmax.trans h.maxLength, l', _, hr', ?_⟩
  rw [LruMap.map_set]
  rfl

end Cache

section Reply

variable {n : ℕ} {t : AddressType} {w : World} {s : Service} {r : Report} {message : Bytes}
  {now time : ℤ}

theorem Report.Answers.rdata_length (h : r.Answers t message) {a : ResourceRecord}
    (ha : a ∈ addressRecords r.records) : a.rdata.length = t.width := by
  obtain ⟨questions, hresponse⟩ := h.response
  obtain ⟨j, e, -, hrecords⟩ := hresponse.sections
  have hw := hrecords.wellFormed a (List.mem_filter.mp ha).1
  have htype := h.types a ha
  cases t with
  | A => exact hw.rdata_A htype
  | AAAA => exact hw.rdata_AAAA htype

/-- The elements that are made of the answers of a report are what it teaches, before any of them
is out of date. -/
theorem Report.Answers.decoded (h : r.Answers t message) (hs : w.Sized) (rest : Bytes)
    (label : Label) (now : ℤ) :
    ∃ ans, readDnsAnswers w.ans (message ++ rest) =
        .ok (ans, (addressRecords r.records).length) ∧
      (cacheData label now (ans.take (addressRecords r.records).length)).map (learnedOf t) =
        (addressRecords r.records).map fun a => ⟨a.rdata, now + a.ttl⟩ := by
  obtain ⟨questions, hresponse⟩ := h.response
  have hcount : (addressRecords r.records).length ≤ 10 := h.count
  obtain ⟨ans, hread, hall⟩ := readDnsAnswers_response message rest questions r.records hresponse
    w.ans hs.ans.name (by rw [hs.ans.length]; omega)
  have htwenty := (readDnsAnswers_sized hs.ans hread).length
  refine ⟨ans, hread, List.ext_getElem ?_ fun k hk hk' => ?_⟩
  · rw [cacheData, List.length_map, List.length_map, List.length_map, List.length_take, htwenty]
    omega
  · rw [List.length_map] at hk'
    have hmem := List.getElem_mem hk'
    obtain ⟨a, ha, hdecoded⟩ := hall k _ (List.getElem?_eq_getElem hk')
    obtain ⟨hlt, hget⟩ := List.getElem?_eq_some_iff.mp ha
    obtain ⟨tail, htail⟩ := hdecoded.address.front
    have haddress : a.address.addr.toList.take t.width =
        ((addressRecords r.records)[k]).rdata := by
      rw [htail, ← h.rdata_length hmem, List.take_left]
    simp only [cacheData, List.getElem_map, List.getElem_take, hget, learnedOf, haddress,
      hdecoded.ttl]

theorem cacheData_label {label : Label} {ans : List Answer} {d : Lru.RecordData}
    (h : d ∈ cacheData label now ans) : d.label = label := by
  obtain ⟨a, -, rfl⟩ := List.mem_map.mp h
  rfl

/-- What is still valid of them is what is learned. -/
theorem Report.learned_of_decoded {data : List Lru.RecordData}
    (h : data.map (learnedOf t) =
      (addressRecords r.records).map fun a => ⟨a.rdata, now + a.ttl⟩) (time : ℤ) :
    (data.filter fun d => time ≤ d.ttl).map (learnedOf t) = r.learned now time := by
  rw [Report.learned, ← h, List.filter_map]
  rfl

/-- The answers are stored under the name that was asked for. -/
theorem Report.Answers.question (h : r.Answers t message) (hs : w.Sized)
    (hlen : message.length ≤ maxDnsSize) (sender : SockaddrIn) :
    ∃ question size, readDnsQuestion w.question (relayed w sender message).recvBuffer
        dnsHeaderSize = .ok (question, size) ∧ cString question.label = .ok r.name := by
  have hw := wireName_length h.ne_nil
  have hname : (dotted r.labels).length ≤ 253 := h.name_le
  have hlt : (dotted r.labels).length < w.question.label.length := by
    rw [hs.label, maxNameLength]
    omega
  have hbuffer : (relayed w sender message).recvBuffer.length = 1024 :=
    (receive_sized hs message).recvBuffer
  have hat : HasAt (relayed w sender message).recvBuffer 12 (wireName r.labels) := by
    rw [relayed, receive, received_eq_self_iff.mpr hlen]
    exact h.name.append_right _
  obtain ⟨label, type, class_, hread, -, hlabel⟩ :=
    readDnsQuestion_wireName h.ne_nil h.valid hlt hat (by omega)
  exact ⟨_, _, hread, hlabel⟩

/-- Caching leaves the caches of the other types alone. -/
theorem cacheAnswers_temp_of_ne {w₁ : World} {type : UInt8} (ht : type.toNat = t.code)
    (h : cacheAnswers w type now time = .ok w₁) {t' : AddressType} (hne : t' ≠ t) :
    w₁.cacheset.temp t' = w.cacheset.temp t' := by
  rcases cacheAnswers_cases h with ⟨hsame, -⟩ | ⟨t₁, -, -, temp, -, htype, -, -, -, hset⟩
  · rw [hsame]
  · cases AddressType.code_inj (ht.symm.trans htype)
    rw [hset, CacheSet.temp_setTemp_of_ne hne]

/-- The handler of replies learns what the service learns. -/
theorem cacheAnswers_learns (hs : w.Sized) (hlen : message.length ≤ maxDnsSize)
    (hmemory : ∀ t, Remembers n t (w.cacheset.temp t) (s.memory t)) {type : UInt8}
    (hproper : ∀ t, type.toNat = AddressType.code t → r.Answers t message ∧
      (addressRecords r.records ≠ [] →
        r.learned now time ≠ [] ∧ (s.memory t).order.length + 1 < n))
    (sender : SockaddrIn) :
    ∃ w₁, cacheAnswers (relayed w sender message) type now time = .ok w₁ ∧
      ∀ t, Remembers n t (w₁.cacheset.temp t) (s.learn type.toNat r now time t) := by
  unfold Service.learn
  cases hcode : AddressType.ofCode type.toNat with
  | none =>
      have hother := cacheAnswers_of_other (w := relayed w sender message)
        (AddressType.ofCode_eq_none.mp hcode) now time
      exact ⟨_, hother, hmemory⟩
  | some t =>
      have ht := AddressType.ofCode_eq_some.mp hcode
      obtain ⟨hanswers, hlearns⟩ := hproper t ht
      obtain ⟨ans, hread, hdecoded⟩ :=
        hanswers.decoded hs (w.recvBuffer.drop message.length) r.name now
      have hans : readDnsAnswers (relayed w sender message).ans
          (relayed w sender message).recvBuffer =
            .ok (ans, (addressRecords r.records).length) := by
        rw [relayed, receive, received_eq_self_iff.mpr hlen]
        exact hread
      dsimp only
      by_cases hnil : addressRecords r.records = []
      · rw [if_pos hnil]
        rw [hnil, List.length_nil] at hans
        exact ⟨_, cacheAnswers_of_none ht hans now time, hmemory⟩
      · rw [if_neg hnil]
        obtain ⟨hvalid, hroom⟩ := hlearns hnil
        obtain ⟨question, size, hquestion, hlabel⟩ := hanswers.question hs hlen sender
        have hlearned := Report.learned_of_decoded hdecoded time
        have hne : ((cacheData r.name now
            (ans.take (addressRecords r.records).length)).filter fun d => time ≤ d.ttl) ≠ [] := by
          intro hempty
          rw [hempty] at hlearned
          exact hvalid hlearned.symm
        obtain ⟨temp, ret, hset, hremembers⟩ :=
          (hmemory t).set (fun _ hd => cacheData_label hd) hroom hne
        obtain ⟨w₁, hcached, htemp⟩ := cacheAnswers_of_set ht hans
          (List.length_pos_iff.mpr hnil) hanswers.count hquestion hlabel hset
        refine ⟨w₁, hcached, fun t' => ?_⟩
        by_cases ht' : t' = t
        · rw [ht', htemp, update_self, ← hlearned]
          exact hremembers
        · rw [update_of_ne ht', cacheAnswers_temp_of_ne ht hcached ht']
          exact hmemory t'

end Reply

end DnsRelay.Relay
