import DnsRelay.Lru.Stops
import DnsRelay.Message.Stops
import DnsRelay.Relay.Configuration

/-!
# How the program can end

The functions below `main` call `exit` in three places: at a head node with a record, at a
record that is not valid, and where the cache has no slot left. The first is never reached,
and the last is reached under `-c 1` only, at the first reply with an address that would be
cached.
-/

namespace DnsRelay.Relay

open DnsRelay.Message DnsRelay.Adapter DnsRelay.Static DnsRelay.LocalRecord DnsRelay.Lib
open DnsRelay.Lib.Machine

section Stores

variable {c c' : StaticCache} {label : Label} {ip : IP} {cs cs' : CacheSet}

/-- No head node of the table has a record. -/
def Headless (c : StaticCache) : Prop := ∀ b, (c.table.nodes b).record = none

theorem compareStatic_stuck (data : List StaticRecordData) (record : Option ℕ) (label : Label) :
    Confined Stuck (compareStatic data record label) := by
  unfold compareStatic
  split
  · exact confined_ok _
  · exact stuck_fault

theorem getStaticCache_stuck (h : Headless c) (label : Label) :
    Confined Stuck (getStaticCache c label) := by
  unfold getStaticCache
  split
  · exact (Hash.getHashnode_confined (fun r => compareStatic_stuck c.data r label) h).bind
      fun _ _ => confined_ok _
  · exact confined_ok _

theorem addresses_stuck (c : StaticCache) (record : ℕ) : Confined Stuck (addresses c record) := by
  unfold addresses
  split
  · exact confined_ok _
  · exact stuck_fault

theorem setStaticCache_stuck (h : Headless c) (label : Label) (ip : IP) :
    Confined Stuck (setStaticCache c label ip) := by
  unfold setStaticCache
  split
  · refine (getStaticCache_stuck h label).bind fun record _ => ?_
    cases record with
    | some record => exact confined_ok _
    | none =>
        dsimp only
        split
        · exact confined_ok _
        · exact (Hash.setHashnode_confined (fun r => compareStatic_stuck _ r label) h).bind
            fun _ _ => confined_ok _
  · exact confined_ok _

theorem setStaticCache_headless {done : Bool} (h : Headless c)
    (hset : setStaticCache c label ip = .ok (c', done)) : Headless c' := by
  unfold setStaticCache at hset
  split at hset
  · obtain ⟨record, -, hset⟩ := bind_eq_ok.mp hset
    cases record with
    | some record =>
        cases hset
        exact h
    | none =>
        dsimp only at hset
        split at hset
        · cases hset
          exact h
        · obtain ⟨⟨table, node, exist⟩, hnode, hset⟩ := bind_eq_ok.mp hset
          cases hset
          intro b
          exact (Hash.setHashnode_record hnode b).trans (h b)
  · cases hset
    exact h

theorem initIfPos_headless (h : Headless c) (size : ℕ) : Headless (initIfPos c size) := by
  unfold initIfPos initStaticCache
  split
  · split
    · exact h
    · exact fun _ => rfl
  · exact h

/-- No head node of a store has a record. -/
def HeadlessStores (cs : CacheSet) : Prop := ∀ kind, Headless (store cs kind)

theorem SameStores.headless (hs : SameStores cs cs') (h : HeadlessStores cs) :
    HeadlessStores cs' := by
  intro kind
  have hstore : store cs' kind = store cs kind := by
    cases kind with
    | black => exact hs.blacklist
    | v4 => exact hs.localStore .A
    | v6 => exact hs.localStore .AAAA
  rw [hstore]
  exact h kind

variable {net : InetPton}

theorem scanString_stuck (size : ℕ) (stream : Bytes) :
    Confined Stuck (scanString size stream) := by
  unfold scanString
  dsimp only
  split
  · exact confined_ok _
  · split
    · exact stuck_fault
    · exact confined_ok _

theorem scanRecord_stuck (stream : Bytes) : Confined Stuck (scanRecord stream) := by
  refine (scanString_stuck 32 stream).bind fun p _ => ?_
  obtain ⟨ip, stream⟩ := p
  cases ip with
  | none => exact confined_ok _
  | some ip =>
      refine (scanString_stuck 513 stream).bind fun p _ => ?_
      obtain ⟨name, stream⟩ := p
      cases name <;> exact confined_ok _

/-- A pass over the file stops where its body does, and keeps what its body keeps. -/
theorem scanLoop_stuck {σ : Type} {P : σ → Prop} {body : σ → Bytes → Bytes → Exec σ}
    (hstuck : ∀ s ip name, P s → Confined Stuck (body s ip name))
    (hkeep : ∀ s ip name s', P s → body s ip name = .ok s' → P s') (n line : ℕ)
    (stream : Bytes) {s : σ} (hs : P s) : Confined Stuck (scanLoop body n line stream s) := by
  induction n generalizing line stream s with
  | zero => exact confined_ok _
  | succ n ih =>
      refine (scanRecord_stuck stream).bind fun p _ => ?_
      obtain ⟨record, stream⟩ := p
      cases record with
      | none => exact ih line stream hs
      | some record =>
          obtain ⟨ip, name⟩ := record
          refine (hstuck s ip name hs).bind fun s' hs' => ?_
          split
          · exact confined_ok _
          · exact ih _ stream (hkeep s ip name s' hs hs')

theorem countRecord_stuck (s : IP × Counts) (ip name : Bytes) :
    Confined Stuck (countRecord net s ip name) := by
  obtain ⟨IP, counts⟩ := s
  cases ha : address net ip with
  | none =>
      simp only [countRecord, parseAddress_of_none ha]
      exact confined_ok _
  | some a =>
      obtain ⟨IP', hcount⟩ := countRecord_of_some ha IP counts name
      rw [hcount]
      exact confined_ok _

theorem storeRecord_stuck {s : IP × CacheSet} (h : HeadlessStores s.2) (ip name : Bytes) :
    Confined Stuck (storeRecord setStaticCache net s ip name) := by
  obtain ⟨IP, cs⟩ := s
  cases ha : address net ip with
  | none =>
      rw [storeRecord_of_none setStaticCache ha]
      exact confined_ok _
  | some a =>
      obtain ⟨IP', -, hstore⟩ := storeRecord_of_some IP cs name ha
      rw [hstore]
      exact (setStaticCache_stuck (h a.kind) name IP').map _

theorem storeRecord_headless {s s' : IP × CacheSet} {ip name : Bytes} (h : HeadlessStores s.2)
    (hrun : storeRecord setStaticCache net s ip name = .ok s') : HeadlessStores s'.2 := by
  obtain ⟨IP, cs⟩ := s
  cases ha : address net ip with
  | none =>
      rw [storeRecord_of_none setStaticCache ha] at hrun
      cases hrun
      exact h
  | some a =>
      obtain ⟨IP', -, hstore⟩ := storeRecord_of_some IP cs name ha
      rw [hstore] at hrun
      obtain ⟨⟨c, done⟩, hset, rfl⟩ := map_eq_ok.mp hrun
      intro kind
      rw [store_setStore]
      rcases eq_or_ne kind a.kind with rfl | hne
      · rw [Function.update_self]
        exact setStaticCache_headless (h _) hset
      · rw [Function.update_of_ne hne]
        exact h kind

theorem initStores_headless (h : HeadlessStores cs) (counts : Counts) :
    HeadlessStores (initStores cs counts) := by
  intro kind
  cases kind with
  | black => exact initIfPos_headless (h .black) _
  | v4 => exact initIfPos_headless (initIfPos_headless (h .v4) _) _
  | v6 => exact h .v6

/-- Whatever the file is, loading it calls no `exit` and leaves the head nodes alone. -/
theorem loadLocalRecord_stuck (IP : IP) (h : HeadlessStores cs) (file : Option Bytes) :
    Confined Stuck (loadLocalRecord net IP cs file) := by
  cases file with
  | none => exact confined_ok _
  | some file =>
      refine Confined.bind ?_ fun _ _ => confined_ok _
      refine Confined.bind ?_ fun p _ => Confined.bind ?_ fun _ _ => confined_ok _
      · exact scanLoop_stuck (P := fun _ => True) (fun s ip name _ => countRecord_stuck s ip name)
          (fun _ _ _ _ _ _ => trivial) _ _ file trivial
      · exact scanLoop_stuck (P := fun s : DnsRelay.IP × CacheSet => HeadlessStores s.2)
          (fun s ip name hs => storeRecord_stuck hs ip name)
          (fun s ip name s' hs hrun => storeRecord_headless hs hrun) _ _ file
          (initStores_headless h p.2)

theorem loadLocalRecord_headless {IP : IP} {file : Option Bytes} {done : Bool}
    (h : HeadlessStores cs) (hload : loadLocalRecord net IP cs file = .ok (cs', done)) :
    HeadlessStores cs' := by
  cases file with
  | none =>
      cases hload
      exact h
  | some file =>
      obtain ⟨cs₁, hwith, hok⟩ := bind_eq_ok.mp hload
      cases hok
      obtain ⟨p, -, hpass⟩ := bind_eq_ok.mp hwith
      obtain ⟨⟨IP', cs₂⟩, hloop, hend⟩ := bind_eq_ok.mp hpass
      cases hend
      exact scanLoop_keeps (P := fun s : DnsRelay.IP × CacheSet => HeadlessStores s.2)
        (fun s ip name s' hs hrun => storeRecord_headless hs hrun) (initStores_headless h p.2) hloop

end Stores

section Handlers

variable {w w' : World} {label : Label} {now time : ℤ} {client : SockaddrIn} {data : Bytes}

theorem fillAnswers_stuck (question : Question) (label : Label) (found : List (IP × ℕ))
    (count : ℕ) (ans : List Answer) :
    Confined Stuck (fillAnswers question label found count ans) := by
  induction found generalizing count ans with
  | nil => exact confined_ok _
  | cons p found ih =>
      obtain ⟨ip, ttl⟩ := p
      unfold fillAnswers
      split
      · exact stuck_fault
      · exact (strcpy_stuck _ label).bind fun name _ => ih _ _

/-- A lookup that is not stuck stops with the call on the cache. -/
theorem lookUpIn_stops {c : CacheCompound} (h : Headless c.localStore) (label : Label)
    (now time : ℤ) :
    Confined (fun e => Stuck e ∨ getStaticCache c.localStore label = .ok none ∧
      Lru.getCacheARecord c.temp label now = .error e) (lookUpIn c label now time) := by
  refine (getStaticCache_stuck h label).or_left.bind fun record hrecord => ?_
  cases record with
  | some record =>
      exact (addresses_stuck c.localStore record).or_left.bind fun _ _ => confined_ok _
  | none =>
      refine Confined.bind ?_ fun _ _ => confined_ok _
      exact fun e he => .inr ⟨hrecord, he⟩

theorem lookUp_stops (h : HeadlessStores w.cacheset) (label : Label) (now time : ℤ) :
    Confined (fun e => Stuck e ∨ ∃ t : AddressType, w.question.qtype = t.code ∧
      getStaticCache (w.cacheset.compound t).localStore label = .ok none ∧
      Lru.getCacheARecord (w.cacheset.temp t) label now = .error e) (lookUp w label now time) := by
  unfold lookUp
  split
  next hA =>
    refine Confined.bind ?_ fun _ _ => confined_ok _
    refine (lookUpIn_stops (h .v4) label now time).mono fun e he => ?_
    exact he.imp_right fun he => ⟨.A, hA, he⟩
  next =>
    split
    next hAAAA =>
      refine Confined.bind ?_ fun _ _ => confined_ok _
      refine (lookUpIn_stops (h .v6) label now time).mono fun e he => ?_
      exact he.imp_right fun he => ⟨.AAAA, hAAAA, he⟩
    next => exact confined_ok _

/-- The elements of a call fit into `tmp_ans_data`. -/
def Within : Lru.CacheOp → Prop
  | .setMulti _ data _ => data.length ≤ tmpAnsData
  | _ => True

/-- The stops of a call that the loop makes on a cache. -/
def CallStops (call : AddressType → Option Lru.CacheOp) (w : World) (e : Stop) : Prop :=
  ∃ t op, call t = some op ∧ Within op ∧ op.exec (w.cacheset.temp t) = .error e

theorem answerQuestion_stops (h : HeadlessStores w.cacheset) (now time : ℤ) :
    Confined (fun e => Stuck e ∨ CallStops (fun t => lookUpCall t w now) w e)
      (answerQuestion w now time) := by
  refine (readDnsQuestions_stuck _ _).or_left.bind fun p hread => ?_
  obtain ⟨question, n⟩ := p
  refine (cString_stuck _).or_left.bind fun label hlabel => ?_
  refine (getStaticCache_stuck (h .black) label).or_left.bind fun black hblack => ?_
  have hused : questionUsed w = .ok (label, question.qtype) := by
    simp only [questionUsed, hread, bind, Except.bind, hlabel]
    rfl
  cases black with
  | some record =>
      refine (writeBytes_stuck _ _ _).or_left.bind fun buffer₁ _ => ?_
      exact (setHeaderRcode_stuck buffer₁ _).or_left.bind fun _ _ => confined_ok _
  | none =>
      refine Confined.bind ?_ fun p _ => ?_
      · refine (lookUp_stops (w := { w with question := question }) h label now time).mono
          fun e he => he.imp_right ?_
        rintro ⟨t, hqtype, hlocal, hcache⟩
        refine ⟨t, .get label now, ?_, trivial, ?_⟩
        · simp only [lookUpCall, hused]
          exact if_pos ⟨hqtype, hblack, hlocal⟩
        · have hcache' : Lru.getCacheARecord (w.cacheset.temp t) label now = .error e := hcache
          simp only [Lru.CacheOp.exec, hcache', bind, Except.bind]
      · obtain ⟨w₁, found⟩ := p
        dsimp only
        split
        · exact confined_ok _
        · refine (fillAnswers_stuck _ _ _ _ _).or_left.bind fun ans _ => ?_
          refine (writeDnsResponseByQuery_stuck _ _).or_left.bind fun p _ => ?_
          exact (readBytes_stuck _ _ _).or_left.bind fun _ _ => confined_ok _

theorem push_stuck (a : IDAdapter) (id : UInt16) (source : SockaddrIn) (type : UInt8) (time : ℤ)
    (buffer : Bytes) : Confined Stuck (a.push id source type time buffer) := by
  unfold IDAdapter.push
  split
  · exact confined_ok _
  · refine (cString_stuck buffer).bind fun text _ => ?_
    exact (strcpy_stuck _ text).bind fun _ _ => confined_ok _

theorem slotOf_stuck (pos : ℤ) : Confined Stuck (slotOf pos) := by
  unfold slotOf
  split
  · exact confined_ok _
  · exact stuck_fault

theorem relayQuery_stuck (w : World) (id : ℕ) (client : SockaddrIn) (rec : ℕ) (clock : ℤ) :
    Confined Stuck (relayQuery w id client rec clock).result := by
  rw [relayQuery, Output.result_bind, Output.result_lift]
  refine (writeByte_stuck _ _ _).bind fun buffer _ => ?_
  rw [Output.result_bind, Output.result_lift]
  refine (push_stuck _ _ _ _ _ _).bind fun p _ => ?_
  obtain ⟨adapter, newId⟩ := p
  cases newId with
  | none => exact confined_ok _
  | some k =>
      dsimp only
      rw [Output.result_bind, Output.result_lift]
      exact (writeBytes_stuck _ _ _).bind fun _ _ => confined_ok _

theorem handleRequest_stops (hs : w.Sized) (h : HeadlessStores w.cacheset) (client : SockaddrIn)
    (data : Bytes) (clock now time : ℤ) :
    Confined (fun e => Stuck e ∨ CallStops (fun t => lookUpCall t (asked w data) now) w e)
      (handleRequest w client data clock now time).result := by
  have heq := handleRequest_asked hs client data clock now time
  have hanswer := answerQuestion_stops (w := asked w data) (by rwa [asked_cacheset]) now time
  simp only [CallStops, asked_cacheset] at hanswer
  rw [heq, serveQuestion, Output.result_bind, Output.result_lift]
  refine hanswer.bind fun p _ => ?_
  obtain ⟨w₁, verdict⟩ := p
  cases verdict with
  | blocked => exact confined_ok _
  | answered reply => exact confined_ok _
  | missing => exact (relayQuery_stuck w₁ _ client _ clock).or_left

/-- Caching that is not stuck stops with the call on the cache. -/
theorem cacheAnswers_stops (w : World) (type : UInt8) (now time : ℤ) :
    Confined (fun e => Stuck e ∨ CallStops (fun t => storeCall t w type now time) w e)
      (cacheAnswers w type now time) := by
  unfold cacheAnswers
  split
  next ht =>
    refine (readDnsAnswers_stuck _ _).or_left.bind fun p hans => ?_
    obtain ⟨ans, ansNum⟩ := p
    dsimp only
    split
    next hpos =>
      refine (readDnsQuestion_stuck _ _ _).or_left.bind fun p hq => ?_
      obtain ⟨question, size⟩ := p
      dsimp only
      split
      next => exact stuck_fault.or_left
      next hle =>
        refine (cString_stuck _).or_left.bind fun label hlabel => ?_
        have hcacheable : cacheable w = some (label, ans.take ansNum) := by
          simp only [cacheable, hans, hpos, if_true, hq, hlabel]
          rfl
        have hwithin : (cacheData label now (ans.take ansNum)).length ≤ tmpAnsData := by
          rw [cacheData, List.length_map, List.length_take]
          omega
        -- what a call on either cache stops with
        have hcall : ∀ t : AddressType, type.toNat = t.code → ∀ e,
            Lru.setCacheAMultiRecord (w.cacheset.temp t) label
              (cacheData label now (ans.take ansNum)) time = .error e →
            CallStops (fun t => storeCall t w type now time) w e := by
          intro t ht e he
          refine ⟨t, .setMulti label (cacheData label now (ans.take ansNum)) time, ?_, hwithin, ?_⟩
          · simp only [storeCall, if_pos ht, hcacheable, Option.map_some]
          · simp only [Lru.CacheOp.exec, he, bind, Except.bind]
        split
        next hA =>
          refine Confined.bind ?_ fun _ _ => confined_ok _
          exact fun e he => .inr (hcall .A hA e he)
        next hA =>
          refine Confined.bind ?_ fun _ _ => confined_ok _
          exact fun e he => .inr (hcall .AAAA (ht.resolve_left hA) e he)
    next => exact confined_ok _
  next => exact confined_ok _

theorem get_stuck (a : IDAdapter) (pos : ℤ) : Confined Stuck (a.get pos) :=
  (slotOf_stuck pos).bind fun _ _ => confined_ok _

theorem replyTo_of_get {info : IDtoAddr} {header : DnsHeader}
    (hh : readDnsHeader (receive w data).recvBuffer = .ok header)
    (hg : w.adapter.get (toShort header.id) = .ok (some info)) :
    ∃ k, replyTo w data = some (k, info) := by
  cases hk : slotOf (toShort header.id) with
  | error e =>
      rw [IDAdapter.get_of_slotOf_error hk] at hg
      cases hg
  | ok k =>
      rw [IDAdapter.get_of_slotOf hk, Except.ok.injEq] at hg
      refine ⟨k, ?_⟩
      simp only [replyTo, hh, hk, hg, Option.map_some]

theorem handleRelay_stops (w : World) (sender : SockaddrIn) (data : Bytes) (now time : ℤ) :
    Confined (fun e => Stuck e ∨ CallStops (fun t => relayCall t w sender data now time) w e)
      (handleRelay w sender data now time).result := by
  rw [handleRelay, Output.result_bind, Output.result_lift]
  refine (readDnsHeader_stuck _).or_left.bind fun header hh => ?_
  rw [Output.result_bind, Output.result_lift]
  refine (get_stuck _ _).or_left.bind fun found hg => ?_
  cases found with
  | none => exact confined_ok _
  | some info =>
      obtain ⟨k, hreply⟩ := replyTo_of_get hh hg
      have hcall : (fun t => relayCall t w sender data now time) =
          fun t => storeCall t (relayed w sender data) info.type now time := by
        simp only [relayCall, hreply, Option.bind_some]
      have hstops := cacheAnswers_stops (relayed w sender data) info.type now time
      rw [hcall]
      dsimp only
      rw [Output.result_bind, Output.result_lift]
      refine hstops.bind fun w₁ _ => ?_
      rw [Output.result_bind, Output.result_lift]
      refine (writeBytes_stuck _ _ _).or_left.bind fun buffer _ => ?_
      rw [Output.result_bind]
      refine (confined_ok _).bind fun _ _ => ?_
      rw [Output.result_bind, Output.result_lift]
      refine Confined.bind ?_ fun _ _ => confined_ok _
      exact ((slotOf_stuck _).bind fun _ _ => confined_ok _).or_left

theorem sweep_stuck (a : IDAdapter) (clock : Slot → ℤ) : Confined Stuck (a.sweep clock).result := by
  refine Output.run_confined (fun a k => ?_) a _
  unfold IDAdapter.sweepSlot
  split
  · rw [Output.result_bind, Output.result_lift]
    refine (writeBytes_stuck _ _ _).bind fun message₁ _ => ?_
    rw [Output.result_bind, Output.result_lift]
    refine (setHeaderRcode_stuck message₁ _).bind fun message₂ _ => ?_
    rw [Output.result_bind, Output.result_lift]
    refine (cString_stuck message₂).bind fun reply _ => ?_
    exact confined_ok _
  · exact confined_ok _

/-- A step that is not stuck stops where a call on a cache does. -/
theorem step_stops (hs : w.Sized) (h : HeadlessStores w.cacheset) (e : Event) :
    Confined (fun stop => Stuck stop ∨ CallStops (fun t => cacheCall t w e) w stop)
      (step w e).result := by
  cases e with
  | sweep clock =>
      rw [step, Output.result_bind]
      exact (sweep_stuck w.adapter clock).or_left.bind fun _ _ => confined_ok _
  | relay sender data now time => exact handleRelay_stops w sender data now time
  | request client data clock now time => exact handleRequest_stops hs h client data clock now time

theorem exec_setMulti_error {c : Lru.Cache} {elements : List Lru.RecordData} {stop : Stop}
    (h : (Lru.CacheOp.setMulti label elements now).exec c = .error stop) :
    Lru.setCacheAMultiRecord c label elements now = .error stop := by
  cases hset : Lru.setCacheAMultiRecord c label elements now with
  | error e => simpa [Lru.CacheOp.exec, hset, bind, Except.bind] using h
  | ok p => simp [Lru.CacheOp.exec, hset, bind, Except.bind, pure, Except.pure] at h

/-- Caching stops where its call on a cache does. -/
theorem cacheAnswers_of_callStops {t : AddressType} {type : UInt8} {op : Lru.CacheOp} {stop : Stop}
    (hans : AnswersSized w.ans) (hcall : storeCall t w type now time = some op)
    (hwithin : Within op) (hstop : op.exec (w.cacheset.temp t) = .error stop) :
    cacheAnswers w type now time = .error stop := by
  unfold storeCall at hcall
  split at hcall
  next ht =>
    obtain ⟨⟨label, answers⟩, hcacheable, rfl⟩ := Option.map_eq_some_iff.mp hcall
    have hset := exec_setMulti_error hstop
    cases hread : readDnsAnswers w.ans w.recvBuffer with
    | error e =>
        simp only [cacheable, hread] at hcacheable
        cases hcacheable
    | ok p =>
        obtain ⟨ans, ansNum⟩ := p
        simp only [cacheable, hread] at hcacheable
        split at hcacheable
        next hpos =>
          cases hq : readDnsQuestion w.question w.recvBuffer dnsHeaderSize with
          | error e => simp [hq] at hcacheable
          | ok p =>
              obtain ⟨question, size⟩ := p
              cases hlabel : cString question.label with
              | error e => simp [hq, hlabel, Except.toOption] at hcacheable
              | ok text =>
                  simp only [hq, hlabel, Except.toOption, Option.map_some, Option.some.injEq,
                    Prod.mk.injEq] at hcacheable
                  obtain ⟨rfl, rfl⟩ := hcacheable
                  have htwenty := (readDnsAnswers_sized hans hread).length
                  have hle : ¬ tmpAnsData < ansNum := by
                    simp only [Within, cacheData, List.length_map, List.length_take,
                      htwenty, tmpAnsData] at hwithin ⊢
                    omega
                  cases t with
                  | A =>
                      have hA : type.toNat = rrtypeA := ht
                      have hset' : Lru.setCacheAMultiRecord w.cacheset.A.temp text
                        ((ans.take ansNum).map fun a => ⟨text, a.address, now + a.ttl⟩) time =
                          .error stop := hset
                      simp only [cacheAnswers, hA, true_or, if_true, hread, hpos, hq, hle,
                        if_false, hlabel, hset', bind, Except.bind]
                  | AAAA =>
                      have hAAAA : type.toNat = rrtypeAAAA := ht
                      have hA : ¬ rrtypeAAAA = rrtypeA := by decide
                      have hset' : Lru.setCacheAMultiRecord w.cacheset.AAAA.temp text
                        ((ans.take ansNum).map fun a => ⟨text, a.address, now + a.ttl⟩) time =
                          .error stop := hset
                      simp only [cacheAnswers, hAAAA, or_true, if_true, hread, hpos, hq, hle,
                        if_false, hlabel, hA, hset', bind, Except.bind]
        next => cases hcacheable
  next => cases hcall

/-- And it does stop where the call of a reply on a cache does. -/
theorem step_of_callStops {t : AddressType} {op : Lru.CacheOp} {e : Event} {stop : Stop}
    (hs : w.Sized) (hcall : cacheCall t w e = some op) (hset : op.isSet = true)
    (hwithin : Within op) (hstop : op.exec (w.cacheset.temp t) = .error stop) :
    (step w e).result = .error stop := by
  cases e with
  | sweep clock => cases hcall
  | request client data clock now time =>
      have hcall' : lookUpCall t (asked w data) now = some op := hcall
      unfold lookUpCall at hcall'
      split at hcall'
      · split at hcall'
        · cases hcall'
          cases hset
        · cases hcall'
      · cases hcall'
  | relay sender data now time =>
      have hcall' : relayCall t w sender data now time = some op := hcall
      obtain ⟨⟨k, info⟩, hreply, hstore⟩ := Option.bind_eq_some_iff.mp hcall'
      obtain ⟨⟨header, hh, hk⟩, ho⟩ := replyTo_eq_some hreply
      have hg : (receive w data).adapter.get (toShort header.id) = .ok (some info) := by
        rw [IDAdapter.get_of_slotOf hk]
        exact congrArg Except.ok ho
      have hans : AnswersSized (relayed w sender data).ans := hs.ans
      have hcache := cacheAnswers_of_callStops (w := relayed w sender data) hans hstore hwithin
        hstop
      have hcache' : cacheAnswers { receive w data with queryServer := sender } info.type now
        time = .error stop := hcache
      rw [step, handleRelay]
      simp only [hh, hg, hcache', Output.lift_ok_bind, Output.lift_error_bind]

end Handlers

section Runs

variable {env : Environment} {settings : List (Setting × Bytes)} {v w : World}

/-- The arrays and the head nodes in every state that the loop reaches. -/
theorem mainLoop_headless (hs : v.Sized) (h : HeadlessStores v.cacheset) {events : List Event}
    (hrun : (mainLoop v events).result = .ok w) : w.Sized ∧ HeadlessStores w.cacheset := by
  obtain ⟨hs', hsame⟩ := mainLoop_stores hs hrun
  exact ⟨hs', hsame.headless h⟩

/-- No run of the loop meets a head node with a record. -/
theorem mainLoop_pastHead (hv : v.Initial) (h : HeadlessStores v.cacheset) (events : List Event) :
    (mainLoop v events).result ≠ .error .headRecord := by
  intro hstop
  obtain ⟨front, e, rest, w, -, hfront, hstep⟩ := Output.run_eq_error_iff.mp hstop
  obtain ⟨hs, hheads⟩ := mainLoop_headless hv.sized h hfront
  obtain ⟨-, hcaches⟩ := mainLoop_inv hv hfront
  rcases step_stops hs hheads e _ hstep with hstuck | ⟨t, op, -, -, hexec⟩
  · rcases hstuck with hstuck | hstuck <;> cases hstuck
  · obtain ⟨l, hl⟩ := hcaches t
    exact Lru.exec_pastHead hl op _ hexec rfl

/-- The event is a reply with an address to cache. -/
def Caches (w : World) (e : Event) : Prop :=
  ∃ t op, cacheCall t w e = some op ∧ op.isSet = true ∧ Within op

/-- With room for two records no run is left for lack of a slot. -/
theorem mainLoop_has_slots (hs : v.Sized) (hheads : HeadlessStores v.cacheset)
    (hcaches : ∀ t, (∃ l, Lru.Inv (v.cacheset.temp t) l) ∧ 2 ≤ (v.cacheset.temp t).maxLength)
    (events : List Event) : (mainLoop v events).result ≠ .error .noRemainSpace := by
  intro hstop
  obtain ⟨front, e, rest, w, -, hfront, hstep⟩ := Output.run_eq_error_iff.mp hstop
  obtain ⟨hsw, hheadsw⟩ := mainLoop_headless hs hheads hfront
  obtain ⟨-, hcachesw⟩ := mainLoop_keeps (Q := fun c => 2 ≤ c.maxLength) hs hcaches
    (fun _ _ hinv hq hexec => by rw [(Lru.exec_inv hinv hexec).1.1]; exact hq) hfront
  rcases step_stops hsw hheadsw e _ hstep with hstuck | ⟨t, op, -, -, hexec⟩
  · rcases hstuck with hstuck | hstuck <;> cases hstuck
  · obtain ⟨⟨l, hl⟩, hmax⟩ := hcachesw t
    exact Lru.exec_ne_noRemainSpace_of_two hl hmax hexec

/-- A cache of one record stays as it was set up. -/
theorem mainLoop_single {k : ℕ} (hs : v.Sized)
    (hcaches : ∀ t, v.cacheset.temp t = Lru.initCache 1 cacheInfiniteSize k) {events : List Event}
    (hrun : (mainLoop v events).result = .ok w) (t : AddressType) :
    w.cacheset.temp t = Lru.initCache 1 cacheInfiniteSize k := by
  refine ((mainLoop_keeps (Q := fun c => c = Lru.initCache 1 cacheInfiniteSize k) hs
    (fun t => ⟨⟨[], ?_⟩, hcaches t⟩) ?_ hrun).2 t).2
  · rw [hcaches t]
    exact Lru.initCache_inv_any
  · rintro w w' e t op c r l - - - hq hexec
    rw [hq] at hexec
    cases op with
    | get label now =>
        rw [Lru.exec_get_initCache] at hexec
        cases hexec
        rfl
    | set label data now =>
        rw [Lru.single_slot_exits rfl (.inr (by decide))] at hexec
        cases hexec
    | setMulti label data now =>
        rw [Lru.single_slot_exits rfl (.inr (by decide))] at hexec
        cases hexec

/-- With a cache of one record a run is left for lack of a slot exactly at the first reply with an
address to cache. -/
theorem mainLoop_single_exits_iff {k : ℕ} (hs : v.Sized) (hheads : HeadlessStores v.cacheset)
    (hcaches : ∀ t, v.cacheset.temp t = Lru.initCache 1 cacheInfiniteSize k)
    (events : List Event) :
    (mainLoop v events).result = .error .noRemainSpace ↔
      ∃ front e rest w, events = front ++ e :: rest ∧ (mainLoop v front).result = .ok w ∧
        Caches w e := by
  rw [mainLoop, Output.run_eq_error_iff]
  refine exists_congr fun front => exists_congr fun e => exists_congr fun rest =>
    exists_congr fun w => and_congr_right fun _ => and_congr_right fun hfront => ?_
  obtain ⟨hsw, hheadsw⟩ := mainLoop_headless hs hheads hfront
  constructor
  · intro hstep
    rcases step_stops hsw hheadsw e _ hstep with hstuck | ⟨t, op, hcall, hwithin, hexec⟩
    · rcases hstuck with hstuck | hstuck <;> cases hstuck
    · exact ⟨t, op, hcall, Lru.isSet_of_noRemainSpace hexec, hwithin⟩
  · rintro ⟨t, op, hcall, hset, hwithin⟩
    refine step_of_callStops hsw hcall hset hwithin ?_
    rw [mainLoop_single hs hcaches hfront t]
    exact Lru.single_slot_exits hset (.inr (by decide))

/-- Where a reply meets a full cache of three records or more, the loop does not go on. -/
theorem mainLoop_full_ends (hv : v.Initial) {front rest : List Event} {e : Event}
    {t : AddressType} {op : Lru.CacheOp} (hfront : (mainLoop v front).result = .ok w)
    (hcall : cacheCall t w e = some op) (hset : op.isSet = true)
    (hfull : Lru.isFull (w.cacheset.temp t) = true) (hsize : 4 ≤ (w.cacheset.temp t).maxLength)
    (w' : World) : (mainLoop v (front ++ e :: rest)).result ≠ .ok w' := by
  intro hrun
  obtain ⟨-, hcaches⟩ := mainLoop_caches (Q := fun c => ∃ l, Lru.Inv c l ∧ Lru.Sound c l) hv
    (fun _ _ _ => Lru.runOps_sound (by simp : ∀ op ∈ ([] : List Lru.CacheOp), op.Labelled) rfl)
    (fun _ hcall _ hq hexec => by
      obtain ⟨l, hl, hsound⟩ := hq
      exact Lru.exec_sound hl hsound (cacheCall_labelled hcall) hexec) hfront
  obtain ⟨l, hl, hsound⟩ := (hcaches t).2
  have hlen : 3 ≤ l.length := by
    have hroom := of_decide_eq_true hfull
    rw [hl.length_eq] at hroom
    omega
  obtain ⟨w₁, hstep⟩ := Output.run_step_of_ok hrun hfront
  have hcalled := step_called (mainLoop_inv hv hfront).1 hstep t
  rw [hcall, Called] at hcalled
  obtain ⟨r, hexec⟩ := hcalled
  exact hsound.set_not_returns hl hfull hlen hset hexec

end Runs

section Program

variable {env : Environment} {settings : List (Setting × Bytes)} {w : World}

theorem zeroedSet_headless : HeadlessStores zeroedSet := by
  intro kind
  cases kind <;> exact fun _ => rfl

theorem toInt_stuck (value : ℤ) : Confined Stuck (toInt value) := by
  unfold toInt
  split
  · exact confined_ok _
  · exact stuck_fault

theorem argument_stuck (argv : List Bytes) (i : ℕ) (default : Bytes) :
    Confined Stuck (argument argv i default) := by
  unfold argument
  split
  · exact confined_ok _
  · split
    · exact confined_ok _
    · exact stuck_fault

theorem parseArguments_stuck (i : ℕ) (args : List Bytes) (options : Options) :
    Confined Stuck (parseArguments i args options) := by
  induction i, args, options using parseArguments.induct with
  | case1 i options => exact confined_ok _
  | case2 i argument options => exact confined_ok _
  | case3 i value rest options ih =>
      rw [parseArguments, if_pos rfl]
      exact ih
  | case4 i value rest options hd ih =>
      rw [parseArguments, if_neg hd, if_pos rfl]
      exact ih
  | case5 i value rest options hd hf ih =>
      rw [parseArguments, if_neg hd, if_neg hf, if_pos rfl]
      exact ih
  | case6 i value rest options hd hf hs ih =>
      rw [parseArguments, if_neg hd, if_neg hf, if_neg hs, if_pos rfl]
      exact (toInt_stuck _).bind fun n _ => ih n
  | case7 i argument value rest options hd hf hs hc =>
      rw [parseArguments, if_neg hd, if_neg hf, if_neg hs, if_neg hc]
      exact confined_ok _

theorem initARecordCache_stuck (scaled : ℤ → ℕ) (n : ℤ) :
    Confined Stuck (initARecordCache scaled n) := by
  unfold initARecordCache
  dsimp only
  generalize (if n ≤ 0 then Lru.lruBufferLength else n) = length
  split
  · exact confined_ok _
  · exact stuck_fault

theorem init_stuck (env : Environment) (argv : List Bytes) : Confined Stuck (init env argv) := by
  refine (parseArguments_stuck _ _ _).bind fun options _ => ?_
  cases options with
  | none => exact confined_ok _
  | some options =>
      refine (argument_stuck _ _ _).bind fun file _ => ?_
      refine (loadLocalRecord_stuck env.IP zeroedSet_headless _).bind fun _ _ => ?_
      refine (initARecordCache_stuck _ _).bind fun _ _ => ?_
      refine (initARecordCache_stuck _ _).bind fun _ _ => ?_
      exact (argument_stuck _ _ _).bind fun _ _ => confined_ok _

theorem init_headless {argv : List Bytes} (h : init env argv = .ok (some w)) :
    HeadlessStores w.cacheset := by
  obtain ⟨options, -, h⟩ := bind_eq_ok.mp h
  cases options with
  | none => cases h
  | some options =>
      obtain ⟨file, -, h⟩ := bind_eq_ok.mp h
      obtain ⟨⟨cs, done⟩, hload, h⟩ := bind_eq_ok.mp h
      obtain ⟨A, -, h⟩ := bind_eq_ok.mp h
      obtain ⟨AAAA, -, h⟩ := bind_eq_ok.mp h
      obtain ⟨server, -, h⟩ := bind_eq_ok.mp h
      cases h
      intro kind
      have hheads := loadLocalRecord_headless zeroedSet_headless hload kind
      cases kind <;> exact hheads

/-- Under no command line, file or sequence of rounds does the program meet a head node with a
record. -/
theorem main_pastHead (env : Environment) (argv : List Bytes) (rounds : List Round) :
    (main env argv rounds).result ≠ .error .headRecord := by
  intro hstop
  cases hinit : init env argv with
  | error e =>
      rw [main_of_error hinit] at hstop
      rcases init_stuck env argv e hinit with rfl | rfl <;> cases hstop
  | ok result =>
      cases result with
      | none =>
          rw [main_of_usage hinit] at hstop
          cases hstop
      | some w =>
          rw [(main_of_world hinit rounds).2] at hstop
          refine mainLoop_pastHead (init_initial hinit) (init_headless hinit)
            (rounds.flatMap Round.events) ?_
          cases hrun : (mainLoop w (rounds.flatMap Round.events)).result with
          | ok w' =>
              rw [hrun] at hstop
              cases hstop
          | error e =>
              rw [hrun] at hstop
              cases hstop
              rfl

theorem Configured.maxLength (h : Configured env settings w) (t : AddressType) :
    (w.cacheset.temp t).maxLength = (capacity settings).toNat := by
  have hpos := capacity_pos settings
  rw [h.temp t]
  exact Lru.initCache_maxLength hpos

/-- Of the places that call `exit`, a head node with a record is never met, and the cache has no
slot left exactly where it has a length of one, at the first reply with an address to cache. -/
theorem main_exits (env : Environment) (name : Bytes) (settings : List (Setting × Bytes))
    (h : Accepted env settings) (rounds : List Round) :
    (main env (name :: commandLine settings) rounds).result ≠ .error .headRecord ∧
    ((main env (name :: commandLine settings) rounds).result = .error .noRemainSpace ↔
      capacity settings = 1 ∧ ∃ w, init env (name :: commandLine settings) = .ok (some w) ∧
        ∃ front e rest w₁, rounds.flatMap Round.events = front ++ e :: rest ∧
          (mainLoop w front).result = .ok w₁ ∧ Caches w₁ e) := by
  obtain ⟨w, hinit, hw⟩ := init_configured h name
  have hheads := init_headless hinit
  have hresult : ∀ e, (main env (name :: commandLine settings) rounds).result = .error e ↔
      (mainLoop w (rounds.flatMap Round.events)).result = .error e := by
    intro e
    rw [(main_of_world hinit rounds).2]
    cases (mainLoop w (rounds.flatMap Round.events)).result <;> simp [Except.map]
  rw [ne_eq, hresult, hresult]
  refine ⟨mainLoop_pastHead hw.initial hheads _, ?_⟩
  by_cases hone : capacity settings = 1
  · have hcaches : ∀ t, w.cacheset.temp t =
        Lru.initCache 1 cacheInfiniteSize (env.scaled 1) := by
      intro t
      rw [hw.temp t, hone]
    rw [mainLoop_single_exits_iff hw.initial.sized hheads hcaches]
    simp only [hone, true_and, hinit, Except.ok.injEq, Option.some.injEq, exists_eq_left']
  · have hcaches : ∀ t, (∃ l, Lru.Inv (w.cacheset.temp t) l) ∧
        2 ≤ (w.cacheset.temp t).maxLength := by
      intro t
      have hpos := capacity_pos settings
      refine ⟨hw.initial.inv t, ?_⟩
      rw [hw.maxLength t]
      omega
    simp only [hone, false_and, iff_false]
    exact mainLoop_has_slots hw.initial.sized hheads hcaches _

/-- A reply to the query 0 with the address of `a`. -/
def cachableReply : Bytes :=
  [0, 0, 0x81, 0x80, 0, 1, 0, 1, 0, 0, 0, 0, 1, 97, 0, 0, 1, 0, 1,
    0xc0, 12, 0, 1, 0, 1, 0, 0, 0, 60, 0, 4, 1, 2, 3, 4]

/-- The address of `a` is asked for, and the upstream server replies. -/
def addressRounds : List Round :=
  [.ready .unset (.arrived ⟨⟨2, 1, 1⟩, questionMessage 7 flagQuery [[97]] 1, 0, 0, 0⟩),
    .ready (.arrived ⟨⟨2, 53, 9⟩, cachableReply, 0, 0, 0⟩) .unset]

/-- Under `-c 1` that reply ends the program. -/
theorem main_exits_sample :
    capacity [(.cacheNum, [49])] = 1 ∧
      ∃ w, init sampleEnvironment ([100] :: commandLine [(.cacheNum, [49])]) = .ok (some w) ∧
        ∃ front e rest w₁, addressRounds.flatMap Round.events = front ++ e :: rest ∧
          (mainLoop w front).result = .ok w₁ ∧ Caches w₁ e := by
  have haccepted : Accepted sampleEnvironment [(.cacheNum, [49])] :=
    ⟨by decide, by decide, by decide, by decide⟩
  have hexit : stopOf (main sampleEnvironment ([100] :: commandLine [(.cacheNum, [49])])
      addressRounds).result = some .noRemainSpace := by
    decide +kernel
  refine (main_exits sampleEnvironment [100] [(.cacheNum, [49])] haccepted addressRounds).2.mp ?_
  cases hresult : (main sampleEnvironment ([100] :: commandLine [(.cacheNum, [49])])
      addressRounds).result with
  | ok w =>
      rw [hresult] at hexit
      cases hexit
  | error e =>
      rw [hresult] at hexit
      cases hexit
      rfl

/-- In every run that goes on, each reply with an address to cache has found its cache with fewer
records than its length less one. The program does not go on from a full cache by evicting. -/
theorem main_never_full (env : Environment) (name : Bytes) (settings : List (Setting × Bytes))
    (h : Accepted env settings) (hcapacity : 4 ≤ capacity settings) (rounds : List Round)
    (w' : World) (hrun : (main env (name :: commandLine settings) rounds).result = .ok (some w'))
    (w : World) (hinit : init env (name :: commandLine settings) = .ok (some w))
    (front rest : List Event) (e : Event)
    (hevents : rounds.flatMap Round.events = front ++ e :: rest) (w₁ : World)
    (hfront : (mainLoop w front).result = .ok w₁) (t : AddressType) (op : Lru.CacheOp)
    (hcall : cacheCall t w₁ e = some op) (hset : op.isSet = true) :
    ((w₁.cacheset.temp t).length : ℤ) < capacity settings - 1 := by
  obtain ⟨v, hinit', hv⟩ := init_configured h name
  cases hinit.symm.trans hinit'
  rw [(main_of_world hinit rounds).2, hevents] at hrun
  obtain ⟨w₂, hloop, -⟩ := map_eq_ok.mp hrun
  have hmax : (w₁.cacheset.temp t).maxLength = (capacity settings).toNat :=
    ((mainLoop_keeps (Q := fun c => c.maxLength = (capacity settings).toNat) hv.initial.sized
      (fun t => ⟨hv.initial.inv t, hv.maxLength t⟩)
      (fun _ _ hinv hq hexec => by rw [(Lru.exec_inv hinv hexec).1.1]; exact hq) hfront).2 t).2
  by_contra hlength
  have hfull : Lru.isFull (w₁.cacheset.temp t) = true := by
    rw [Lru.isFull, decide_eq_true_eq, hmax]
    omega
  exact mainLoop_full_ends hv.initial hfront hcall hset hfull (by omega) w₂ hloop

/-- Under `-c 5` the program goes on from that reply, before which the cache was empty. -/
theorem main_never_full_sample :
    ∃ w w₁, init sampleEnvironment ([100] :: commandLine [(.cacheNum, [53])]) = .ok (some w) ∧
      (mainLoop w (addressRounds.flatMap Round.events).dropLast).result = .ok w₁ ∧
      ((w₁.cacheset.temp .A).length : ℤ) < 4 := by
  have haccepted : Accepted sampleEnvironment [(.cacheNum, [53])] :=
    ⟨by decide, by decide, by decide, by decide⟩
  have hends : (main sampleEnvironment ([100] :: commandLine [(.cacheNum, [53])])
      addressRounds).result.map Option.isSome = .ok true := by
    decide +kernel
  obtain ⟨found, hrun, hsome⟩ := map_eq_ok.mp hends
  obtain ⟨w', rfl⟩ := Option.isSome_iff_exists.mp hsome
  have hcalls : (init sampleEnvironment ([100] :: commandLine [(.cacheNum, [53])]) >>= fun w =>
      (mainLoop (w.getD (booted 0)) (addressRounds.flatMap Round.events).dropLast).result >>=
        fun w₁ => pure ((cacheCall .A w₁ (.relay ⟨2, 53, 9⟩ cachableReply 0 0)).map
          Lru.CacheOp.isSet)) = .ok (some true) := by
    decide +kernel
  obtain ⟨v, hinit, hcalls⟩ := bind_eq_ok.mp hcalls
  obtain ⟨w₁, hfront, hcalled⟩ := bind_eq_ok.mp hcalls
  obtain ⟨w, hinit', hw⟩ := init_configured haccepted [100]
  cases hinit.symm.trans hinit'
  have hcalls' : (cacheCall .A w₁ (.relay ⟨2, 53, 9⟩ cachableReply 0 0)).map
      Lru.CacheOp.isSet = some true := Except.ok.inj hcalled
  obtain ⟨op, hcall, hset⟩ := Option.map_eq_some_iff.mp hcalls'
  exact ⟨w, w₁, hinit', hfront, main_never_full sampleEnvironment [100] [(.cacheNum, [53])]
    haccepted (by decide) addressRounds w' hrun w hinit' _ [] _ rfl w₁ hfront .A op hcall hset⟩

end Program

end DnsRelay.Relay
