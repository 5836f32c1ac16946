import DnsRelay.Relay.Blacklist
import DnsRelay.Relay.Exits
import DnsRelay.Relay.Remembering
import DnsRelay.Relay.Translation
import DnsRelay.Relay.Waiting

/-!
# The program as a service

Under stimuli that the service is meant for, every step of the loop returns, does to the
variables of the program what the service does to its state, and sends what the service says.
So does the whole program, from its command line on.
-/

namespace DnsRelay.Relay

open DnsRelay.Message DnsRelay.Adapter DnsRelay.Static DnsRelay.LocalRecord DnsRelay.Lib
open DnsRelay.Lib.Machine Function

section Relation

variable {net : InetPton} {rs : List (Bytes × Bytes)} {n : ℕ} {w w' : World} {s s' : Service}

/-- The variables of the program hold the state of the service. -/
structure Serves (net : InetPton) (rs : List (Bytes × Bytes)) (n : ℕ) (w : World) (s : Service) :
    Prop where
  sized : w.Sized
  fromFile : FromFile net rs w.cacheset
  memory : ∀ t, Remembers n t (w.cacheset.temp t) (s.memory t)
  waits : Waits w.adapter s
  upstream : s.upstream = w.queryServer

/-- The step returns, follows the service and sends what the service says. -/
def Follows (net : InetPton) (rs : List (Bytes × Bytes)) (n : ℕ) (o : Output Datagram Stop World)
    (p : Service × List Notice) : Prop :=
  ∃ w', o.result = .ok w' ∧ Serves net rs n w' p.1 ∧ List.Forall₂ Notice.Says p.2 o.sent

/-- The arrays and the stores of the file take care of themselves. -/
theorem Serves.next (h : Serves net rs n w s) {e : Event} (hstep : (step w e).result = .ok w')
    (hmemory : ∀ t, Remembers n t (w'.cacheset.temp t) (s'.memory t))
    (hwaits : Waits w'.adapter s') (hupstream : s'.upstream = w'.queryServer) :
    Serves net rs n w' s' := by
  obtain ⟨hs, hstores⟩ := (step_stores h.sized e).result w' hstep
  exact ⟨hs, h.fromFile.stores hstores, hmemory, hwaits, hupstream⟩

theorem Serves.tick (h : Serves net rs n w s) (clock : Slot → ℤ) :
    Follows net rs n (step w (.sweep clock)) (s.tick clock) := by
  obtain ⟨b, hresult, hwaits, hsent⟩ := h.waits.sweep clock
  have hstep : (step w (.sweep clock)).result = .ok { w with adapter := b } := by
    rw [step, Output.result_bind, hresult]
    rfl
  have hsame : (step w (.sweep clock)).sent = (w.adapter.sweep clock).sent :=
    Output.sent_bind_of_nil _ fun _ => rfl
  have htold : (s.tick clock).2 = s.expirations clock := by rw [Service.tick]
  rw [← hsame, ← htold] at hsent
  exact ⟨_, hstep, h.next hstep h.memory hwaits h.upstream, hsent⟩

end Relation

section Ask

variable {net : InetPton} {rs : List (Bytes × Bytes)} {n : ℕ} {w : World} {s : Service}
  {q : Inquiry} {message : Bytes} {client : SockaddrIn} {clock now time : ℤ} {t : AddressType}

namespace Inquiry.In

theorem received_eq (h : q.In message) : received message = message :=
  received_eq_self_iff.mpr h.length_le

theorem hasAt_receive (h : q.In message) {p : ℕ} {b : Bytes} (hb : HasAt message p b) :
    HasAt (receive w message).recvBuffer p b := by
  rw [receive, h.received_eq]
  exact hb.append_right _

/-- The question is read as it was asked. -/
theorem read (h : q.In message) (hs : w.Sized) :
    ∃ label, readDnsQuestions w.question (receive w message).recvBuffer =
        .ok (⟨label, q.qtype, q.qclass⟩, 1) ∧
      label.length = maxNameLength ∧ cString label = .ok q.name := by
  have hlt : (dotted q.labels).length < w.question.label.length := by
    rw [hs.label, maxNameLength]
    exact Nat.lt_of_le_of_lt h.name_le (by decide)
  obtain ⟨label, hread, hlength, hlabel⟩ := readDnsQuestions_wireName h.ne_nil h.valid hlt
    (by decide) (h.qtype_lt.trans (by decide)) h.qclass_lt (h.hasAt_receive h.qdcount)
    (h.hasAt_receive h.question)
  exact ⟨label, hread, hlength.trans hs.label, hlabel⟩

/-- It gets to the part of the handler that serves it. -/
theorem step_eq (h : q.In message) (w : World) (client : SockaddrIn) (clock now time : ℤ) :
    step w (.request client message clock now time) =
      serveQuestion (receive w message) q.id client message.length clock now time := by
  have hh : readDnsHeader (receive w message).recvBuffer = .ok ⟨q.id, htons flagQuery⟩ :=
    readDnsHeader_of_hasAt (h.hasAt_receive h.id) h.id_lt (h.hasAt_receive h.flags) (by decide)
  rw [step, handleRequest_of_query hh rfl, h.received_eq]

theorem request (h : q.In message) (ht : q.qtype = t.code) :
    AddressRequest t message q.labels q.id q.qclass := by
  have hsame := h.received_eq
  have hquestion := h.question
  rw [ht] at hquestion
  exact ⟨by rw [hsame]; exact h.id, by rw [hsame]; exact h.flags, by rw [hsame]; exact h.qdcount,
    by rw [hsame]; exact h.nscount, by rw [hsame]; exact h.adcount, by rw [hsame]; exact hquestion,
    h.qclass_lt⟩

end Inquiry.In

/-- What the lookup of the name finds, once the question has been read. -/
def Finds (w : World) (q : Inquiry) (message : Bytes) (now time : ℤ) (cs : CacheSet)
    (found : List (IP × ℕ)) : Prop :=
  ∀ question : Question, question.qtype = q.qtype →
    lookUp { receive w message with question := question } q.name now time =
      .ok ({ receive w message with question := question, cacheset := cs }, found)

/-- Addresses that are found are sent to the client, under the name and the id of the question. -/
theorem Serves.answer {cs : CacheSet} {found : List (IP × ℕ)} {s' : Service}
    (h : Serves net rs n w s) (hin : q.In message) (ht : q.qtype = t.code)
    (hblack : getStaticCache w.cacheset.blacklist q.name = .ok none)
    (hfound : Finds w q message now time cs found) (hne : found ≠ [])
    (hroom : q.Room t found.length) (hmemory : ∀ t, Remembers n t (cs.temp t) (s'.memory t))
    (hpending : s'.pending = s.pending) (hcursor : s'.cursor = s.cursor)
    (hupstream : s'.upstream = s.upstream) :
    Follows net rs n (step w (.request client message clock now time))
      (s', [.answer client q (found.map (foundRecord t q.labels q.qclass))]) := by
  obtain ⟨label, hread, hlength, hlabel⟩ := hin.read h.sized
  obtain ⟨hcount, hfits⟩ := hroom
  rw [ht] at hread
  obtain ⟨ans, buffer, size, reply, hfill, hwrite, hreply, hid, hdecodes⟩ :=
    (hin.request ht).encoded h.sized hin.ne_nil hin.valid hin.name_le hcount (by omega) label
  have hlook := hfound ⟨label, t.code, q.qclass⟩ ht.symm
  have hserve : serveQuestion (receive w message) q.id client message.length clock now time = _ :=
    serveQuestion_found hread hlabel hblack hlook hne hfill hwrite hreply
  have hstep := (hin.step_eq w client clock now time).trans hserve
  have hdatagram :
      Notice.Says (.answer client q (found.map (foundRecord t q.labels q.qclass)))
        ⟨.server, client, reply⟩ := by
    refine ⟨rfl, rfl, hid, ?_⟩
    rw [ht]
    exact hdecodes
  have hresult := congrArg Output.result hstep
  refine ⟨_, hresult, h.next hresult hmemory ?_ (hupstream.trans h.upstream), ?_⟩
  · exact ⟨h.waits.terminated, fun k => by rw [hpending]; exact h.waits.pending k,
      hcursor.trans h.waits.cursor⟩
  · rw [hstep]
    exact .cons hdatagram .nil

theorem forward_memory (s : Service) (client : SockaddrIn) (q : Inquiry) (message : Bytes)
    (clock : ℤ) : (s.forward client q message clock).1.memory = s.memory ∧
      (s.forward client q message clock).1.upstream = s.upstream := by
  unfold Service.forward
  split <;> exact ⟨rfl, rfl⟩

/-- A question for which nothing is found is passed on. -/
theorem Serves.pass {cs : CacheSet} (h : Serves net rs n w s) (hin : q.In message)
    (hblack : getStaticCache w.cacheset.blacklist q.name = .ok none)
    (hfound : Finds w q message now time cs [])
    (hmemory : ∀ t, Remembers n t (cs.temp t) (s.memory t)) :
    Follows net rs n (step w (.request client message clock now time))
      (s.forward client q message clock) := by
  obtain ⟨label, hread, hlength, hlabel⟩ := hin.read h.sized
  have hr := receive_sized h.sized message
  have hlook := hfound ⟨label, q.qtype, q.qclass⟩ rfl
  have hserve : serveQuestion (receive w message) q.id client message.length clock now time = _ :=
    serveQuestion_missing hread hlabel hblack hlook
  have hstep := (hin.step_eq w client clock now time).trans hserve
  have htake : (receive w message).recvBuffer.take message.length = message := by
    have hsame := receive_take w message
    rwa [hin.received_eq] at hsame
  have hs : World.Sized { receive w message with
      question := ⟨label, q.qtype, q.qclass⟩, cacheset := cs } :=
    ⟨hr.recvBuffer, hr.message, hlength, hr.ans⟩
  obtain ⟨w', hrelay, hcs, hserver, hwaits, hsent⟩ := relayQuery_forwards hs h.waits h.upstream
    hin.length_le htake rfl hin.qtype_lt hin.id_lt clock
  obtain ⟨hsame, hup⟩ := forward_memory s client q message clock
  have hresult := (congrArg Output.result hstep).trans hrelay
  refine ⟨w', hresult, h.next hresult (fun t => ?_) hwaits ?_, ?_⟩
  · rw [CacheSet.temp, hcs, hsame]
    exact hmemory t
  · rw [hup, hserver]
    exact h.upstream
  · rw [hstep]
    exact hsent

section Directory

variable {cs : CacheSet}

/-- Whether the directory blocks a name is whether the blacklist has it. -/
theorem FromFile.blacklist (h : FromFile net rs cs) (name : Label) :
    if (directory net rs).blocked name then
      ∃ record, getStaticCache cs.blacklist name = .ok (some record)
    else getStaticCache cs.blacklist name = .ok none := by
  obtain ⟨ips, hlisted, -, hnone⟩ := h.black name
  obtain ⟨record, hrecord, -⟩ := bind_eq_ok.mp hlisted
  by_cases hnil : given net .black rs name = []
  · have hfree : (directory net rs).blocked name = false := by
      simp only [directory, hnil, List.isEmpty_nil, Bool.not_true]
    rw [hfree, if_neg Bool.false_ne_true]
    exact hnone.mpr hnil
  · have hblocked : (directory net rs).blocked name = true := by
      simp only [directory, List.isEmpty_eq_false_iff.mpr hnil, Bool.not_false]
    rw [hblocked, if_pos rfl]
    cases record with
    | some record => exact ⟨record, hrecord⟩
    | none => exact absurd (hnone.mp hrecord) hnil

/-- The addresses of the directory are those of the store. -/
theorem FromFile.addresses (h : FromFile net rs cs) (name : Label) :
    ∃ ips, listed cs.A.localStore name = .ok ips ∧
      (directory net rs).addresses name = ips.map (fun ip => ip.addr.toList.take 4) ∧
      (ips = [] → getStaticCache cs.A.localStore name = .ok none) := by
  obtain ⟨ips, hlisted, hips, hnone⟩ := h.local4 name
  refine ⟨ips, hlisted, ?_, fun hnil => hnone.mpr (by rw [← hips, hnil]; rfl)⟩
  have hmap : (directory net rs).addresses name = (ips.map addressOf).map Address.bytes := by
    rw [hips]
    rfl
  rw [hmap, List.map_map]
  apply List.map_congr_left
  intro ip hip
  exact given_v4 (hips ▸ List.mem_map_of_mem hip)

end Directory

section Lookup

/-- A local record is found with its addresses. -/
theorem finds_listed {ips : List IP} (h : Listed w.cacheset t q.labels ips) (ht : q.qtype = t.code)
    (message : Bytes) (now time : ℤ) :
    Finds w q message now time w.cacheset (ips.map (·, localTtl)) := by
  intro question hquestion
  exact lookUp_listed (w := { receive w message with question := question }) h (hquestion.trans ht)

/-- Without a local record the cache is asked. -/
theorem finds_cached {temp : Lru.Cache} {data : Option (List Lru.RecordData)}
    (ht : q.qtype = t.code)
    (hlocal : getStaticCache (w.cacheset.compound t).localStore q.name = .ok none)
    (hget : Lru.getCacheARecord (w.cacheset.temp t) q.name now = .ok (temp, data))
    (message : Bytes) (time : ℤ) :
    Finds w q message now time (w.cacheset.setTemp t temp) (remaining time (data.getD [])) := by
  intro question hquestion
  have hin : lookUpIn (w.cacheset.compound t) q.name now time =
      .ok ({ w.cacheset.compound t with temp := temp }, remaining time (data.getD [])) := by
    have hget' : Lru.getCacheARecord (w.cacheset.compound t).temp q.name now =
      .ok (temp, data) := hget
    simp only [lookUpIn, hlocal, hget', bind, Except.bind]
    rfl
  rw [ht] at hquestion
  cases t with
  | A =>
      have hA : question.qtype = rrtypeA := hquestion
      have hin' : lookUpIn (receive w message).cacheset.A q.name now time = _ := hin
      simp only [lookUp, hA, if_true, hin', bind, Except.bind]
      rfl
  | AAAA =>
      have hAAAA : question.qtype = rrtypeAAAA := hquestion
      have hA : ¬ rrtypeAAAA = rrtypeA := by decide
      have hin' : lookUpIn (receive w message).cacheset.AAAA q.name now time = _ := hin
      simp only [lookUp, hAAAA, hA, if_false, if_true, hin', bind, Except.bind]
      rfl

/-- A question for anything else finds nothing. -/
theorem finds_other (h : ∀ t : AddressType, q.qtype ≠ t.code) (message : Bytes) (now time : ℤ) :
    Finds w q message now time w.cacheset [] := by
  intro question hquestion
  have hA : ¬ question.qtype = rrtypeA := fun heq => h .A (hquestion.symm.trans heq)
  have hAAAA : ¬ question.qtype = rrtypeAAAA := fun heq => h .AAAA (hquestion.symm.trans heq)
  simp only [lookUp, hA, hAAAA, if_false]
  rfl

end Lookup

section Records

/-- The time left, narrowed to `uint32_t` and read back as `int`: a negative rest becomes zero. -/
theorem ttlField_left {x : ℤ} (hlow : -2 ^ 31 ≤ x) (hhigh : x < 2 ^ 31) :
    ttlField (x % 2 ^ 32).toNat = x.toNat := by
  unfold ttlField
  by_cases hpos : 0 ≤ x
  · have hmod : x % 2 ^ 32 = x := Int.emod_eq_of_lt hpos (by omega)
    rw [hmod, if_pos (by omega)]
    omega
  · have hmod : x % 2 ^ 32 = x + 2 ^ 32 := by omega
    rw [hmod, if_neg (by omega)]
    omega

theorem map_foundRecord_aged {data : List Lru.RecordData} (ht : q.qtype = t.code)
    (hnear : ∀ a ∈ data.map (learnedOf t), -2 ^ 31 ≤ a.expiry - time ∧ a.expiry - time < 2 ^ 31) :
    (remaining time data).map (foundRecord t q.labels q.qclass) =
      (data.map (learnedOf t)).map (q.aged time) := by
  rw [remaining, List.map_map, List.map_map]
  apply List.map_congr_left
  intro d hd
  obtain ⟨hlow, hhigh⟩ := hnear _ (List.mem_map_of_mem hd)
  have hleft : ttlField ((d.ttl - time) % 2 ^ 32).toNat = (d.ttl - time).toNat :=
    ttlField_left hlow hhigh
  simp only [Function.comp_apply, foundRecord, hleft, Inquiry.aged, Inquiry.record, learnedOf, ht]

theorem map_foundRecord_directory {ips : List IP} (ht : q.qtype = rrtypeA) :
    (ips.map (·, localTtl)).map (foundRecord .A q.labels q.qclass) =
      (ips.map fun ip => ip.addr.toList.take 4).map (q.record localTtl) := by
  rw [map_foundRecord_local, List.map_map]
  apply List.map_congr_left
  intro ip _
  simp only [localRecord, Function.comp_apply, Inquiry.record, ht]
  rfl

end Records

theorem Serves.consult (h : Serves net rs n w s) (hin : q.In message) (ht : q.qtype = t.code)
    (hblack : getStaticCache w.cacheset.blacklist q.name = .ok none)
    (hlocal : getStaticCache (w.cacheset.compound t).localStore q.name = .ok none)
    (hfresh : ∀ learned, (s.memory t).value q.name = some learned →
      q.Fresh t now time learned) :
    Follows net rs n (step w (.request client message clock now time))
      (s.consult t client q message clock time) := by
  obtain ⟨temp, found, hget, hremembers, hvalue, hne⟩ :=
    (h.memory t).get fun learned hlearned => (hfresh learned hlearned).valid
  have hfinds := finds_cached ht hlocal hget message time
  have hmemory : ∀ t', Remembers n t' ((w.cacheset.setTemp t temp).temp t')
      (update s.memory t ((s.memory t).get q.name).1 t') := by
    intro t'
    by_cases ht' : t' = t
    · rw [ht', CacheSet.temp_setTemp_self, update_self]
      exact hremembers
    · rw [CacheSet.temp_setTemp_of_ne ht', update_of_ne ht']
      exact h.memory t'
  cases found with
  | none =>
      have hmiss : (s.memory t).get q.name = (s.memory t, none) :=
        LruMap.get_of_none hvalue.symm
      rw [hmiss, update_eq_self] at hmemory
      rw [Service.consult, hmiss]
      exact h.pass hin hblack hfinds hmemory
  | some data =>
      have hhit : (s.memory t).get q.name =
          (((s.memory t).get q.name).1, some (data.map (learnedOf t))) :=
        Prod.ext rfl ((LruMap.get_snd _ _).trans hvalue.symm)
      have hf := hfresh _ hvalue.symm
      have hconsult : s.consult t client q message clock time =
          ({ s with memory := update s.memory t ((s.memory t).get q.name).1 },
            [.answer client q ((data.map (learnedOf t)).map (q.aged time))]) := by
        rw [Service.consult, hhit]
      rw [hconsult, ← map_foundRecord_aged ht hf.near]
      have hsome : remaining time data ≠ [] := by
        rw [remaining, ne_eq, List.map_eq_nil_iff]
        rintro rfl
        exact hne rfl
      refine h.answer hin ht hblack hfinds hsome ?_ hmemory rfl rfl rfl
      have hroom := hf.room
      rw [List.length_map] at hroom
      rwa [remaining, List.length_map]

/-- A blocked name is answered with a name error. -/
theorem Serves.block (h : Serves net rs n w s) (hin : q.In message)
    (hblack : ∃ record, getStaticCache w.cacheset.blacklist q.name = .ok (some record)) :
    Follows net rs n (step w (.request client message clock now time))
      (s, [.nameError client message]) := by
  have hname : HasAt message 12 (wireName q.labels) := by
    have hat := hin.question
    rw [questionBytes, List.append_assoc, hasAt_append] at hat
    exact hat.1
  have hblocked : Blocked (receive w message) q.labels :=
    ⟨hin.ne_nil, hin.valid, hin.name_le, hblack, hin.hasAt_receive hname⟩
  obtain ⟨question, hserve⟩ := serveQuestion_blocked (receive_sized h.sized message) hblocked q.id
    client message.length clock now time
  have hstep := (hin.step_eq w client clock now time).trans hserve
  have hresult := congrArg Output.result hstep
  have hdata : 4 ≤ message.length := by
    have hlength := hname.le_length (by simp [wireName])
    omega
  have hbytes : (((receive w message).recvBuffer.set 2 0x80).set 3 0x03).take message.length =
      withFlags 0x8003 message := by
    rw [receive, hin.received_eq]
    exact take_set_flags hdata _ _
  rw [hbytes] at hstep
  refine ⟨_, hresult, h.next hresult h.memory h.waits h.upstream, ?_⟩
  rw [hstep]
  exact .cons rfl .nil

/-- A question does what the service does with it. -/
theorem Serves.ask (h : Serves net rs n w s)
    (hp : s.Proper n (directory net rs) (.ask client q message clock now time)) :
    Follows net rs n (step w (.request client message clock now time))
      (s.ask (directory net rs) client q message clock time) := by
  obtain ⟨hin, hroom, hfresh⟩ := hp
  have hblack := h.fromFile.blacklist q.name
  unfold Service.ask
  split
  next hblocked =>
    rw [if_pos hblocked] at hblack
    exact h.block hin hblack
  next hfree =>
    rw [if_neg hfree] at hblack
    cases hcode : AddressType.ofCode q.qtype with
    | none =>
        have hother := finds_other (w := w) (AddressType.ofCode_eq_none.mp hcode) message now time
        exact h.pass hin hblack hother h.memory
    | some t =>
        have ht := AddressType.ofCode_eq_some.mp hcode
        obtain ⟨ips, hlisted, haddresses, hnone⟩ := h.fromFile.addresses q.name
        dsimp only
        unfold Service.lookUp
        split
        next hdirectory =>
          obtain ⟨rfl, hne⟩ := hdirectory
          have hips : ips ≠ [] := by
            rintro rfl
            exact hne haddresses
          have hl : Listed w.cacheset .A q.labels ips := ⟨hblack, hlisted, hips⟩
          have hsome : ips.map (·, localTtl) ≠ [] := by
            rwa [ne_eq, List.map_eq_nil_iff]
          have hfits := hroom ht
          rw [haddresses, List.length_map] at hfits
          rw [haddresses, ← map_foundRecord_directory ht]
          refine h.answer hin ht hblack (finds_listed hl ht message now time) hsome ?_ h.memory
            rfl rfl rfl
          rwa [List.length_map]
        next hdirectory =>
          refine h.consult hin ht hblack ?_ fun learned hlearned => hfresh t learned ht hlearned
          cases t with
          | AAAA => exact h.fromFile.local6 q.name
          | A =>
              refine hnone ?_
              by_contra hips
              refine hdirectory ⟨rfl, ?_⟩
              rwa [haddresses, ne_eq, List.map_eq_nil_iff]

end Ask

section Tell

variable {net : InetPton} {rs : List (Bytes × Bytes)} {n : ℕ} {w : World} {s : Service}
  {r : Report} {message : Bytes} {sender : SockaddrIn} {now time : ℤ}

/-- A report does what the service does with it. -/
theorem Serves.tell {d : Directory} (h : Serves net rs n w s)
    (hp : s.Proper n d (.tell sender r message now time)) :
    Follows net rs n (step w (.relay sender message now time))
      (s.tell sender r message now time) := by
  obtain ⟨hlen, hslot, hproper⟩ := hp
  obtain ⟨header, hh, hk⟩ := slotOf_of_hasAt h.sized hslot
  have hwaiting := h.waits.pending r.slot
  unfold Service.tell
  cases hv : (w.adapter.data r.slot).valid with
  | false =>
      rw [pendingOf_eq_none.mpr hv] at hwaiting
      have hget : w.adapter.get (toShort header.id) = .ok none := by
        rw [IDAdapter.get_of_slotOf hk, IDAdapter.outstanding_eq_none.mpr hv]
      have hstep : step w (.relay sender message now time) =
          ⟨[], .ok (relayed w sender message)⟩ :=
        handleRelay_of_free hh hget
      have hresult := congrArg Output.result hstep
      rw [hwaiting]
      refine ⟨_, hresult, h.next hresult h.memory
        ⟨h.waits.terminated, h.waits.pending, h.waits.cursor⟩ rfl, ?_⟩
      rw [hstep]
      exact .nil
  | true =>
      rw [pendingOf_of_valid hv] at hwaiting
      obtain ⟨w₁, hcached, hmemory⟩ := cacheAnswers_learns h.sized hlen h.memory
        (fun t ht => hproper t _ hwaiting ht) sender
      obtain ⟨w₂, hdelivered, hcacheset⟩ := handleRelay_of_outstanding hh hk
        (IDAdapter.outstanding_eq_some.mpr ⟨hv, rfl⟩) hcached
      have hresult : (step w (.relay sender message now time)).result = .ok w₂ :=
        hdelivered.result
      have hsent : (step w (.relay sender message now time)).sent = _ := hdelivered.sent
      rw [hwaiting]
      refine ⟨w₂, hresult, h.next hresult (fun t => ?_) (h.waits.deliver hdelivered rfl rfl)
        hdelivered.queryServer_eq.symm, ?_⟩
      · rw [CacheSet.temp, hcacheset]
        exact hmemory t
      · rw [hsent, received_eq_self_iff.mpr hlen]
        exact .cons rfl .nil

end Tell

section Runs

variable {net : InetPton} {rs : List (Bytes × Bytes)} {n : ℕ} {w : World} {s : Service}

/-- What the program sees of a stimulus. -/
def Stimulus.event : Stimulus → Event
  | .tick clock => .sweep clock
  | .ask client _ message clock now time => .request client message clock now time
  | .tell sender _ message now time => .relay sender message now time

/-- Every step on a stimulus that the service is meant for follows the service. -/
theorem Serves.step (h : Serves net rs n w s) {stimulus : Stimulus}
    (hp : s.Proper n (directory net rs) stimulus) :
    Follows net rs n (Relay.step w stimulus.event) (s.step (directory net rs) stimulus) := by
  cases stimulus with
  | tick clock => exact h.tick clock
  | ask client q message clock now time => exact h.ask hp
  | tell sender r message now time => exact h.tell hp

/-- Before anything has happened. -/
def Service.start (upstream : SockaddrIn) : Service where
  memory := fun _ => LruMap.empty
  pending := fun _ => none
  cursor := 0
  upstream := upstream

/-- The directory of the chosen file. -/
def chosenDirectory (env : Environment) (settings : List (Setting × Bytes)) : Directory :=
  directory env.net (chosenRecords env settings)

/-- The service before anything has happened, with the chosen upstream server. -/
def chosenService (env : Environment) (settings : List (Setting × Bytes)) : Service :=
  .start (initQueryServer (serverAddr env.net (chosenServer settings)))

/-- The service, set up as these settings ask, is meant for these stimuli. -/
def Admitted (env : Environment) (settings : List (Setting × Bytes)) (stimuli : List Stimulus) :
    Prop :=
  Output.Admits (Service.step (chosenDirectory env settings))
    (Service.Proper (capacity settings).toNat (chosenDirectory env settings))
    (chosenService env settings) stimuli

/-- The state that the service is in after these stimuli, and what it has said at each. -/
def serviceRun (env : Environment) (settings : List (Setting × Bytes)) (stimuli : List Stimulus) :
    Service × List (List Notice) :=
  totalRun (Service.step (chosenDirectory env settings)) (chosenService env settings) stimuli

/-- The program starts as the service does. -/
theorem Configured.serves {env : Environment} {settings : List (Setting × Bytes)}
    (h : Configured env settings w) :
    Serves env.net (chosenRecords env settings) (capacity settings).toNat w
      (chosenService env settings) where
  sized := h.initial.sized
  fromFile := h.fromFile
  memory := by
    intro t
    refine ⟨h.maxLength t, [], LruMap.empty, ?_, rfl⟩
    rw [h.temp t]
    exact Lru.initCache_represents (capacity_pos settings) (by decide)
  waits := by
    rw [h.adapter]
    exact ⟨fun _ => List.getElem?_replicate_of_lt (by decide), fun _ => rfl, rfl⟩
  upstream := h.queryServer.symm

/-- From there its runs are those of the service. -/
theorem Configured.follows {env : Environment} {settings : List (Setting × Bytes)}
    {stimuli : List Stimulus} (h : Configured env settings w)
    (hproper : Admitted env settings stimuli) :
    ∃ w', (mainLoop w (stimuli.map Stimulus.event)).result = .ok w' ∧
      Serves env.net (chosenRecords env settings) (capacity settings).toNat w'
        (serviceRun env settings stimuli).1 ∧
      List.Forall₂ Notice.Says (serviceRun env settings stimuli).2.flatten
        (mainLoop w (stimuli.map Stimulus.event)).sent :=
  Output.run_simulates
    (Serves env.net (chosenRecords env settings) (capacity settings).toNat) Notice.Says
    (fun _ _ _ hs hp => hs.step hp) h.serves hproper

/-- Under all accepted settings and every sequence of rounds whose events are stimuli that the
service is meant for, the program goes on, its variables hold the state of the service, and it
sends what the service says, in this order and nothing else. -/
theorem main_serves (env : Environment) (name : Bytes) (settings : List (Setting × Bytes))
    (h : Accepted env settings) (stimuli : List Stimulus)
    (hproper : Admitted env settings stimuli) (rounds : List Round)
    (hrounds : rounds.flatMap Round.events = stimuli.map Stimulus.event) :
    ∃ w, (main env (name :: commandLine settings) rounds).result = .ok (some w) ∧
      Serves env.net (chosenRecords env settings) (capacity settings).toNat w
        (serviceRun env settings stimuli).1 ∧
      List.Forall₂ Notice.Says (serviceRun env settings stimuli).2.flatten
        (main env (name :: commandLine settings) rounds).sent := by
  obtain ⟨v, hinit, hv⟩ := init_configured h name
  obtain ⟨w, hrun, hserves, hsays⟩ := hv.follows hproper
  obtain ⟨hsent, hresult⟩ := main_of_world hinit rounds
  rw [hsent, hresult, hrounds, hrun]
  exact ⟨w, rfl, hserves, hsays⟩

def askedFor (id : ℕ) : Inquiry := ⟨id, [[99]], 1, 1⟩

def askingFor (id : ℕ) : Bytes := questionMessage id flagQuery [[99]] 1

/-- The reply to the query 0 with the address of `c`. -/
def toldAddress : Bytes :=
  [0, 0, 0x81, 0x80, 0, 1, 0, 1, 0, 0, 0, 0, 1, 99, 0, 0, 1, 0, 1,
    0xc0, 12, 0, 1, 0, 1, 0, 0, 0, 60, 0, 4, 1, 2, 3, 4]

def toldReport : Report := ⟨0, [[99]], [⟨[[], [[99]]], 1, 1, 60, [1, 2, 3, 4]⟩]⟩

private theorem askedFor_valid : ∀ label ∈ [[99]], ValidLabel label := by
  intro label hlabel
  rw [List.mem_singleton.mp hlabel]
  exact ⟨by decide, by decide, by decide, by decide⟩

private theorem askedFor_in : (askedFor 7).In (askingFor 7) ∧ (askedFor 9).In (askingFor 9) := by
  constructor
  all_goals exact ⟨by decide, by decide, by decide, by decide, by decide, by decide, by decide,
    by decide, by decide, by decide, by decide, askedFor_valid, by decide⟩

private theorem toldReport_answers : toldReport.Answers .A toldAddress := by
  have hname : NameAt toldAddress 12 [[[99]]] 15 :=
    .label (by decide) (by decide) (by decide) (.zero (by decide))
  refine ⟨⟨1, by decide, by decide, by decide, by decide, by decide, 19, 35, ?_, ?_⟩, by decide,
    by decide, askedFor_valid, by decide, by decide, by decide⟩
  · exact ⟨_, 15, hname, by decide, rfl⟩
  · refine ⟨35, ⟨by decide, by decide, by decide, by decide, by decide, by decide, by decide,
      by decide, by decide⟩, ⟨21, ?_, by decide, rfl⟩, rfl⟩
    exact .pointer (by decide) (by decide) hname

/-- A client asks for `c`, the upstream server replies, and another client asks twenty seconds
later. -/
def askedTwice : List Stimulus :=
  [.ask ⟨2, 1, 1⟩ (askedFor 7) (askingFor 7) 0 0 0,
    .tell ⟨2, 53, 9⟩ toldReport toldAddress 0 0,
    .ask ⟨2, 2, 2⟩ (askedFor 9) (askingFor 9) 20 20 20]

private def askedTwiceRounds : List Round :=
  [.ready .unset (.arrived ⟨⟨2, 1, 1⟩, askingFor 7, 0, 0, 0⟩),
    .ready (.arrived ⟨⟨2, 53, 9⟩, toldAddress, 0, 0, 0⟩)
      (.arrived ⟨⟨2, 2, 2⟩, askingFor 9, 20, 20, 20⟩)]

theorem askedTwice_admitted :
    Admitted sampleEnvironment sampleSettings askedTwice := by
  refine ⟨⟨askedFor_in.1, fun _ => by decide, ?_⟩, ⟨by decide, by decide, ?_⟩,
    ⟨askedFor_in.2, fun _ => by decide, ?_⟩, trivial⟩
  · intro t learned _ hlearned
    cases hlearned
  · intro t p hp ht
    cases hp
    cases t with
    | A => exact ⟨toldReport_answers, fun _ => ⟨by decide, by decide⟩⟩
    | AAAA => exact absurd ht (by decide)
  · intro t learned ht hlearned
    cases t with
    | AAAA => exact absurd ht (by decide)
    | A =>
        cases hlearned
        exact ⟨by decide, by decide, by decide⟩

/-- The second client gets the address with the forty seconds that it has left. -/
theorem main_serves_sample :
    ∃ w, (main sampleEnvironment ([100] :: commandLine sampleSettings) askedTwiceRounds).result =
        .ok (some w) ∧
      List.Forall₂ Notice.Says
        [.forward ⟨2, 13568, 67699466⟩ 0 (askingFor 7), .deliver ⟨2, 1, 1⟩ 7 toldAddress,
          .answer ⟨2, 2, 2⟩ (askedFor 9) [⟨[[[99]]], 1, 1, 40, [1, 2, 3, 4]⟩]]
        (main sampleEnvironment ([100] :: commandLine sampleSettings) askedTwiceRounds).sent := by
  obtain ⟨w, hresult, -, hsays⟩ := main_serves sampleEnvironment [100] sampleSettings
    sampleSettings_accepted askedTwice askedTwice_admitted askedTwiceRounds rfl
  exact ⟨w, hresult, hsays⟩

end Runs

end DnsRelay.Relay
