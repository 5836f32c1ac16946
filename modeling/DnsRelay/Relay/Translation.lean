import DnsRelay.Lru.Refinement
import DnsRelay.Relay.Parsing

/-!
# Translation of ids

From the `push` that hands out an id until that id is taken back, its slot leads to the
origin of the query. So a query comes back to its client with the id the client chose,
provided that nothing is cut off by `recvfrom` and, where addresses were asked for, that the
reply can be read from its own bytes and the cache has room for it.
-/

namespace DnsRelay.Relay

open DnsRelay.Message DnsRelay.Adapter DnsRelay.Lib DnsRelay.Lib.Machine Function

section Wire

variable {w : World} {data buffer : Bytes} {id n : ℕ} {k : Slot}

@[simp] theorem replaceId_length (id : ℕ) (data : Bytes) :
    (replaceId id data).length = data.length := by
  simp only [replaceId, u16Bytes, List.length_take, List.length_append, List.length_cons,
    List.length_nil, List.length_drop]
  omega

/-- A message that survives `recvfrom` with another id has lost nothing. -/
theorem replaceId_received_iff :
    replaceId id (received data) = replaceId id data ↔ data.length ≤ 520 := by
  constructor
  · intro h
    have hlen := congrArg List.length h
    rw [replaceId_length, replaceId_length] at hlen
    have := received_length_le data
    omega
  · intro h
    rw [received_eq_self_iff.mpr h]

theorem hasAt_receive {s : Bytes} {p : ℕ} (h : HasAt data p s) (hp : p + s.length ≤ 520) :
    HasAt (receive w data).recvBuffer p s := by
  apply HasAt.append_right
  intro i hi
  rw [received, List.getElem?_take_of_lt (by simp only [maxDnsSize]; omega)]
  exact h i hi

theorem readDnsHeader_of_hasAt {flags : ℕ} (hid : HasAt buffer 0 (u16Bytes id))
    (hlt : id < 65536) (hflags : HasAt buffer 2 (u16Bytes flags)) (hf : flags < 65536) :
    readDnsHeader buffer = .ok ⟨id, htons flags⟩ := by
  have hid' : readU16 buffer 0 = .ok id := readU16_of_hasAt hlt hid
  have hflags' : readU16 buffer 2 = .ok flags := readU16_of_hasAt hf hflags
  simp [readDnsHeader, hid', hflags', bind, Except.bind, pure, Except.pure]

theorem readDnsHeader_id_eq {header : DnsHeader} (h : readDnsHeader buffer = .ok header)
    (hid : HasAt buffer 0 (u16Bytes id)) (hlt : id < 65536) : header.id = id := by
  have hid' : readU16 buffer 0 = .ok id := readU16_of_hasAt hlt hid
  obtain ⟨id', hr, h⟩ := bind_eq_ok.mp h
  obtain ⟨flags, -, h⟩ := bind_eq_ok.mp h
  cases h
  exact Except.ok.inj (hr.symm.trans hid')

theorem readDnsHeader_id (hlen : 4 ≤ buffer.length) (hid : HasAt buffer 0 (u16Bytes id))
    (hlt : id < 65536) : ∃ header, readDnsHeader buffer = .ok header ∧ header.id = id := by
  have hid' : readU16 buffer 0 = .ok id := readU16_of_hasAt hlt hid
  obtain ⟨flags, hflags⟩ := readU16_of_lt (show 2 + 1 < buffer.length by omega)
  have hflags' : readU16 buffer 2 = .ok flags := hflags
  exact ⟨⟨id, htons flags⟩, by simp [readDnsHeader, hid', hflags', bind, Except.bind, pure,
    Except.pure], rfl⟩

/-- A datagram that carries the id `k` leads to the slot `k`. -/
theorem slotOf_of_hasAt (hs : w.Sized) (hk : HasAt data 0 (u16Bytes k)) :
    ∃ header, readDnsHeader (receive w data).recvBuffer = .ok header ∧
      slotOf (toShort header.id) = .ok k := by
  have hlen : 4 ≤ (receive w data).recvBuffer.length := by
    rw [(receive_sized hs data).recvBuffer]
    omega
  obtain ⟨header, hh, hid⟩ := readDnsHeader_id hlen (hasAt_receive hk (by simp [u16Bytes]))
    (slot_lt k)
  refine ⟨header, hh, ?_⟩
  rw [hid]
  exact slotOf_toShort k

/-- The id on the wire tells the slots apart. -/
theorem slot_eq_of_hasAt {j : Slot} (h : HasAt (replaceId j data) 0 (u16Bytes k))
    (hlen : 2 ≤ data.length) : j = k := by
  have hj : HasAt (replaceId j data) 0 (u16Bytes j) := by
    match data, hlen with
    | _ :: _ :: rest, _ => simp [replaceId, u16Bytes]
  have hread := readU16_of_hasAt (slot_lt j) hj
  rw [readU16_of_hasAt (slot_lt k) h] at hread
  exact Fin.ext (Except.ok.inj hread).symm

end Wire

section Frame

variable {w w' : World} {k : Slot}

/-- The slot that the id of a datagram leads to. -/
def relaySlot (w : World) (data : Bytes) : Exec Slot := do
  let header ← readDnsHeader (receive w data).recvBuffer
  slotOf (toShort header.id)

/-- The event takes the id `k` back. -/
def Event.frees (k : Slot) (w : World) : Event → Bool
  | .sweep clock => IDAdapter.timedOut (w.adapter.data k) (clock k)
  | .relay _ data _ _ => decide (relaySlot w data = .ok k)
  | .request _ _ _ _ _ => false

/-- A round that does not take an outstanding id back leaves its slot as it is. -/
theorem step_frame {e : Event} (hk : (w.adapter.data k).valid = true)
    (hf : e.frees k w = false) (h : (step w e).result = .ok w') :
    w'.adapter.data k = w.adapter.data k := by
  cases e with
  | sweep clock => exact ((step_sweep w clock).result w' h).2.kept k hf
  | relay sender data now time =>
      rcases handleRelay_cases w sender data now time with hd | ⟨header, j, info, w'', hh, hj, hd⟩
      · rw [hd.data_eq w' h]
      · cases hd.result.symm.trans h
        rw [hd.freed]
        apply update_of_ne
        rintro rfl
        simp [Event.frees, relaySlot, hh, hj, bind, Except.bind] at hf
  | request client data clock now time =>
      rcases handleRequest_cases w client data clock now time with hd | ⟨id, front, bytes, w'', hd⟩
      · rw [hd.data_eq w' h]
      · cases hd.result.symm.trans h
        obtain ⟨type, start, message, hentry⟩ := hd.entry
        rw [hentry]
        apply update_of_ne
        rintro rfl
        rw [hd.free] at hk
        cases hk

/-- Until an outstanding id is taken back, its slot stays as it is. -/
theorem mainLoop_frame {events : List Event} (hk : (w.adapter.data k).valid = true)
    (hf : Output.along step (fun s e => !e.frees k s) w events = true)
    (h : (mainLoop w events).result = .ok w') : w'.adapter.data k = w.adapter.data k := by
  have hrun : Output.Ensures (fun _ => True) (mainLoop w events) fun s =>
      s.adapter.data k = w.adapter.data k := by
    refine Output.run_ensures ?_ (by rfl) hf
    intro s e hs he
    refine ⟨fun _ _ => trivial, fun t ht => ?_⟩
    rw [← hs] at hk ⊢
    exact step_frame hk (by simpa using he) ht
  exact hrun.result w' h

end Frame

section Translation

/-- What a query that is relayed leaves behind: the datagram on the wire and the entry
of its slot. -/
theorem handleRequest_relayed {w w' : World} {client : SockaddrIn} {data : Bytes} {id : ℕ}
    {clock now time : ℤ} {d : Datagram} (hid : HasAt data 0 (u16Bytes id)) (hlt : id < 65536)
    (hflags : HasAt data 2 (u16Bytes flagQuery))
    (hd : d ∈ (handleRequest w client data clock now time).sent) (hq : d.socket = .query)
    (h : (handleRequest w client data clock now time).result = .ok w') :
    d = ⟨.query, w.queryServer, replaceId w.adapter.next (received data)⟩ ∧
      ∃ type, w'.adapter.outstanding w.adapter.next = some ⟨client, UInt16.ofNat id, type⟩ := by
  have hh : readDnsHeader (receive w data).recvBuffer = .ok ⟨id, htons flagQuery⟩ :=
    readDnsHeader_of_hasAt (hasAt_receive hid (by simp [u16Bytes])) hlt
      (hasAt_receive hflags (by simp [u16Bytes])) (by decide)
  rw [handleRequest_of_query hh rfl] at hd h
  rcases serveQuestion_cases (receive w data) id client (received data).length clock now time
    with hs | ⟨w'', hs⟩
  · have := (hs.sent d hd).1
    rw [hq] at this
    cases this
  · cases hs.result.symm.trans h
    obtain ⟨type, start, message, hentry⟩ := hs.entry
    rw [hs.sent, List.nil_append, List.mem_singleton, receive_take] at hd
    refine ⟨hd, type, ?_⟩
    rw [IDAdapter.outstanding_eq_some, hentry]
    exact ⟨by simp [receive], by simp [receive]⟩

/-- The id that a `push` has returned is not handed out again, and leads to what was
pushed, until it is taken back. -/
theorem push_until_freed {a b c : IDAdapter} {id : UInt16} {source : SockaddrIn} {type : UInt8}
    {time : ℤ} {buffer : Bytes} {k : Slot} {ops : List AdapterOp} {rs : List AdapterResult}
    (hp : a.push id source type time buffer = .ok (b, some k))
    (hf : along AdapterOp.exec (fun s op => !op.frees k s) b ops = true)
    (h : run AdapterOp.exec b ops = .ok (c, rs)) :
    a.outstanding k = none ∧ c.outstanding k = some ⟨source, id, type⟩ := by
  obtain ⟨hnone, hsome⟩ := IDAdapter.push_some hp
  obtain ⟨hvalid, hinfo⟩ := IDAdapter.outstanding_eq_some.mp hsome
  refine ⟨hnone, ?_⟩
  rw [IDAdapter.outstanding_eq_some, AdapterOp.run_frame hvalid hf h]
  exact ⟨hvalid, hinfo⟩

/-- A cache with room for one more record, in which the name can be looked up. -/
structure Takes (c : Lru.Cache) (label : Label) : Prop where
  inv : ∃ l, Lru.Inv c l
  not_full : Lru.isFull c = false
  room : (c.usedSize + 1024) % 2 ^ 64 ≤ c.maxSize
  finds : ∃ found, Lru.get c label = .ok found

/-- If the query was for addresses, the reply can be read from its own bytes and has at most ten
of them, and the cache of their type takes them. -/
def Forwardable (cs : CacheSet) (type : UInt8) (reply : Bytes) : Prop :=
  ∀ t, type.toNat = AddressType.code t → ∃ used, replyAlone 0 (received reply) = .ok used ∧
    ∀ label answers, used = some (label, answers) →
      answers.length ≤ tmpAnsData ∧ Takes (cs.temp t) label

/-- The answers of such a reply are cached. -/
theorem Forwardable.cached {w : World} {type : UInt8} {reply : Bytes} (hs : w.Sized)
    (h : Forwardable w.cacheset type reply) (sender : SockaddrIn) (now time : ℤ) :
    ∃ w', cacheAnswers (relayed w sender reply) type now time = .ok w' := by
  by_cases hother : ∀ t : AddressType, type.toNat ≠ t.code
  · exact ⟨_, cacheAnswers_of_other hother now time⟩
  · simp only [not_forall, not_not] at hother
    obtain ⟨t, ht⟩ := hother
    obtain ⟨used, halone, htakes⟩ := h t ht
    have hused := answersUsed_alone hs sender halone
    obtain ⟨answers, hanswers, halone⟩ := bind_eq_ok.mp halone
    obtain ⟨ans, hread, -⟩ := readDnsAnswers_alone hanswers
      (w.recvBuffer.drop (received reply).length) hs.ans
    have hans : readDnsAnswers (relayed w sender reply).ans (relayed w sender reply).recvBuffer =
        .ok (ans, answers.length) := hread
    split at halone
    next hnil =>
      subst hnil
      exact ⟨_, cacheAnswers_of_none ht hans now time⟩
    next hne =>
      have hpos := List.length_pos_iff.mpr hne
      obtain ⟨label, -, halone⟩ := bind_eq_ok.mp halone
      cases halone
      obtain ⟨hten, ⟨l, hinv⟩, hfull, hroom, found, hget⟩ := htakes label answers rfl
      obtain ⟨⟨ans', n⟩, hans', hused⟩ := bind_eq_ok.mp hused
      cases hans.symm.trans hans'
      simp only [hpos, if_true] at hused
      obtain ⟨⟨question, size⟩, hquestion, hused⟩ := bind_eq_ok.mp hused
      obtain ⟨label', hlabel, hused⟩ := bind_eq_ok.mp hused
      obtain ⟨answers', -, hused⟩ := bind_eq_ok.mp hused
      cases hused
      have hop : (Lru.CacheOp.setMulti label (cacheData label now (ans.take answers.length))
        time).isSet = true := rfl
      obtain ⟨temp, ret, hexec⟩ := Lru.exec_set_of_room hinv hop hfull hroom hget
      obtain ⟨⟨temp', ret'⟩, hset, -⟩ := bind_eq_ok.mp hexec
      obtain ⟨w', hcache, -⟩ := cacheAnswers_of_set ht hans hpos hten hquestion hlabel hset
      exact ⟨w', hcache⟩

/-- A reply to an outstanding id reaches its client unchanged but for the id, exactly when it
fits the buffer of `recvfrom`. -/
theorem handleRelay_translated_iff {w : World} (hs : w.Sized) (sender : SockaddrIn)
    (reply : Bytes) (now time : ℤ) {k : Slot} {info : IDtoAddr}
    (ho : w.adapter.outstanding k = some info) (hk : HasAt reply 0 (u16Bytes k))
    (hforward : Forwardable w.cacheset info.type reply) :
    (handleRelay w sender reply now time).sent =
        [⟨.server, info.addr, replaceId info.oldId.toNat reply⟩] ↔ reply.length ≤ 520 := by
  obtain ⟨header, hh, hslot⟩ := slotOf_of_hasAt hs hk
  obtain ⟨w', hc⟩ := hforward.cached hs sender now time
  obtain ⟨w'', hd, -⟩ := handleRelay_of_outstanding hh hslot ho hc
  rw [hd.sent]
  simp [replaceId_received_iff]

/-- Ids are translated faithfully. For the adapter: whatever calls follow the `push` that
has returned `k`, until `k` is taken back it is not returned again, its entry is not
altered, and `IDAdapter_get` yields what was pushed. For the relay: a query with flags
`0x0100` that goes upstream under the id `k` differs from what the client sent in its id
only, and so does the reply to it, whatever happens in between, exactly when neither is
longer than the 520 bytes that `recvfrom` takes, where the reply can be forwarded. -/
theorem id_translation (a : IDAdapter) (w : World) (hs : w.Sized) :
    (∀ (b c : IDAdapter) (id : UInt16) (source : SockaddrIn) (type : UInt8) (time : ℤ)
      (buffer : Bytes) (k : Slot) (ops : List AdapterOp) (rs : List AdapterResult),
      a.push id source type time buffer = .ok (b, some k) →
      along AdapterOp.exec (fun s op => !op.frees k s) b ops = true →
      run AdapterOp.exec b ops = .ok (c, rs) →
      a.get k = .ok none ∧ c.get k = .ok (some ⟨source, id, type⟩) ∧
        ∀ id' source' type' time' buffer' d r,
          c.push id' source' type' time' buffer' = .ok (d, r) →
            r ≠ some k ∧ d.data k = c.data k) ∧
    ∀ (w₁ w₂ : World) (client sender : SockaddrIn) (data reply : Bytes) (id : ℕ)
      (clock now time now' time' : ℤ) (d : Datagram) (k : Slot) (events : List Event),
      HasAt data 0 (u16Bytes id) → id < 65536 → HasAt data 2 (u16Bytes flagQuery) →
      d ∈ (handleRequest w client data clock now time).sent → d.socket = .query →
      HasAt d.bytes 0 (u16Bytes k) →
      (handleRequest w client data clock now time).result = .ok w₁ →
      Output.along step (fun s e => !e.frees k s) w₁ events = true →
      (mainLoop w₁ events).result = .ok w₂ → HasAt reply 0 (u16Bytes k) →
      Forwardable w₂.cacheset (w₂.adapter.data k).info.type reply →
      (d.bytes = replaceId k data ∧ (handleRelay w₂ sender reply now' time').sent =
          [⟨.server, client, replaceId id reply⟩] ↔
        data.length ≤ 520 ∧ reply.length ≤ 520) := by
  constructor
  · intro b c id source type time buffer k ops rs hp hf h
    obtain ⟨hnone, hsome⟩ := push_until_freed hp hf h
    have hvalid := (IDAdapter.outstanding_eq_some.mp hsome).1
    refine ⟨?_, ?_, ?_⟩
    · rw [IDAdapter.get_of_slotOf (slotOf_val k), hnone]
    · rw [IDAdapter.get_of_slotOf (slotOf_val k), hsome]
    · intro id' source' type' time' buffer' d r hd
      refine ⟨?_, IDAdapter.push_frame hd hvalid⟩
      rintro rfl
      rw [(IDAdapter.push_some hd).1] at hsome
      cases hsome
  · intro w₁ w₂ client sender data reply id clock now time now' time' d k events hid hlt hflags
      hd hq hwire h₁ hf h₂ hk hforward
    obtain ⟨rfl, type, ho₁⟩ := handleRequest_relayed hid hlt hflags hd hq h₁
    have hlen : 2 ≤ (received data).length := by
      have := hid.le_length (by simp [u16Bytes])
      simp only [u16Bytes, List.length_cons, List.length_nil] at this
      simp only [received, List.length_take, maxDnsSize]
      omega
    obtain rfl := slot_eq_of_hasAt hwire hlen
    obtain ⟨hvalid, hinfo⟩ := IDAdapter.outstanding_eq_some.mp ho₁
    have hdata := mainLoop_frame hvalid hf h₂
    have ho₂ : w₂.adapter.outstanding w.adapter.next = some ⟨client, UInt16.ofNat id, type⟩ := by
      rw [IDAdapter.outstanding_eq_some, hdata]
      exact ⟨hvalid, hinfo⟩
    have hs₂ : w₂.Sized := mainLoop_sized ((handleRequest_sized hs data).result w₁ h₁) h₂
    rw [hdata, hinfo] at hforward
    have hreply := handleRelay_translated_iff hs₂ sender reply now' time' ho₂ hk hforward
    have hoid : (UInt16.ofNat id).toNat = id := by
      rw [UInt16.toNat_ofNat']
      omega
    rw [hoid] at hreply
    rw [replaceId_received_iff, hreply]

/-- A reply with an address of `a`, whose owner is a pointer to the question. -/
private def oneAddressReply : Bytes :=
  [0, 0, 0x81, 0x80, 0, 1, 0, 1, 0, 0, 0, 0, 1, 97, 0, 0, 1, 0, 1,
    0xc0, 12, 0, 1, 0, 1, 0, 0, 0, 60, 0, 4, 1, 2, 3, 4]

private def addressAsked : Bytes := questionMessage 7 flagQuery [[97]] 1

/-- What is asked of the state for this reply, besides the invariant of the cache. -/
private def takesName (w : World) : Bool :=
  (w.adapter.data 0).info.type == 1 && !Lru.isFull (w.cacheset.temp .A) &&
    decide (((w.cacheset.temp .A).usedSize + 1024) % 2 ^ 64 ≤ (w.cacheset.temp .A).maxSize) &&
    (stopOf (Lru.get (w.cacheset.temp .A) [97])).isNone

/-- An id that was just handed out, and a query for the address of `a` with the reply to it. -/
theorem id_translation_sample :
    (∃ b, (booted 0).adapter.push 7 ⟨2, 1, 1⟩ 15 0 [0] = .ok (b, some 0) ∧
      b.get 0 = .ok (some ⟨⟨2, 1, 1⟩, 7, 15⟩)) ∧
    ∃ w, (handleRequest (booted 0) ⟨2, 1, 1⟩ addressAsked 0 0 0).result = .ok w ∧
      (handleRelay w (initQueryServer 0) oneAddressReply 0 0).sent =
        [⟨.server, ⟨2, 1, 1⟩, replaceId 7 oneAddressReply⟩] := by
  have hall := id_translation (booted 0).adapter (booted 0) (booted_sized 0)
  have htext : cString [0] = .ok [] := rfl
  have hlen : ([] : Bytes).length < ((booted 0).adapter.data 0).message.length := by
    rw [(booted_sized 0).message]
    decide
  have hpush : (booted 0).adapter.push 7 ⟨2, 1, 1⟩ 15 0 [0] = _ :=
    IDAdapter.push_of_free rfl htext hlen
  refine ⟨⟨_, hpush, (hall.1 _ _ 7 ⟨2, 1, 1⟩ 15 0 [0] 0 [] [] hpush rfl rfl).2.1⟩, ?_⟩
  have hstate : (mainLoop (booted 0) [.request ⟨2, 1, 1⟩ addressAsked 0 0 0]).result.map
      takesName = .ok true := by
    decide +kernel
  obtain ⟨w, hloop, htakes⟩ := map_eq_ok.mp hstate
  have h := hloop
  rw [mainLoop_singleton, step] at h
  have hinv := (mainLoop_inv (booted_initial 0) hloop).2 .A
  simp only [takesName, Bool.and_eq_true, Bool.not_eq_true', decide_eq_true_eq,
    beq_iff_eq] at htakes
  obtain ⟨⟨⟨htype, hfull⟩, hroom⟩, hget⟩ := htakes
  obtain ⟨found, hfound⟩ := exists_ok_of_stopOf (Option.isNone_iff_eq_none.mp hget)
  refine ⟨w, h, ?_⟩
  have hforward : Forwardable w.cacheset (w.adapter.data 0).info.type oneAddressReply := by
    intro t ht
    rw [htype] at ht
    cases t with
    | AAAA => cases ht
    | A =>
        refine ⟨some ([97], [⟨[97], 1, 1, 60, []⟩]), by decide, ?_⟩
        rintro label answers ⟨⟩
        exact ⟨by decide, hinv, hfull, hroom, found, hfound⟩
  exact ((hall.2 w w ⟨2, 1, 1⟩ (initQueryServer 0) addressAsked oneAddressReply 7 0 0 0 0 0
    ⟨.query, initQueryServer 0, questionMessage 0 flagQuery [[97]] 1⟩ 0 []
    (by decide) (by decide) (by decide) (by decide +kernel) rfl (by decide)
    h rfl rfl (by decide) hforward).mpr ⟨by decide, by decide⟩).2

/-- A reply whose question name starts with the byte `0xff`. -/
def stuckReply : Bytes :=
  [0, 0, 0x81, 0x80, 0, 1, 0, 1, 0, 0, 0, 0, 0xff, 97, 0, 0, 1, 0, 1]

/-- The query for the address of `a` is outstanding under the id 0 and this reply carries
the id, but the walk over its question never moves on and the client gets nothing. -/
theorem id_translation_hangs :
    ⟨.query, initQueryServer 0, replaceId 0 (questionMessage 7 flagQuery [[97]] 1)⟩ ∈
      (mainLoop (booted 0) [.request ⟨2, 1, 1⟩ (questionMessage 7 flagQuery [[97]] 1)
        0 0 0]).sent ∧
    HasAt stuckReply 0 (u16Bytes 0) ∧
    ⟨.server, ⟨2, 1, 1⟩, replaceId 7 stuckReply⟩ ∉
      (mainLoop (booted 0) [.request ⟨2, 1, 1⟩ (questionMessage 7 flagQuery [[97]] 1) 0 0 0,
        .relay (initQueryServer 0) stuckReply 0 0]).sent ∧
    stopOf (mainLoop (booted 0) [.request ⟨2, 1, 1⟩ (questionMessage 7 flagQuery [[97]] 1) 0 0 0,
      .relay (initQueryServer 0) stuckReply 0 0]).result = some .hang := by
  decide +kernel

end Translation

end DnsRelay.Relay
