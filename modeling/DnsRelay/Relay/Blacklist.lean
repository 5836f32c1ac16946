import DnsRelay.LocalRecord.Loading
import DnsRelay.Relay.Request

/-!
# Requests for names on the blacklist

The name is looked up in the blacklist before any other store, so whatever else is stored
the request is answered with a name error and goes no further.
-/

namespace DnsRelay.Relay

open DnsRelay.Message DnsRelay.Adapter DnsRelay.Static DnsRelay.LocalRecord DnsRelay.Lib
  DnsRelay.Lib.Machine

section Handler

variable {w : World} {labels : List Bytes} {record : ℕ}

/-- The question is for a name that the blacklist has. -/
structure Blocked (w : World) (labels : List Bytes) : Prop where
  ne_nil : labels ≠ []
  valid : ∀ label ∈ labels, ValidLabel label
  length_le : (dotted labels).length ≤ 253
  black : ∃ record, getStaticCache w.cacheset.blacklist (dotted labels) = .ok (some record)
  at_question : HasAt w.recvBuffer 12 (wireName labels)

theorem serveQuestion_blocked (hs : w.Sized) (h : Blocked w labels) (id : ℕ)
    (client : SockaddrIn) (rec : ℕ) (clock now time : ℤ) :
    ∃ question, serveQuestion w id client rec clock now time =
      ⟨[⟨.server, client, ((w.recvBuffer.set 2 0x80).set 3 0x03).take rec⟩],
        .ok { w with
          question := question
          recvBuffer := (w.recvBuffer.set 2 0x80).set 3 0x03 }⟩ := by
  have hend : 12 + (wireName labels).length + 4 ≤ w.recvBuffer.length := by
    have := wireName_length h.ne_nil
    have := h.length_le
    rw [hs.recvBuffer]
    omega
  -- whatever stands behind the name is read as its type and class
  obtain ⟨n, hn, hcount⟩ := exists_u16Bytes (show 4 + 2 ≤ w.recvBuffer.length by omega)
  obtain ⟨qtype, hqtype, ht⟩ :=
    exists_u16Bytes (show 12 + (wireName labels).length + 2 ≤ w.recvBuffer.length by omega)
  obtain ⟨qclass, hqclass, hc⟩ :=
    exists_u16Bytes (show 12 + (wireName labels).length + 2 + 2 ≤ w.recvBuffer.length by omega)
  have hat : HasAt w.recvBuffer 12 (questionBytes labels qtype qclass) := by
    rw [questionBytes, List.append_assoc, hasAt_append, hasAt_append]
    exact ⟨h.at_question, ht, hc⟩
  have hlen : (dotted labels).length < w.question.label.length := by
    have := h.length_le
    rw [hs.label, maxNameLength]
    omega
  obtain ⟨label, hread, -, hlabel⟩ := readDnsQuestions_wireName h.ne_nil h.valid hlen hn hqtype
    hqclass hcount hat
  obtain ⟨record, hblack⟩ := h.black
  exact ⟨_, serveQuestion_black hs hread hlabel hblack⟩

/-- A request for a name on the blacklist gets a name error; one that is not a query gets a
refusal before it. -/
theorem handleRequest_blocked (hs : w.Sized) {data : Bytes} (h : Blocked (receive w data) labels)
    (hname : HasAt (received data) 12 (wireName labels)) (client : SockaddrIn)
    (clock now time : ℤ) :
    ∃ w', (handleRequest w client data clock now time).result = .ok w' ∧
      w'.cacheset = w.cacheset ∧ w'.adapter = w.adapter ∧
      (handleRequest w client data clock now time).sent =
        (if HasAt (received data) 2 (u16Bytes flagQuery) then []
          else [⟨.server, client, withFlags 0x8005 (received data)⟩]) ++
        [⟨.server, client, withFlags 0x8003 (received data)⟩] := by
  have hr := receive_sized hs data
  have hlen : 4 ≤ (receive w data).recvBuffer.length := by
    rw [hr.recvBuffer]
    omega
  have hdata : 4 ≤ (received data).length := by
    have := hname.le_length (by simp [wireName])
    omega
  have hbuffer : ∀ code : UInt8, (((receive w data).recvBuffer.set 2 0x80).set 3 code).take
      (received data).length = withFlags (0x8000 + code.toNat) (received data) :=
    take_set_flags hdata _
  obtain ⟨header, hh, hflags⟩ := readDnsHeader_flags hlen
  have hquery : HasAt (receive w data).recvBuffer 2 (u16Bytes flagQuery) ↔
      HasAt (received data) 2 (u16Bytes flagQuery) :=
    hasAt_append_left hdata
  by_cases hf : header.flags = htons flagQuery
  · obtain ⟨question, hserve⟩ := serveQuestion_blocked hr h header.id client
      (received data).length clock now time
    rw [handleRequest_of_query hh hf, hserve, if_pos (hquery.mp (hflags.mp hf)), hbuffer]
    exact ⟨_, rfl, rfl, rfl, rfl⟩
  · have hblocked : Blocked (refused (receive w data)) labels := by
      refine ⟨h.ne_nil, h.valid, h.length_le, h.black, ?_⟩
      apply h.at_question.congr
      intro i hi _
      simp only [refused]
      rw [List.getElem?_set_ne (by omega), List.getElem?_set_ne (by omega)]
    obtain ⟨question, hserve⟩ := serveQuestion_blocked (refused_sized hr) hblocked header.id client
      (received data).length clock now time
    have hagain : ((refused (receive w data)).recvBuffer.set 2 0x80).set 3 0x03 =
        ((receive w data).recvBuffer.set 2 0x80).set 3 0x03 := by
      rw [refused, List.set_comm _ _ (by decide : 3 ≠ 2), List.set_set, List.set_set]
    rw [handleRequest_of_other hh hf, refuse_of_le hlen, Output.bind_of_ok rfl, hserve,
      if_neg fun hq => hf (hflags.mpr (hquery.mpr hq)), hagain, hbuffer]
    refine ⟨_, rfl, rfl, rfl, ?_⟩
    rw [refused, hbuffer]
    rfl

end Handler

/-- A name that some line of the file gives an address of zeros is blocked: whatever the
other stores and the table hold, whatever the flags and the type of the request, it is not
forwarded, the client gets its message back as a name error, and no other reply than a
refusal. -/
theorem blacklist_enforced (net : InetPton) (IP : IP) (cs : CacheSet) (hcs : Zeroed cs)
    (file : Bytes) (hfile : TwoTokens file) :
    ∃ cs', loadLocalRecord net IP cs (some file) = .ok (cs', true) ∧
      ∀ (labels : List Bytes) (ip : Bytes) (a : Address), labels ≠ [] →
        (∀ label ∈ labels, ValidLabel label) → (dotted labels).length ≤ 253 →
        (ip, dotted labels) ∈ records file → address net ip = some a → a.isZero = true →
      ∀ (w : World) (client : SockaddrIn) (data : Bytes) (clock now time : ℤ), w.Sized →
        w.cacheset.blacklist = cs'.blacklist → HasAt (received data) 12 (wireName labels) →
      ∃ w', (handleRequest w client data clock now time).result = .ok w' ∧
        w'.cacheset = w.cacheset ∧ w'.adapter = w.adapter ∧
        (handleRequest w client data clock now time).sent =
          (if HasAt (received data) 2 (u16Bytes flagQuery) then []
            else [⟨.server, client, withFlags 0x8005 (received data)⟩]) ++
          [⟨.server, client, withFlags 0x8003 (received data)⟩] := by
  obtain ⟨cs', hload, -, -, hstores⟩ := loadLocalRecord_ok net IP hcs
    (scanned_records hfile)
  refine ⟨cs', hload, ?_⟩
  intro labels ip a hne hvalid hlen hline haddr hzero w client data clock now time hs hw hname
  obtain ⟨found, hget, hblack⟩ := (hstores (dotted labels)).2.black_iff
  obtain ⟨record, rfl⟩ := Option.ne_none_iff_exists'.mp
    (hblack.mpr ⟨ip, a, hline, haddr, hzero⟩)
  have hblocked : Blocked (receive w data) labels :=
    ⟨hne, hvalid, hlen, ⟨record, by rw [← hget, ← hw]; rfl⟩, hname.append_right _⟩
  exact handleRequest_blocked hs hblocked hname client clock now time

/-- A response-flagged request for `b`, which the file maps to `0.0.0.0`: the client gets a
refusal and the name error. -/
theorem blacklist_enforced_sample :
    ∃ cs', loadLocalRecord sampleNet ⟨Vector.replicate 16 7, 0⟩ (booted 0).cacheset
        (some sampleFile) = .ok (cs', true) ∧
      (handleRequest { booted 0 with cacheset := cs' } ⟨2, 1, 1⟩
        (questionMessage 7 0x8180 [[98]] 1) 0 0 0).sent =
        [⟨.server, ⟨2, 1, 1⟩, questionMessage 7 0x8005 [[98]] 1⟩,
          ⟨.server, ⟨2, 1, 1⟩, questionMessage 7 0x8003 [[98]] 1⟩] := by
  obtain ⟨cs', hload, h⟩ := blacklist_enforced sampleNet ⟨Vector.replicate 16 7, 0⟩
    (booted 0).cacheset ⟨rfl, rfl, rfl⟩ sampleFile (by decide)
  have hvalid : ∀ label ∈ [[98]], ValidLabel label := by
    intro label hlabel
    rw [List.mem_singleton.mp hlabel]
    exact ⟨by decide, by decide, by decide, by decide⟩
  have hsized : ({ booted 0 with cacheset := cs' } : World).Sized :=
    ⟨(booted_sized 0).recvBuffer, (booted_sized 0).message, (booted_sized 0).label,
      (booted_sized 0).ans⟩
  obtain ⟨-, -, -, -, hsent⟩ := h [[98]] [48, 46, 48, 46, 48, 46, 48] ⟨4, [0, 0, 0, 0]⟩ (by decide)
    hvalid (by decide) (by decide) (by decide) (by decide) { booted 0 with cacheset := cs' }
    ⟨2, 1, 1⟩ (questionMessage 7 0x8180 [[98]] 1) 0 0 0 hsized rfl (by decide)
  exact ⟨cs', hload, hsent⟩

end DnsRelay.Relay
