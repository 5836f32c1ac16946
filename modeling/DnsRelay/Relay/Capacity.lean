import DnsRelay.Relay.Caching

/-!
# The arrays that a reply fills

`handle_relay` has room for twenty answers, for sixteen bytes of each address and for ten
elements of `tmp_ans_data`, and how many there are is up to the sender. Here the accesses to
these arrays are recorded, whether they are inside or not; what a name does to its own array is
left aside. Whether all of them are inside can be told from the records to which the loop over
the records comes.
-/

namespace DnsRelay.Relay

open DnsRelay.Message DnsRelay.Adapter DnsRelay.Lib DnsRelay.Lib.Machine

section Model

/-- An access of the handler of replies to `ans` or to `tmp_ans_data`. -/
inductive Access
  /-- The fields of a record go to `ans[index]`. -/
  | store (index : ℕ)
  /-- The rdata of a record is copied to `ans[index].address`. -/
  | copy (index length : ℕ)
  /-- An answer goes to `tmp_ans_data[index]`. -/
  | fill (index : ℕ)
  deriving DecidableEq

/-- The access stays inside `struct answer ans[20]`, inside the sixteen bytes of an address, or
inside `struct record_data tmp_ans_data[10]`. -/
def Access.InRange : Access → Prop
  | .store index => index < 20
  | .copy index length => index < 20 ∧ length ≤ 16
  | .fill index => index < tmpAnsData

/-- The access stays inside the arrays, and inside the room that `struct IP` has for an address:
behind the sixteen bytes follow its tag and padding. -/
def Access.InRoom : Access → Prop
  | .store index => index < 20
  | .copy index length => index < 20 ∧ length ≤ sizeofIP
  | .fill index => index < tmpAnsData

theorem Access.InRange.inRoom {a : Access} (h : a.InRange) : a.InRoom := by
  cases a with
  | store index => exact h
  | copy index length => exact ⟨h.1, h.2.trans (by decide)⟩
  | fill index => exact h

instance : DecidablePred Access.InRange
  | .store _ => inferInstanceAs (Decidable (_ < _))
  | .copy _ _ => inferInstanceAs (Decidable (_ ∧ _))
  | .fill _ => inferInstanceAs (Decidable (_ < _))

/-- What a record says of itself behind the name of its owner. -/
structure RecordHead where
  type : ℕ
  length : ℕ
  deriving DecidableEq

def RecordHead.isAddress (h : RecordHead) : Bool := h.type = rrtypeA ∨ h.type = rrtypeAAAA

/-- What `read_dns_answer` reads of a record before it looks at the type, and the place of the
rdata. It gives up when `fetch_label` returns -1. -/
def recordHead (buffer : Bytes) (src : ℤ) : Exec (Option (RecordHead × ℤ)) := do
  let fetched ← fetchLabel buffer src
  if fetched.ret = -1 then return none
  else
    let type ← readU16 buffer fetched.next
    let _ ← readU16 buffer (fetched.next + 2)
    let _ ← readU32 buffer (fetched.next + 4)
    let length ← readU16 buffer (fetched.next + 8)
    return some (⟨type, length⟩, fetched.next + 10)

/-- `read_dns_answer` on `ans[cnt]`: its accesses, the distance to the next record, and
`*good`. -/
def answerAccesses (buffer : Bytes) (cnt : ℕ) (src : ℤ) : Output Access Stop (ℤ × Bool) := do
  match ← Output.lift (recordHead buffer src) with
  | none => return (-1, false)
  | some (head, data) =>
      Output.emit (.store cnt)
      if head.isAddress then
        Output.emit (.copy cnt head.length)
        let _ ← Output.lift (readBytes buffer data head.length)
        return (data + head.length - src, true)
      else return (data + head.length - src, false)

/-- The loop of `read_dns_answers` over the records. -/
def recordLoopAccesses (buffer : Bytes) : ℕ → ℤ → ℕ → Output Access Stop ℕ
  | 0, _, cnt => pure cnt
  | n + 1, pos, cnt => do
      let (size, good) ← answerAccesses buffer cnt pos
      recordLoopAccesses buffer n (pos + size) (if good then cnt + 1 else cnt)

/-- `read_dns_answers`. -/
def answersAccesses (buffer : Bytes) : Output Access Stop ℕ := do
  let ans ← Output.lift (readU16 buffer 6)
  let question ← Output.lift (readU16 buffer 4)
  let pos ← Output.lift (skipQuestions buffer question dnsHeaderSize)
  recordLoopAccesses buffer ans pos 0

/-- What `read_dns_question` reads. -/
def questionRead (buffer : Bytes) : Exec Unit := do
  let fetched ← fetchLabel buffer dnsHeaderSize
  if fetched.ret < 0 then return ()
  else
    let _ ← readU16 buffer fetched.next
    let _ ← readU16 buffer (fetched.next + 2)
    return ()

/-- The loop over the answers that fills `tmp_ans_data`. -/
def fillLoop : ℕ → ℕ → Output Access Stop Unit
  | 0, _ => pure ()
  | n + 1, count => do
      Output.emit (.fill count)
      fillLoop n (count + 1)

/-- What follows when `ans_num` answers have been read. -/
def fillAccesses (buffer : Bytes) (ansNum : ℕ) : Output Access Stop Unit :=
  if 0 < ansNum then do
    Output.lift (questionRead buffer)
    fillLoop ansNum 0
  else return ()

/-- The caching of the answers of a reply to a query of the given type. -/
def cachingAccesses (buffer : Bytes) (type : UInt8) : Output Access Stop Unit :=
  if type.toNat = rrtypeA ∨ type.toNat = rrtypeAAAA then do
    let ansNum ← answersAccesses buffer
    fillAccesses buffer ansNum
  else return ()

/-- `handle_relay` up to the caching. -/
def relayAccesses (w : World) (data : Bytes) : Output Access Stop Unit := do
  let header ← Output.lift (readDnsHeader (receive w data).recvBuffer)
  match ← Output.lift (w.adapter.get (toShort header.id)) with
  | none => return ()
  | some info => cachingAccesses (receive w data).recvBuffer info.type

end Model

section Records

variable {buffer : Bytes} {n cnt : ℕ} {pos : ℤ}

/-- The records to which the loop over the records comes. Behind an address record it goes on
only if the buffer holds all of the address. -/
def recordHeads (buffer : Bytes) : ℕ → ℤ → Output RecordHead Stop Unit
  | 0, _ => pure ()
  | n + 1, pos => do
      match ← Output.lift (recordHead buffer pos) with
      | none => recordHeads buffer n (pos - 1)
      | some (head, data) =>
          Output.emit head
          let _ ← Output.lift (readBytes buffer data (if head.isAddress then head.length else 0))
          recordHeads buffer n (data + head.length)

/-- The records of the answer section. -/
def answerSection (buffer : Bytes) : Output RecordHead Stop Unit := do
  let ans ← Output.lift (readU16 buffer 6)
  let question ← Output.lift (readU16 buffer 4)
  let pos ← Output.lift (skipQuestions buffer question dnsHeaderSize)
  recordHeads buffer ans pos

theorem answerAccesses_of_none (h : recordHead buffer pos = .ok none) :
    answerAccesses buffer cnt pos = ⟨[], .ok (-1, false)⟩ := by
  rw [answerAccesses, h]
  rfl

theorem answerAccesses_of_other {head : RecordHead} {data : ℤ}
    (h : recordHead buffer pos = .ok (some (head, data))) (ho : ¬ head.isAddress = true) :
    answerAccesses buffer cnt pos = ⟨[.store cnt], .ok (data + head.length - pos, false)⟩ := by
  rw [answerAccesses, h, Output.lift_ok_bind]
  simp only [ho]
  rfl

theorem answerAccesses_of_address {head : RecordHead} {data : ℤ}
    (h : recordHead buffer pos = .ok (some (head, data))) (ha : head.isAddress = true) :
    answerAccesses buffer cnt pos = ⟨[.store cnt, .copy cnt head.length],
      (readBytes buffer data head.length).map fun _ => (data + head.length - pos, true)⟩ := by
  rw [answerAccesses, h, Output.lift_ok_bind]
  simp only [ha, if_true]
  cases readBytes buffer data head.length <;> rfl

/-- The accesses of the loop that fills `tmp_ans_data` are inside when it has at most ten
rounds. -/
theorem fillLoop_inRange (n count : ℕ) :
    (∀ a ∈ (fillLoop n count).sent, a.InRange) ↔ (n ≠ 0 → count + n ≤ tmpAnsData) := by
  induction n generalizing count with
  | zero => simp [fillLoop]
  | succ n ih =>
      rw [fillLoop, Output.sent_emit_bind, List.forall_mem_cons, ih, Access.InRange, tmpAnsData]
      omega

end Records

section Reply

theorem fillAccesses_inRange (buffer : Bytes) (ansNum : ℕ) :
    (∀ a ∈ (fillAccesses buffer ansNum).sent, a.InRange) ↔
      (questionRead buffer = .ok () → ansNum ≤ tmpAnsData) := by
  unfold fillAccesses
  split
  next hpos =>
    cases hread : questionRead buffer with
    | error e => simp
    | ok _ =>
        rw [Output.lift_ok_bind, fillLoop_inRange, Nat.zero_add]
        exact ⟨fun h _ => h (by omega), fun h _ => h rfl⟩
  next hpos =>
    obtain rfl : ansNum = 0 := by omega
    simp

/-- What a reply must keep to: an entry of `ans` is left for the last record that is read, no
address has more than sixteen bytes, and there are at most ten of them when all records and the
question can be read. -/
structure Fits (buffer : Bytes) : Prop where
  answers : (answerSection buffer).sent.dropLast.countP RecordHead.isAddress < 20
  rdata : ∀ head ∈ (answerSection buffer).sent, head.isAddress = true → head.length ≤ 16
  cached : (answerSection buffer).result = .ok () → questionRead buffer = .ok () →
    (answerSection buffer).sent.countP RecordHead.isAddress ≤ tmpAnsData

/-- What a record of the format says of itself. -/
def headOf (r : ResourceRecord) : RecordHead := ⟨r.type, r.rdata.length⟩

theorem recordHead_record {msg : Bytes} {r : ResourceRecord} {i e : ℕ} (hw : r.WellFormed)
    (hr : RecordAt msg i r e) (rest : Bytes) :
    ∃ data : ℤ, recordHead (msg ++ rest) i = .ok (some (headOf r, data)) ∧
      readBytes (msg ++ rest) data r.rdata.length = .ok r.rdata ∧ data + r.rdata.length = e := by
  obtain ⟨j, hn, hfields, rfl⟩ := hr
  obtain ⟨ret, hfetch, hret⟩ := fetchLabel_record hw hn rest
  obtain ⟨htype, hclass, httl, hlength, hdata⟩ := readFields_record hw hfields rest
  refine ⟨(j : ℤ) + 10, ?_, hdata, by push_cast; rfl⟩
  simp only [recordHead, hfetch, hret, if_false, htype, hclass, httl, hlength, bind, Except.bind]
  rfl

theorem recordHeads_records {msg : Bytes} {records : List ResourceRecord} {i e : ℕ}
    (h : RecordsAt msg records i e) (rest : Bytes) :
    recordHeads (msg ++ rest) records.length i = ⟨records.map headOf, .ok ()⟩ := by
  induction records generalizing i with
  | nil => rfl
  | cons r records ih =>
      obtain ⟨j, hw, hr, hmore⟩ := h
      obtain ⟨data, hhead, hdata, hend⟩ := recordHead_record hw hr rest
      have hread : ∃ bytes, readBytes (msg ++ rest) data
          (if (headOf r).isAddress then (headOf r).length else 0) = .ok bytes := by
        split
        · exact ⟨_, hdata⟩
        · exact ⟨[], rfl⟩
      obtain ⟨bytes, hread⟩ := hread
      have hnext : data + (headOf r).length = j := hend
      rw [List.length_cons, recordHeads, hhead, Output.lift_ok_bind]
      dsimp only
      rw [hread, Output.bind_of_ok rfl, Output.lift_ok_bind, hnext, ih hmore]
      rfl

/-- The records of a well-formed reply are those to which the loop comes. -/
theorem answerSection_response {msg : Bytes} {questions : ℕ} {records : List ResourceRecord}
    (h : Response msg questions records) (rest : Bytes) :
    answerSection (msg ++ rest) = ⟨records.map headOf, .ok ()⟩ := by
  obtain ⟨j, e, hquestions, hrecords⟩ := h.sections
  have han : readU16 (msg ++ rest) 6 = .ok records.length :=
    readU16_of_hasAt h.ancount_lt (h.ancount.append_right rest)
  have hqd : readU16 (msg ++ rest) 4 = .ok questions :=
    readU16_of_hasAt h.qdcount_lt (h.qdcount.append_right rest)
  have hskip : skipQuestions (msg ++ rest) questions dnsHeaderSize = .ok (j : ℤ) :=
    skipQuestions_questions hquestions rest
  rw [answerSection, han, Output.lift_ok_bind, hqd, Output.lift_ok_bind, hskip,
    Output.lift_ok_bind]
  exact recordHeads_records hrecords rest

/-- A well-formed reply with at most ten addresses keeps to the limits. -/
theorem fits_of_response {msg : Bytes} {questions : ℕ} {records : List ResourceRecord}
    (h : Response msg questions records) (hcount : (addressRecords records).length ≤ tmpAnsData)
    (rest : Bytes) : Fits (msg ++ rest) := by
  have hsection := answerSection_response h rest
  have haddresses : (records.map headOf).countP RecordHead.isAddress =
      (addressRecords records).length := by
    rw [List.countP_map, addressRecords, ← List.countP_eq_length_filter]
    rfl
  constructor
  · rw [hsection]
    calc
      (records.map headOf).dropLast.countP RecordHead.isAddress
          ≤ (records.map headOf).countP RecordHead.isAddress :=
        (List.dropLast_sublist _).countP_le
      _ ≤ tmpAnsData := haddresses.trans_le hcount
      _ < 20 := by decide
  · rw [hsection]
    intro head hmem haddr
    obtain ⟨r, hr, rfl⟩ := List.mem_map.mp hmem
    obtain ⟨j, e, -, hrecords⟩ := h.sections
    exact (hrecords.wellFormed r hr).rdata_le haddr
  · intro _ _
    rw [hsection]
    exact haddresses.trans_le hcount

theorem relayAccesses_of_some {w : World} {data : Bytes} {k : Slot} {info : IDtoAddr}
    (h : replyTo w data = some (k, info)) :
    relayAccesses w data = cachingAccesses (receive w data).recvBuffer info.type := by
  obtain ⟨⟨header, hheader, hslot⟩, hentry⟩ := replyTo_eq_some h
  rw [relayAccesses, hheader, Output.lift_ok_bind, IDAdapter.get_of_slotOf hslot, hentry]
  rfl

theorem relayAccesses_of_none {w : World} {data : Bytes} (h : replyTo w data = none) :
    (relayAccesses w data).sent = [] := by
  rw [relayAccesses]
  rcases replyTo_eq_none h with ⟨e, hheader⟩ | ⟨header, hheader, hno⟩
  · rw [hheader]
    rfl
  · rw [hheader, Output.lift_ok_bind]
    cases hget : w.adapter.get (toShort header.id) with
    | error e => rfl
    | ok found =>
        cases found with
        | none => rfl
        | some info => exact absurd hget (hno info)

end Reply

section Checked

variable {w w' : World} {buffer : Bytes} {pos size : ℤ} {cnt : ℕ}

/-- What one call that returns has done to an entry that is there. -/
theorem readDnsAnswer_accesses {dest dest' : Answer} {good : Bool}
    (h : readDnsAnswer dest buffer pos = .ok (dest', size, good)) (hcnt : cnt < 20) :
    (answerAccesses buffer cnt pos).result = .ok (size, good) ∧
      ∀ a ∈ (answerAccesses buffer cnt pos).sent, a.InRoom := by
  obtain ⟨fetched, hfetched, h⟩ := bind_eq_ok.mp h
  obtain ⟨name, -, h⟩ := bind_eq_ok.mp h
  split at h
  next hret =>
    cases h
    have hhead : recordHead buffer pos = .ok none := by
      simp [recordHead, hfetched, hret, bind, Except.bind, pure, Except.pure]
    simp [answerAccesses_of_none hhead]
  next hret =>
    obtain ⟨type, htype, h⟩ := bind_eq_ok.mp h
    obtain ⟨class_, hclass, h⟩ := bind_eq_ok.mp h
    obtain ⟨ttl, httl, h⟩ := bind_eq_ok.mp h
    obtain ⟨length, hlength, h⟩ := bind_eq_ok.mp h
    have hhead : recordHead buffer pos = .ok (some (⟨type, length⟩, fetched.next + 10)) := by
      simp [recordHead, hfetched, hret, htype, hclass, httl, hlength, bind, Except.bind, pure,
        Except.pure]
    dsimp only at h
    split at h
    next haddr =>
      split at h
      · cases h
      next hlen =>
        obtain ⟨bytes, hbytes, h⟩ := bind_eq_ok.mp h
        cases h
        rw [answerAccesses_of_address hhead (by simpa [RecordHead.isAddress] using haddr)]
        simp [hbytes, Except.map, Access.InRoom, hcnt]
        omega
    next haddr =>
      cases h
      rw [answerAccesses_of_other hhead (by simpa [RecordHead.isAddress] using haddr)]
      simp [Access.InRoom, hcnt]

theorem readAnswerLoop_accesses {answers answers' : List Answer} {n c : ℕ}
    (hlen : answers.length = 20)
    (h : readAnswerLoop buffer n answers pos cnt = .ok (answers', c)) :
    (recordLoopAccesses buffer n pos cnt).result = .ok c ∧
      ∀ a ∈ (recordLoopAccesses buffer n pos cnt).sent, a.InRoom := by
  induction n generalizing answers pos cnt with
  | zero =>
      cases h
      exact ⟨rfl, by simp [recordLoopAccesses]⟩
  | succ n ih =>
      rw [readAnswerLoop] at h
      split at h
      next => cases h
      next dest hdest =>
        obtain ⟨⟨dest', size, good⟩, hread, h⟩ := bind_eq_ok.mp h
        obtain ⟨hcnt, -⟩ := List.getElem?_eq_some_iff.mp hdest
        obtain ⟨hresult, hfirst⟩ := readDnsAnswer_accesses hread (hlen ▸ hcnt)
        obtain ⟨hrest, hsent⟩ := ih ((List.length_set).trans hlen) h
        rw [recordLoopAccesses, Output.bind_of_ok hresult]
        exact ⟨hrest, List.forall_mem_append.mpr ⟨hfirst, hsent⟩⟩

theorem readDnsAnswers_accesses {answers answers' : List Answer} {c : ℕ}
    (hlen : answers.length = 20) (h : readDnsAnswers answers buffer = .ok (answers', c)) :
    (answersAccesses buffer).result = .ok c ∧
      ∀ a ∈ (answersAccesses buffer).sent, a.InRoom := by
  obtain ⟨ans, hans, h⟩ := bind_eq_ok.mp h
  obtain ⟨question, hquestion, h⟩ := bind_eq_ok.mp h
  obtain ⟨pos, hpos, h⟩ := bind_eq_ok.mp h
  rw [answersAccesses, hans, Output.lift_ok_bind, hquestion, Output.lift_ok_bind, hpos,
    Output.lift_ok_bind]
  exact readAnswerLoop_accesses hlen h

/-- Caching that returns has stayed inside the arrays, and inside `struct IP` with each address. -/
theorem cacheAnswers_inRoom {type : UInt8} {now time : ℤ} (hs : w.Sized)
    (h : cacheAnswers w type now time = .ok w') :
    ∀ a ∈ (cachingAccesses w.recvBuffer type).sent, a.InRoom := by
  unfold cacheAnswers at h
  unfold cachingAccesses
  split at h
  next ht =>
    rw [if_pos ht]
    obtain ⟨⟨ans, ansNum⟩, hans, h⟩ := bind_eq_ok.mp h
    obtain ⟨hresult, hsent⟩ := readDnsAnswers_accesses hs.ans.length hans
    rw [Output.bind_of_ok hresult]
    refine List.forall_mem_append.mpr ⟨hsent, fun a ha =>
      ((fillAccesses_inRange _ _).mpr (fun _ => ?_) a ha).inRoom⟩
    dsimp only at h
    split at h
    next hpos =>
      obtain ⟨⟨question, size⟩, -, h⟩ := bind_eq_ok.mp h
      dsimp only at h
      split at h
      next => cases h
      next hle => exact not_lt.mp hle
    next hpos => omega
  next ht => simp [ht]

/-- A reply that has no room stops the handler. -/
theorem handleRelay_inRoom {sender : SockaddrIn} {data : Bytes} {now time : ℤ} (hs : w.Sized)
    (h : (handleRelay w sender data now time).result = .ok w') :
    ∀ a ∈ (relayAccesses w data).sent, a.InRoom := by
  cases hreply : replyTo w data with
  | none => simp [relayAccesses_of_none hreply]
  | some p =>
      obtain ⟨k, info⟩ := p
      obtain ⟨w₁, hcache⟩ := handleRelay_cached hreply h
      have hsized : (relayed w sender data).Sized := receive_from_sized hs sender data
      have hin := cacheAnswers_inRoom hsized hcache
      rw [relayAccesses_of_some hreply]
      exact hin

end Checked

end DnsRelay.Relay
