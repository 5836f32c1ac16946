import DnsRelay.Lib.Output
import DnsRelay.Message.Sizes
import Mathlib.Algebra.GroupWithZero.Nat
import Mathlib.Logic.Function.Basic

/-!
# The ID adapter of `main.c`

A relayed query gets the index of a table slot as its id on the wire. The cursor
`next` runs around the table, a reply frees the slot of its id, and a timeout
sweep frees the slots that have waited too long. `outstanding` is the table as the
clients mean it: a partial map from ids to the origin of the query.

The relay is single-threaded. A lock call by the thread that already holds the
write lock fails at once, and the source ignores its result.
-/

namespace DnsRelay.Adapter

open DnsRelay.Message DnsRelay.Lib DnsRelay.Lib.Machine Function

/-- `struct sockaddr_in`. -/
structure SockaddrIn where
  family : UInt16
  port : UInt16
  addr : UInt32
  deriving DecidableEq

/-- `server_sockfd` faces the clients, `query_sockfd` the upstream server. -/
inductive Socket
  | server
  | query
  deriving DecidableEq

/-- What a call of `sendto` puts on the wire. -/
structure Datagram where
  socket : Socket
  dest : SockaddrIn
  bytes : Bytes
  deriving DecidableEq

/-- `IDAadpter_SIZE`. -/
abbrev idAdapterSize : ℕ := 1024

instance : NeZero idAdapterSize := ⟨by decide⟩

/-- `DNS_TTL`. -/
def dnsTtl : ℤ := 1000

abbrev Slot := Fin idAdapterSize

/-- `IDtoAddr`. -/
structure IDtoAddr where
  addr : SockaddrIn
  oldId : UInt16
  type : UInt8
  deriving DecidableEq

/-- One element of `IDAdapter.data`. -/
structure Entry where
  info : IDtoAddr
  valid : Bool
  start : ℤ
  message : Bytes

/-- `IDAdapter`; `lock` says that the write lock is held. -/
structure IDAdapter where
  data : Slot → Entry
  next : Slot
  lock : Bool

/-- The conversion of a 16-bit id to the `short` parameter of the adapter. -/
def toShort (id : ℕ) : ℤ := if id < 32768 then id else id - 65536

/-- `pos % IDAadpter_SIZE` as an index. A negative remainder is outside the table. -/
def slotOf (pos : ℤ) : Exec Slot :=
  if 0 ≤ pos.tmod idAdapterSize then
    .ok (Fin.ofNat idAdapterSize (pos.tmod idAdapterSize).toNat)
  else .error .fault

theorem slot_lt (k : Slot) : (k : ℕ) < 65536 := k.isLt.trans (by decide)

/-- A slot number is the index of its slot. -/
theorem slotOf_val (k : Slot) : slotOf (k : ℕ) = .ok k := by
  have hmod : ((k : ℕ) : ℤ).tmod idAdapterSize = (k : ℕ) :=
    Int.tmod_eq_of_lt (Int.natCast_nonneg k) (Int.ofNat_lt.mpr k.isLt)
  rw [slotOf, hmod, if_pos (Int.natCast_nonneg k)]
  simp

theorem slotOf_toShort (k : Slot) : slotOf (toShort k) = .ok k := by
  have hlt : (k : ℕ) < 32768 := k.isLt.trans (by decide)
  rw [toShort, if_pos hlt]
  exact slotOf_val k

namespace IDAdapter

variable {a b : IDAdapter} {k : Slot} {pos : ℤ}

/-- Replace the entry of a slot. -/
def set (a : IDAdapter) (k : Slot) (e : Entry) : IDAdapter :=
  { a with data := update a.data k e }

/-- `IDAdapter_push`; `none` is the returned `-1`, before which the lock is not released. -/
def push (a : IDAdapter) (id : UInt16) (source : SockaddrIn) (type : UInt8) (time : ℤ)
    (buffer : Bytes) : Exec (IDAdapter × Option Slot) :=
  if (a.data a.next).valid then .ok ({ a with lock := true }, none)
  else do
    let message ← strcpy (a.data a.next).message (← cString buffer)
    return ({ a.set a.next ⟨⟨source, id, type⟩, true, time, message⟩ with
      next := a.next + 1, lock := false }, some a.next)

/-- `IDAdapter_pop`. -/
def pop (a : IDAdapter) (pos : ℤ) : Exec IDAdapter := do
  let k ← slotOf pos
  return { a.set k { a.data k with valid := false } with lock := false }

/-- `IDAdapter_get`. -/
def get (a : IDAdapter) (pos : ℤ) : Exec (Option IDtoAddr) := do
  let k ← slotOf pos
  return if (a.data k).valid then some (a.data k).info else none

/-- The test of the sweep, where `clock()` has returned `clock`. -/
def timedOut (e : Entry) (clock : ℤ) : Bool := e.valid && decide (clock - e.start ≥ dnsTtl)

/-- One round of the timeout sweep. The reply is as long as the C string the message
starts with. -/
def sweepSlot (clock : Slot → ℤ) (a : IDAdapter) (k : Slot) : Output Datagram Stop IDAdapter :=
  if timedOut (a.data k) (clock k) then do
    let message ← Output.lift (setHeaderFlag (a.data k).message flagResponseNormal)
    let message ← Output.lift (setHeaderRcodeRefused message)
    let reply ← Output.lift (cString message)
    Output.emit ⟨.server, (a.data k).info.addr, reply⟩
    return a.set k { a.data k with message := message, valid := false }
  else return a

/-- The timeout sweep; `clock()` is read once for every slot. -/
def sweep (a : IDAdapter) (clock : Slot → ℤ) : Output Datagram Stop IDAdapter :=
  Output.run (sweepSlot clock) a (List.finRange idAdapterSize)

/-- The origin of the query that waits under an id. -/
def outstanding (a : IDAdapter) (k : Slot) : Option IDtoAddr :=
  if (a.data k).valid then some (a.data k).info else none

section Operations

variable {id : UInt16} {source : SockaddrIn} {type : UInt8} {time : ℤ} {buffer : Bytes}
  {r : Option Slot} {e : Entry} {clock : Slot → ℤ}

theorem outstanding_eq_none : a.outstanding k = none ↔ (a.data k).valid = false := by
  simp [outstanding]

theorem outstanding_eq_some {info : IDtoAddr} :
    a.outstanding k = some info ↔ (a.data k).valid = true ∧ (a.data k).info = info := by
  simp [outstanding]

theorem get_of_slotOf (h : slotOf pos = .ok k) : a.get pos = .ok (a.outstanding k) := by
  simp [get, h, outstanding, bind, Except.bind, pure, Except.pure]

theorem get_of_slotOf_error {e : Stop} (h : slotOf pos = .error e) : a.get pos = .error e := by
  simp [get, h, bind, Except.bind]

/-- `push` either finds the cursor slot in use or fills it and moves the cursor on. -/
theorem push_cases (h : a.push id source type time buffer = .ok (b, r)) :
    ((a.data a.next).valid = true ∧ r = none ∧ b = { a with lock := true }) ∨
    ((a.data a.next).valid = false ∧ r = some a.next ∧ ∃ message,
      b = { a.set a.next ⟨⟨source, id, type⟩, true, time, message⟩ with
        next := a.next + 1, lock := false }) := by
  unfold push at h
  split at h
  next hv =>
    cases h
    exact .inl ⟨hv, rfl, rfl⟩
  next hv =>
    obtain ⟨text, -, h⟩ := bind_eq_ok.mp h
    obtain ⟨message, -, h⟩ := bind_eq_ok.mp h
    cases h
    exact .inr ⟨Bool.eq_false_iff.mpr hv, rfl, message, rfl⟩

theorem push_of_used (h : (a.data a.next).valid = true) :
    a.push id source type time buffer = .ok ({ a with lock := true }, none) := if_pos h

/-- A free cursor slot takes a message that fits. -/
theorem push_of_free {text : Bytes} (h : (a.data a.next).valid = false)
    (htext : cString buffer = .ok text)
    (hlen : text.length < (a.data a.next).message.length) :
    a.push id source type time buffer =
      .ok ({ a.set a.next ⟨⟨source, id, type⟩, true, time,
          text ++ 0 :: (a.data a.next).message.drop (text.length + 1)⟩ with
        next := a.next + 1, lock := false }, some a.next) := by
  have hcopy : strcpy (a.data a.next).message text =
      .ok (text ++ 0 :: (a.data a.next).message.drop (text.length + 1)) := if_neg (by omega)
  simp [push, h, htext, hcopy, bind, Except.bind, pure, Except.pure]

/-- A `push` leaves every slot in use as it is. -/
theorem push_frame (h : a.push id source type time buffer = .ok (b, r))
    (hk : (a.data k).valid = true) : b.data k = a.data k := by
  rcases push_cases h with ⟨-, -, rfl⟩ | ⟨hv, -, message, rfl⟩
  · rfl
  · apply update_of_ne
    rintro rfl
    rw [hk] at hv
    cases hv

/-- The id that `push` returns was free and now leads to the origin of the query. -/
theorem push_some (h : a.push id source type time buffer = .ok (b, some k)) :
    a.outstanding k = none ∧ b.outstanding k = some ⟨source, id, type⟩ := by
  rcases push_cases h with ⟨-, hr, -⟩ | ⟨hv, hr, message, rfl⟩
  · cases hr
  · cases hr
    exact ⟨outstanding_eq_none.mpr hv, outstanding_eq_some.mpr ⟨by simp [set], by simp [set]⟩⟩

theorem pop_of_slotOf (h : slotOf pos = .ok k) :
    a.pop pos = .ok { a.set k { a.data k with valid := false } with lock := false } := by
  simp [pop, h, bind, Except.bind, pure, Except.pure]

theorem pop_cases (h : a.pop pos = .ok b) :
    ∃ k, slotOf pos = .ok k ∧
      b = { a.set k { a.data k with valid := false } with lock := false } := by
  obtain ⟨k, hk, h⟩ := bind_eq_ok.mp h
  cases h
  exact ⟨k, hk, rfl⟩

/-- A `pop` leaves every other slot as it is. -/
theorem pop_frame (h : a.pop pos = .ok b) (hk : slotOf pos ≠ .ok k) : b.data k = a.data k := by
  obtain ⟨j, hj, rfl⟩ := pop_cases h
  apply update_of_ne
  rintro rfl
  exact hk hj

theorem sweepSlot_cases (h : (sweepSlot clock a k).result = .ok b) :
    (timedOut (a.data k) (clock k) = false ∧ b = a) ∨
    (timedOut (a.data k) (clock k) = true ∧ ∃ message,
      b = a.set k { a.data k with message := message, valid := false }) := by
  unfold sweepSlot at h
  split at h
  next ht =>
    cases hf : setHeaderFlag (a.data k).message flagResponseNormal with
    | error e => simp [hf] at h
    | ok message =>
        cases hr : setHeaderRcodeRefused message with
        | error e => simp [hf, hr] at h
        | ok message =>
            cases hc : cString message with
            | error e => simp [hf, hr, hc] at h
            | ok reply =>
                simp only [hf, hr, hc, Output.lift_ok_bind, Output.result_emit_bind,
                  Output.result_pure, Except.ok.injEq] at h
                exact .inr ⟨ht, message, h.symm⟩
  next ht =>
    cases h
    exact .inl ⟨Bool.eq_false_iff.mpr ht, rfl⟩

theorem sweepSlot_frame {j : Slot} (h : (sweepSlot clock a k).result = .ok b) (hj : j ≠ k) :
    b.data j = a.data j := by
  rcases sweepSlot_cases h with ⟨-, rfl⟩ | ⟨-, message, rfl⟩
  · rfl
  · exact update_of_ne hj _ _

theorem sweepSlot_sent (clock : Slot → ℤ) (a : IDAdapter) (k : Slot) :
    ∀ d ∈ (sweepSlot clock a k).sent, d.socket = .server := by
  unfold sweepSlot
  split
  · cases hf : setHeaderFlag (a.data k).message flagResponseNormal with
    | error e => simp
    | ok message =>
        cases hr : setHeaderRcodeRefused message with
        | error e => simp [hr]
        | ok message =>
            cases hc : cString message with
            | error e => simp [hr, hc]
            | ok reply => simp [hr, hc]
  · simp

/-- What a sweep over some of the slots has done to the table. -/
structure Swept (clock : Slot → ℤ) (a b : IDAdapter) : Prop where
  kept : ∀ k, timedOut (a.data k) (clock k) = false → b.data k = a.data k
  freed : ∀ k, b.data k = a.data k ∨ (b.data k).valid = false
  next_eq : b.next = a.next
  lock_eq : b.lock = a.lock

theorem sweepSlot_swept {s : IDAdapter} (hs : Swept clock a s)
    (h : (sweepSlot clock s k).result = .ok b) : Swept clock a b := by
  rcases sweepSlot_cases h with ⟨-, rfl⟩ | ⟨ht, message, rfl⟩
  · exact hs
  · constructor
    · intro j hj
      rw [← hs.kept j hj]
      apply update_of_ne
      rintro rfl
      rw [hs.kept j hj, hj] at ht
      cases ht
    · intro j
      by_cases hj : j = k
      · subst hj
        exact .inr (by simp [set])
      · simpa [set, hj] using hs.freed j
    · exact hs.next_eq
    · exact hs.lock_eq

theorem run_sweepSlot_ensures (a : IDAdapter) (clock : Slot → ℤ) (ks : List Slot) :
    Output.Ensures (fun d => d.socket = .server) (Output.run (sweepSlot clock) a ks)
      (Swept clock a) := by
  apply Output.run_ensures_of_mem
  · intro k _ s hs
    exact ⟨sweepSlot_sent clock s k, fun b hb => sweepSlot_swept hs hb⟩
  · exact ⟨fun _ _ => rfl, fun _ => .inl rfl, rfl, rfl⟩

/-- A sweep writes to clients only, and changes only slots that have timed out, only to
free them. -/
theorem sweep_ensures (a : IDAdapter) (clock : Slot → ℤ) :
    Output.Ensures (fun d => d.socket = .server) (a.sweep clock) (Swept clock a) :=
  run_sweepSlot_ensures a clock _

theorem run_sweepSlot_frees {ks : List Slot} (hk : k ∈ ks)
    (ht : timedOut (a.data k) (clock k) = true)
    (h : (Output.run (sweepSlot clock) a ks).result = .ok b) : (b.data k).valid = false := by
  induction ks generalizing a with
  | nil => cases hk
  | cons j ks ih =>
      cases hs : (sweepSlot clock a j).result with
      | error e =>
          rw [Output.run, Output.bind_of_error hs] at h
          cases h
      | ok a₁ =>
          rw [Output.run, Output.bind_of_ok hs] at h
          by_cases hkj : k = j
          · subst hkj
            have hfreed : (a₁.data k).valid = false := by
              rcases sweepSlot_cases hs with ⟨hnot, -⟩ | ⟨-, message, rfl⟩
              · rw [ht] at hnot
                cases hnot
              · simp [set]
            rcases ((run_sweepSlot_ensures a₁ clock ks).result b h).freed k with hsame | hinvalid
            · rw [hsame, hfreed]
            · exact hinvalid
          · have hsame := sweepSlot_frame hs hkj
            exact ih ((List.mem_cons.mp hk).resolve_left hkj) (by rw [hsame, ht]) h

/-- A sweep frees every slot that has timed out. -/
theorem sweep_frees (ht : timedOut (a.data k) (clock k) = true)
    (h : (a.sweep clock).result = .ok b) : (b.data k).valid = false :=
  run_sweepSlot_frees (List.mem_finRange k) ht h

end Operations

end IDAdapter

section Messages

variable {a b : IDAdapter}

theorem message_length_set {k : Slot} {e : Entry} (ha : ∀ k, (a.data k).message.length = 1024)
    (he : e.message.length = 1024) (j : Slot) : ((a.set k e).data j).message.length = 1024 := by
  by_cases hj : j = k
  · subst hj
    simpa [IDAdapter.set] using he
  · simpa [IDAdapter.set, hj] using ha j

theorem push_message_length {id : UInt16} {source : SockaddrIn} {type : UInt8} {time : ℤ}
    {buffer : Bytes} {r : Option Slot} (ha : ∀ k, (a.data k).message.length = 1024)
    (h : a.push id source type time buffer = .ok (b, r)) (j : Slot) :
    (b.data j).message.length = 1024 := by
  unfold IDAdapter.push at h
  split at h
  · cases h
    exact ha j
  · obtain ⟨text, -, h⟩ := bind_eq_ok.mp h
    obtain ⟨message, hm, h⟩ := bind_eq_ok.mp h
    cases h
    exact message_length_set ha ((strcpy_length hm).trans (ha _)) j

theorem sweepSlot_message_length {clock : Slot → ℤ} {k : Slot}
    (ha : ∀ k, (a.data k).message.length = 1024) :
    Output.Ensures (fun _ => True) (IDAdapter.sweepSlot clock a k) fun b =>
      ∀ k, (b.data k).message.length = 1024 := by
  unfold IDAdapter.sweepSlot
  split
  · apply (Output.ensures_lift fun message h => (writeBytes_length h).trans (ha k)).bind
    intro message₁ h₁
    apply (Output.ensures_lift fun message h => (setHeaderRcode_length h).trans h₁).bind
    intro message₂ h₂
    apply (Output.ensures_true _).bind
    intro reply _
    apply (Output.ensures_emit trivial).bind
    intro _ _
    exact Output.ensures_pure (message_length_set ha h₂)
  · exact Output.ensures_pure ha

end Messages

/-- The calls on the adapter. -/
inductive AdapterOp
  | push (id : UInt16) (source : SockaddrIn) (type : UInt8) (time : ℤ) (buffer : Bytes)
  | pop (pos : ℤ)
  | get (pos : ℤ)
  | sweep (clock : Slot → ℤ)

inductive AdapterResult
  | pushed (id : Option Slot)
  | popped
  | got (info : Option IDtoAddr)
  | swept (replies : List Datagram)

namespace AdapterOp

variable {a b : IDAdapter} {k : Slot} {op : AdapterOp} {r : AdapterResult}

def exec (a : IDAdapter) : AdapterOp → Exec (IDAdapter × AdapterResult)
  | push id source type time buffer => do
      let (b, r) ← a.push id source type time buffer
      return (b, .pushed r)
  | pop pos => do return (← a.pop pos, .popped)
  | get pos => do return (a, .got (← a.get pos))
  | sweep clock => do return (← (a.sweep clock).result, .swept (a.sweep clock).sent)

/-- The call takes the id `k` back: a `pop` of it or a sweep that finds it timed out. -/
def frees (k : Slot) (a : IDAdapter) : AdapterOp → Bool
  | pop pos => decide (slotOf pos = .ok k)
  | sweep clock => IDAdapter.timedOut (a.data k) (clock k)
  | _ => false

/-- What a call that returns can have done: a `push` that finds the slot at the cursor in use
keeps the lock, one that finds it free fills it, and the other calls do what they are for. -/
inductive Outcome (a b : IDAdapter) : AdapterOp → AdapterResult → Prop
  | refused {id : UInt16} {source : SockaddrIn} {type : UInt8} {time : ℤ} {buffer : Bytes}
      (hused : (a.data a.next).valid = true) (heq : b = { a with lock := true }) :
      Outcome a b (push id source type time buffer) (.pushed none)
  | accepted {id : UInt16} {source : SockaddrIn} {type : UInt8} {time : ℤ} {buffer : Bytes}
      (message : Bytes) (hfree : (a.data a.next).valid = false)
      (hpush : a.push id source type time buffer = .ok (b, some a.next))
      (heq : b = { a.set a.next ⟨⟨source, id, type⟩, true, time, message⟩ with
        next := a.next + 1, lock := false }) :
      Outcome a b (push id source type time buffer) (.pushed (some a.next))
  | popped {pos : ℤ} {k : Slot} (hk : slotOf pos = .ok k)
      (heq : b = { a.set k { a.data k with valid := false } with lock := false }) :
      Outcome a b (pop pos) .popped
  | got {pos : ℤ} {info : Option IDtoAddr} (heq : b = a) : Outcome a b (get pos) (.got info)
  | swept {clock : Slot → ℤ} (hsweep : (a.sweep clock).result = .ok b) :
      Outcome a b (sweep clock) (.swept (a.sweep clock).sent)

theorem exec_outcome (h : exec a op = .ok (b, r)) : Outcome a b op r := by
  cases op with
  | push id source type time buffer =>
      obtain ⟨⟨c, q⟩, hp, h⟩ := bind_eq_ok.mp h
      cases h
      rcases IDAdapter.push_cases hp with ⟨hused, rfl, heq⟩ | ⟨hfree, rfl, message, heq⟩
      · exact .refused hused heq
      · exact .accepted message hfree hp heq
  | pop pos =>
      obtain ⟨c, hp, h⟩ := bind_eq_ok.mp h
      cases h
      obtain ⟨k, hk, heq⟩ := IDAdapter.pop_cases hp
      exact .popped hk heq
  | get pos =>
      obtain ⟨info, -, h⟩ := bind_eq_ok.mp h
      cases h
      exact .got rfl
  | sweep clock =>
      obtain ⟨c, hs, h⟩ := bind_eq_ok.mp h
      cases h
      exact .swept hs

/-- A call that does not take an outstanding id back leaves its slot as it is. -/
theorem exec_frame (h : exec a op = .ok (b, r)) (hk : (a.data k).valid = true)
    (hf : op.frees k a = false) : b.data k = a.data k := by
  cases exec_outcome h with
  | refused hused heq => rw [heq]
  | accepted message hfree hpush heq => exact IDAdapter.push_frame hpush hk
  | @popped pos j hj heq =>
      subst heq
      apply update_of_ne
      rintro rfl
      simp [frees, hj] at hf
  | got heq => rw [heq]
  | swept hsweep => exact ((IDAdapter.sweep_ensures a _).result b hsweep).kept k hf

/-- No call changes the size of the message arrays. -/
theorem exec_message_length (h : exec a op = .ok (b, r))
    (ha : ∀ k, (a.data k).message.length = 1024) (k : Slot) :
    (b.data k).message.length = 1024 := by
  cases exec_outcome h with
  | refused hused heq =>
      rw [heq]
      exact ha k
  | accepted message hfree hpush heq => exact push_message_length ha hpush k
  | @popped pos j hj heq =>
      have hfreed : ({ a.data j with valid := false } : Entry).message.length = 1024 := ha j
      rw [heq]
      exact message_length_set ha hfreed k
  | got heq =>
      rw [heq]
      exact ha k
  | @swept clock hsweep =>
      have hsizes : Output.Ensures (fun _ => True) (a.sweep clock) fun b =>
          ∀ k, (b.data k).message.length = 1024 :=
        Output.run_ensures_of_mem (fun j _ s hs => sweepSlot_message_length hs) ha
      exact hsizes.result b hsweep k

/-- From any call on until an id is taken back, its slot stays as it is. -/
theorem run_frame {ops : List AdapterOp} {rs : List AdapterResult}
    (hk : (a.data k).valid = true)
    (hf : along exec (fun s op => !op.frees k s) a ops = true)
    (h : run exec a ops = .ok (b, rs)) : b.data k = a.data k := by
  apply run_invariant_along (fun s => s.data k = a.data k) _ rfl hf h
  intro s op t q hs hc ht
  rw [← hs] at hk ⊢
  exact exec_frame ht hk (by simpa using hc)

end AdapterOp

end DnsRelay.Adapter
