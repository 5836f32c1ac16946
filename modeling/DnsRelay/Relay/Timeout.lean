import DnsRelay.Relay.Steps
import DnsRelay.Message.Questions

/-!
# Replies of the timeout sweep

A query is saved with `strcpy` and resent in the length that `strlen` finds. The flags
`0x0100` of a query end in a zero byte, so at most the id and the first flags byte are
copied; what follows the flags in the reply is what the slot held before.
-/

namespace DnsRelay.Relay

open DnsRelay.Message DnsRelay.Adapter DnsRelay.Lib DnsRelay.Lib.Machine Function

section Saved

variable {q₀ q₁ : UInt8} {rest old : Bytes} {a b : IDAdapter} {k : Slot}

/-- What saving a query with the id bytes `q₀` and `q₁` makes of the contents of a slot:
the copy ends at the first zero byte. -/
def savedQuery (q₀ q₁ : UInt8) (old : Bytes) : Bytes :=
  if q₀ = 0 then 0 :: old.drop 1
  else if q₁ = 0 then q₀ :: 0 :: old.drop 2
  else q₀ :: q₁ :: 1 :: 0 :: old.drop 4

theorem strcpy_query (q₀ q₁ : UInt8) (rest : Bytes) (hold : 4 ≤ old.length) :
    ∃ text, cString (q₀ :: q₁ :: 1 :: 0 :: rest) = .ok text ∧ text.length < old.length ∧
      text ++ 0 :: old.drop (text.length + 1) = savedQuery q₀ q₁ old := by
  by_cases h₀ : q₀ = 0
  · refine ⟨[], cString_eq_ok.mpr ⟨by simp, _, by rw [h₀]; rfl⟩, by rw [List.length_nil]; omega, ?_⟩
    rw [savedQuery, if_pos h₀]
    rfl
  · by_cases h₁ : q₁ = 0
    · refine ⟨[q₀], cString_eq_ok.mpr ⟨by simpa using Ne.symm h₀, _, by rw [h₁]; rfl⟩,
        by rw [List.length_singleton]; omega, ?_⟩
      rw [savedQuery, if_neg h₀, if_pos h₁]
      rfl
    · refine ⟨[q₀, q₁, 1], cString_eq_ok.mpr ⟨?_, _, rfl⟩, hold, ?_⟩
      · simp [Ne.symm h₀, Ne.symm h₁]
      · rw [savedQuery, if_neg h₀, if_neg h₁]
        rfl

/-- The entry under which a query is saved. -/
theorem push_query {id : UInt16} {source : SockaddrIn} {type : UInt8} {time : ℤ}
    (hold : 4 ≤ (a.data k).message.length)
    (hp : a.push id source type time (q₀ :: q₁ :: 1 :: 0 :: rest) = .ok (b, some k)) :
    b.data k = ⟨⟨source, id, type⟩, true, time, savedQuery q₀ q₁ (a.data k).message⟩ := by
  obtain ⟨rfl, hfree⟩ : a.next = k ∧ (a.data a.next).valid = false := by
    rcases IDAdapter.push_cases hp with ⟨-, hr, -⟩ | ⟨hv, hr, -⟩
    · cases hr
    · cases hr
      exact ⟨rfl, hv⟩
  obtain ⟨text, htext, hlen, hsaved⟩ := strcpy_query q₀ q₁ rest hold
  rw [IDAdapter.push_of_free hfree htext hlen, hsaved] at hp
  cases hp
  simp [IDAdapter.set]

/-- The reply built from a slot: its flags are replaced, and it ends at the first zero. -/
def slotReply (message : Bytes) : Exec Bytes := do
  let message ← setHeaderFlag message flagResponseNormal
  let message ← setHeaderRcodeRefused message
  cString message

end Saved

section Sweep

variable {a b c : IDAdapter} {clock : Slot → ℤ} {k : Slot}

theorem sent_sweepSlot (ht : IDAdapter.timedOut (a.data k) (clock k) = true) :
    (IDAdapter.sweepSlot clock a k).sent =
      match slotReply (a.data k).message with
      | .ok reply => [⟨.server, (a.data k).info.addr, reply⟩]
      | .error _ => [] := by
  unfold IDAdapter.sweepSlot
  rw [if_pos ht]
  cases hf : setHeaderFlag (a.data k).message flagResponseNormal with
  | error e =>
      have hreply : slotReply (a.data k).message = .error e := by
        simp [slotReply, hf, bind, Except.bind]
      rw [hreply, Output.lift_error_bind]
  | ok message =>
      cases hr : setHeaderRcodeRefused message with
      | error e =>
          have hreply : slotReply (a.data k).message = .error e := by
            simp [slotReply, hf, hr, bind, Except.bind]
          rw [hreply, Output.lift_ok_bind, hr, Output.lift_error_bind]
      | ok message' =>
          have hreply : slotReply (a.data k).message = cString message' := by
            simp [slotReply, hf, hr, bind, Except.bind]
          rw [hreply, Output.lift_ok_bind, hr, Output.lift_ok_bind]
          cases hc : cString message' with
          | error e => rw [Output.lift_error_bind]
          | ok reply =>
              rw [Output.lift_ok_bind, Output.sent_emit_bind]
              rfl

/-- What a slot sends depends on its own entry only. -/
theorem sent_sweepSlot_congr (h : b.data k = a.data k) :
    (IDAdapter.sweepSlot clock b k).sent = (IDAdapter.sweepSlot clock a k).sent := by
  cases ht : IDAdapter.timedOut (a.data k) (clock k) with
  | true =>
      rw [sent_sweepSlot ht, sent_sweepSlot (by rwa [h]), h]
  | false =>
      have ht' : IDAdapter.timedOut (b.data k) (clock k) = false := by rwa [h]
      simp [IDAdapter.sweepSlot, ht, ht']

theorem sent_run_sweepSlot {ks : List Slot} (hnodup : ks.Nodup)
    (h : (Output.run (IDAdapter.sweepSlot clock) a ks).result = .ok b) :
    (Output.run (IDAdapter.sweepSlot clock) a ks).sent =
      ks.flatMap fun k => (IDAdapter.sweepSlot clock a k).sent := by
  induction ks generalizing a with
  | nil => rfl
  | cons k ks ih =>
      obtain ⟨hk, hnodup⟩ := List.nodup_cons.mp hnodup
      cases hs : (IDAdapter.sweepSlot clock a k).result with
      | error e =>
          rw [Output.run, Output.bind_of_error hs] at h
          cases h
      | ok a₁ =>
          rw [Output.run, Output.bind_of_ok hs] at h
          have hrest : ∀ j ∈ ks, a₁.data j = a.data j := fun j hj =>
            IDAdapter.sweepSlot_frame hs (ne_of_mem_of_not_mem hj hk)
          rw [Output.sent_run_cons hs, ih hnodup h, List.flatMap_cons]
          congr 1
          apply List.flatMap_congr
          intro j hj
          exact sent_sweepSlot_congr (hrest j hj)

/-- A sweep that comes to its end sends the replies of its slots one after the other. -/
theorem sent_sweep (h : (a.sweep clock).result = .ok b) :
    (a.sweep clock).sent =
      (List.finRange idAdapterSize).flatMap fun k => (IDAdapter.sweepSlot clock a k).sent :=
  sent_run_sweepSlot (List.nodup_finRange _) h

end Sweep

section Reply

variable {query rest old : Bytes}

/-- The reply from a slot in which a query was saved over old contents is the refusal of
the query only if the old contents were the rest of the query already. -/
theorem slotReply_query_iff (q₀ q₁ : UInt8) (rest : Bytes) (hold : 4 ≤ old.length) :
    slotReply (savedQuery q₀ q₁ old) = .ok (withFlags 0x8005 (q₀ :: q₁ :: 1 :: 0 :: rest)) ↔
      q₀ ≠ 0 ∧ q₁ ≠ 0 ∧ 0 ∉ rest ∧ HasAt old 4 (rest ++ [0]) := by
  obtain ⟨o₀, o₁, o₂, o₃, tail, rfl⟩ : ∃ o₀ o₁ o₂ o₃ tail, old = o₀ :: o₁ :: o₂ :: o₃ :: tail := by
    match old, hold with
    | o₀ :: o₁ :: o₂ :: o₃ :: tail, _ => exact ⟨o₀, o₁, o₂, o₃, tail, rfl⟩
  have hrefusal : withFlags 0x8005 (q₀ :: q₁ :: 1 :: 0 :: rest) =
      q₀ :: q₁ :: 0x80 :: 0x05 :: rest := rfl
  have htail : HasAt (o₀ :: o₁ :: o₂ :: o₃ :: tail) 4 (rest ++ [0]) ↔
      ∃ r, tail = rest ++ 0 :: r := by
    have hdrop := hasAt_drop (l := o₀ :: o₁ :: o₂ :: o₃ :: tail) (p := 4) (s := rest ++ [0])
      (q := 0)
    rw [← hdrop]
    constructor
    · intro h
      obtain ⟨r, hr⟩ := h.front
      exact ⟨r, by simpa using hr⟩
    · rintro ⟨r, rfl⟩
      have : HasAt ((rest ++ [0]) ++ r) 0 (rest ++ [0]) :=
        (hasAt_length_append [] _).append_right r
      simpa using this
  rw [hrefusal, htail]
  by_cases h₀ : q₀ = 0
  · -- the saved text is empty, and so is the reply
    have hreply : slotReply (savedQuery q₀ q₁ (o₀ :: o₁ :: o₂ :: o₃ :: tail)) =
        cString (0 :: o₁ :: 0x80 :: 0x05 :: tail) := by
      rw [savedQuery, if_pos h₀]
      rfl
    rw [hreply, cString_eq_ok]
    simp [h₀]
  · by_cases h₁ : q₁ = 0
    · have hreply : slotReply (savedQuery q₀ q₁ (o₀ :: o₁ :: o₂ :: o₃ :: tail)) =
          cString (q₀ :: 0 :: 0x80 :: 0x05 :: tail) := by
        rw [savedQuery, if_neg h₀, if_pos h₁]
        rfl
      rw [hreply, cString_eq_ok]
      simp [h₁]
    · have hreply : slotReply (savedQuery q₀ q₁ (o₀ :: o₁ :: o₂ :: o₃ :: tail)) =
          cString (q₀ :: q₁ :: 0x80 :: 0x05 :: tail) := by
        rw [savedQuery, if_neg h₀, if_neg h₁]
        rfl
      rw [hreply, cString_eq_ok]
      simp [h₀, h₁, Ne.symm h₀, Ne.symm h₁]

theorem query_split (hmin : 12 ≤ query.length) (hflags : HasAt query 2 (u16Bytes flagQuery)) :
    ∃ q₀ q₁ tail, query = q₀ :: q₁ :: 1 :: 0 :: tail := by
  match query, hmin with
  | q₀ :: q₁ :: q₂ :: q₃ :: tail, _ =>
      obtain ⟨h₂, h₃, -⟩ : (some q₂ = some 1) ∧ (some q₃ = some 0) ∧ True := by
        simpa [u16Bytes, flagQuery, UInt8.ext_iff] using hflags
      exact ⟨q₀, q₁, tail, by rw [Option.some.inj h₂, Option.some.inj h₃]⟩

/-- The sweep answers a timed out query with its refusal, in full length and byte for byte,
exactly when its id has no zero byte, nothing behind its flags is zero, and the slot held
these very bytes, with a zero behind them, before the query was saved. -/
theorem timeoutReply_iff (a b c : IDAdapter) (id : UInt16) (source : SockaddrIn) (type : UInt8)
    (time : ℤ) (query rest : Bytes) (k : Slot) (ops : List AdapterOp) (rs : List AdapterResult)
    (clock : Slot → ℤ) (hsize : ∀ k, (a.data k).message.length = 1024)
    (hmin : 12 ≤ query.length) (hmax : query.length ≤ 520)
    (hflags : HasAt query 2 (u16Bytes flagQuery))
    (hp : a.push id source type time (query ++ 0 :: rest) = .ok (b, some k))
    (hf : along AdapterOp.exec (fun s op => !op.frees k s) b ops = true)
    (hrun : run AdapterOp.exec b ops = .ok (c, rs))
    (ht : IDAdapter.timedOut (c.data k) (clock k) = true) :
    (∀ c', (c.sweep clock).result = .ok c' → (c.sweep clock).sent =
      (List.finRange idAdapterSize).flatMap fun k => (IDAdapter.sweepSlot clock c k).sent) ∧
    ((IDAdapter.sweepSlot clock c k).sent = [⟨.server, source, withFlags 0x8005 query⟩] ↔
      0 ∉ query.take 2 ∧ 0 ∉ query.drop 4 ∧
        HasAt (a.data k).message 4 (query.drop 4 ++ [0])) := by
  refine ⟨fun c' hc' => sent_sweep hc', ?_⟩
  obtain ⟨q₀, q₁, tail, rfl⟩ := query_split hmin hflags
  have hold : 4 ≤ (a.data k).message.length := by
    rw [hsize]
    decide
  -- what the push has left in the slot is there still when the sweep comes
  have hb := push_query hold hp
  have hc := AdapterOp.run_frame (by rw [hb]) hf hrun
  rw [hb] at hc
  rw [sent_sweepSlot ht, hc]
  have hid : (0 : UInt8) ∉ (q₀ :: q₁ :: 1 :: 0 :: tail).take 2 ↔ q₀ ≠ 0 ∧ q₁ ≠ 0 := by
    simp [eq_comm]
  have hreply := slotReply_query_iff q₀ q₁ tail hold
  rw [hid, and_assoc]
  refine Iff.trans ?_ hreply
  cases slotReply (savedQuery q₀ q₁ (a.data k).message) with
  | ok reply => simp
  | error e => simp

/-- A query without zero bytes behind its flags, saved in a slot that held the same bytes,
is refused in full. -/
theorem timeoutReply_iff_sample :
    ∃ b, IDAdapter.push
        { (booted 0).adapter with data := fun _ => ⟨⟨⟨0, 0, 0⟩, 0, 0⟩, false, 0,
          List.replicate 4 0 ++ List.replicate 8 9 ++ List.replicate 1012 0⟩ }
        0x0707 ⟨2, 1, 1⟩ 1 0 ([7, 7, 1, 0] ++ List.replicate 8 9 ++ 0 :: []) = .ok (b, some 0) ∧
      (IDAdapter.sweepSlot (fun _ => 1000) b 0).sent =
        [⟨.server, ⟨2, 1, 1⟩, [7, 7, 0x80, 5] ++ List.replicate 8 9⟩] := by
  have htext : cString ([7, 7, 1, 0] ++ List.replicate 8 9 ++ 0 :: []) = .ok [7, 7, 1] := by decide
  have hlen : (List.replicate 4 0 ++ List.replicate 8 9 ++ List.replicate 1012 0 : Bytes).length =
      1024 := by
    simp only [List.length_append, List.length_replicate]
  have hpush : IDAdapter.push
      { (booted 0).adapter with data := fun _ => ⟨⟨⟨0, 0, 0⟩, 0, 0⟩, false, 0,
        List.replicate 4 0 ++ List.replicate 8 9 ++ List.replicate 1012 0⟩ }
      0x0707 ⟨2, 1, 1⟩ 1 0 ([7, 7, 1, 0] ++ List.replicate 8 9 ++ 0 :: []) = .ok (_, some 0) :=
    IDAdapter.push_of_free rfl htext (hlen.symm ▸ by decide)
  refine ⟨_, hpush, ?_⟩
  have hreply := timeoutReply_iff _ _ _ 0x0707 ⟨2, 1, 1⟩ 1 0 ([7, 7, 1, 0] ++ List.replicate 8 9) []
    0 [] [] (fun _ => 1000) (fun _ => hlen) (by decide) (by decide) (by decide) hpush rfl rfl rfl
  exact hreply.2.mpr ⟨by decide, by decide, by decide +kernel⟩

/-- A query with id `0x0707` for the name `a`: the reply to the client ends with the flags. -/
theorem timeoutReply_truncated :
    ¬ (⟨.server, ⟨2, 1, 1⟩,
        withFlags 0x8005 (questionMessage 0x0707 flagQuery [[97]] 15)⟩ : Datagram) ∈
      (mainLoop (booted 0)
        [.request ⟨2, 1, 1⟩ (questionMessage 0x0707 flagQuery [[97]] 15) 0 0 0,
          .sweep fun _ => 1000]).sent ∧
    (⟨.server, ⟨2, 1, 1⟩, [7, 7, 0x80, 5]⟩ : Datagram) ∈
      (mainLoop (booted 0)
        [.request ⟨2, 1, 1⟩ (questionMessage 0x0707 flagQuery [[97]] 15) 0 0 0,
          .sweep fun _ => 1000]).sent := by
  decide +kernel

end Reply

end DnsRelay.Relay
