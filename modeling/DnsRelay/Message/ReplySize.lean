import DnsRelay.Message.Replies
import DnsRelay.Message.Sizes
import DnsRelay.Message.Walkers

/-!
# The size of a written reply

`write_dns_response_by_query` repeats the whole name in every record and never looks at the end
of the buffer. Its writes stay inside exactly when the question ends in the buffer and the
records behind it do so too.
-/

namespace DnsRelay.Message

open DnsRelay.Lib DnsRelay.Lib.Machine

variable {buffer buffer' label : Bytes} {answers : List Answer} {type d n : ℕ} {pos size : ℤ}

/-- `write_dns_response_by_query` up to its loop: the header is written and the question is
skipped. -/
def answerStart (buffer : Bytes) (n : ℕ) : Exec (Bytes × ℤ) := do
  let buffer ← setHeaderFlag buffer flagResponseNormal
  let buffer ← writeBytes buffer 6 (u16Bytes n)
  let pos ← skipToAnswer buffer
  return (buffer, pos)

theorem writeDnsResponseByQuery_eq (buffer : Bytes) (answers : List Answer) :
    writeDnsResponseByQuery buffer answers =
      (answerStart buffer answers.length >>= fun p => writeAnswerLoop answers p.1 p.2) := by
  simp only [writeDnsResponseByQuery, answerStart, bind_assoc, pure_bind]

theorem answerStart_length (h : answerStart buffer n = .ok (buffer', pos)) :
    buffer'.length = buffer.length := by
  obtain ⟨b₁, h₁, h⟩ := bind_eq_ok.mp h
  obtain ⟨b₂, h₂, h⟩ := bind_eq_ok.mp h
  obtain ⟨r, -, h⟩ := bind_eq_ok.mp h
  cases h
  rw [writeBytes_length h₂, writeBytes_length h₁]

/-- The answers start behind a byte of the buffer. -/
theorem answerStart_nonneg (h : answerStart buffer n = .ok (buffer', pos)) :
    ∃ d : ℕ, pos = d := by
  obtain ⟨b₁, -, h⟩ := bind_eq_ok.mp h
  obtain ⟨b₂, -, h⟩ := bind_eq_ok.mp h
  obtain ⟨r, hr, h⟩ := bind_eq_ok.mp h
  cases h
  obtain ⟨q, hq, h⟩ := bind_eq_ok.mp hr
  cases h
  obtain ⟨-, hzero⟩ := skipLoop_reaches hq
  obtain ⟨k, rfl, -⟩ := readByte_ok hzero
  exact ⟨k + 5, rfl⟩

/-- Address records with the same owner. -/
structure SameOwner (label : Bytes) (type : ℕ) (a : Answer) : Prop where
  name : cString a.name = .ok label
  type_eq : a.type = type

section Loop

variable (hlabel : label.length < maxDnsSize) (htype : type = rrtypeA ∨ type = rrtypeAAAA)
  (hsame : ∀ a ∈ answers, SameOwner label type a)

include hlabel htype hsame

/-- A loop that returns has moved on by the size of every record. -/
theorem writeAnswerLoop_size (h : writeAnswerLoop answers buffer d = .ok (buffer', size)) :
    size = ((d + answers.length * (label.length + 12 + addrSize type) : ℕ) : ℤ) := by
  induction answers generalizing buffer d with
  | nil =>
      cases h
      simp
  | cons a answers ih =>
      obtain ⟨hname, rfl⟩ := hsame a (by simp)
      obtain ⟨name, hname', h⟩ := bind_eq_ok.mp h
      cases hname.symm.trans hname'
      obtain ⟨⟨b₁, ret⟩, hw, h⟩ := bind_eq_ok.mp h
      obtain rfl := writeDnsAnswer_size hlabel htype hw
      dsimp only at h
      rw [← Int.natCast_add] at h
      rw [ih (fun x hx => hsame x (List.mem_cons_of_mem _ hx)) h, List.length_cons, Nat.succ_mul]
      congr 1
      omega

/-- The loop returns when there is room for the records. -/
theorem writeAnswerLoop_of_room
    (hroom : d + answers.length * (label.length + 12 + addrSize type) ≤ buffer.length) :
    ∃ buffer' size, writeAnswerLoop answers buffer d = .ok (buffer', size) := by
  induction answers generalizing buffer d with
  | nil => exact ⟨buffer, _, rfl⟩
  | cons a answers ih =>
      rw [List.length_cons, Nat.succ_mul] at hroom
      obtain ⟨hname, rfl⟩ := hsame a (by simp)
      obtain ⟨b₁, ret, hw⟩ := writeDnsAnswer_of_room a.class_ a.ttl
        (a.address.addr.toList ++ [a.address.type]) hlabel htype
        (show d + _ ≤ buffer.length by omega)
      obtain rfl := writeDnsAnswer_size hlabel htype hw
      obtain ⟨b₂, size, hloop⟩ := ih (fun x hx => hsame x (List.mem_cons_of_mem _ hx))
        (show d + (label.length + 12 + addrSize a.type) + _ ≤ b₁.length by
          rw [writeDnsAnswer_length hw]
          omega)
      simp only [writeAnswerLoop, hname, hw, ← Int.natCast_add, hloop, bind, Except.bind]
      exact ⟨b₂, size, rfl⟩

/-- The writer returns exactly when the answers start in the buffer and end in it. -/
theorem writeDnsResponseByQuery_iff (buffer : Bytes) :
    (∃ buffer' size, writeDnsResponseByQuery buffer answers = .ok (buffer', size) ∧
      size ≤ buffer.length) ↔
      ∃ b pos, answerStart buffer answers.length = .ok (b, pos) ∧
        pos + answers.length * (label.length + 12 + addrSize type) ≤ buffer.length := by
  rw [writeDnsResponseByQuery_eq]
  constructor
  · rintro ⟨buffer', size, hwrite, hle⟩
    obtain ⟨⟨b, pos⟩, hstart, hloop⟩ := bind_eq_ok.mp hwrite
    refine ⟨b, pos, hstart, ?_⟩
    obtain ⟨d, rfl⟩ := answerStart_nonneg hstart
    rw [writeAnswerLoop_size hlabel htype hsame hloop] at hle
    exact_mod_cast hle
  · rintro ⟨b, pos, hstart, hle⟩
    obtain ⟨d, rfl⟩ := answerStart_nonneg hstart
    have hroom : d + answers.length * (label.length + 12 + addrSize type) ≤ b.length := by
      rw [answerStart_length hstart]
      exact_mod_cast hle
    obtain ⟨buffer', size, hloop⟩ := writeAnswerLoop_of_room hlabel htype hsame hroom
    refine ⟨buffer', size, bind_eq_ok.mpr ⟨_, hstart, hloop⟩, ?_⟩
    rw [writeAnswerLoop_size hlabel htype hsame hloop]
    exact_mod_cast hle

end Loop

end DnsRelay.Message
