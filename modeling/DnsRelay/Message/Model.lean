import DnsRelay.Basic
import Mathlib.Data.Nat.Notation

/-!
# DNS messages of `common.c`

A message buffer is the list of its bytes, and a `char *` into it is an offset, which the
source moves in both directions. Reading or writing outside the buffer is undefined
behaviour and stops with `Stop.fault`. The `short` counters of the name decoder stay far
below their range in buffers of the sizes the program uses.
-/

namespace DnsRelay.Message

abbrev Bytes := List UInt8

def dnsHeaderSize : ℤ := 12
def maxDnsSize : ℕ := 520
def maxNameLength : ℕ := 256
def flagQuery : ℕ := 0x0100
def flagResponseNormal : ℕ := 0x8000
def rrtypeA : ℕ := 1
def rrtypeCname : ℕ := 5
def rrtypeAAAA : ℕ := 28
def httpClass : ℤ := 1
def rcodeNameError : ℕ := 3
def rcodeRefused : ℕ := 5

/-- The character `.`. -/
def dot : UInt8 := 46

section Memory

def readByte (buffer : Bytes) (i : ℤ) : Exec UInt8 :=
  match i with
  | .ofNat n =>
      match buffer[n]? with
      | some b => .ok b
      | none => .error .fault
  | .negSucc _ => .error .fault

def readBytes (buffer : Bytes) (i : ℤ) : ℕ → Exec Bytes
  | 0 => .ok []
  | n + 1 => do
      let b ← readByte buffer i
      return b :: (← readBytes buffer (i + 1) n)

/-- A field in network byte order, as `ntohs` delivers it. -/
def readU16 (buffer : Bytes) (i : ℤ) : Exec ℕ := do
  let hi ← readByte buffer i
  let lo ← readByte buffer (i + 1)
  return hi.toNat * 256 + lo.toNat

def readU32 (buffer : Bytes) (i : ℤ) : Exec ℕ := do
  let hi ← readU16 buffer i
  let lo ← readU16 buffer (i + 2)
  return hi * 65536 + lo

def writeByte (buffer : Bytes) (i : ℤ) (b : UInt8) : Exec Bytes :=
  match i with
  | .ofNat n => if n < buffer.length then .ok (buffer.set n b) else .error .fault
  | .negSucc _ => .error .fault

def writeBytes (buffer : Bytes) (i : ℤ) : Bytes → Exec Bytes
  | [] => .ok buffer
  | b :: bytes => do writeBytes (← writeByte buffer i b) (i + 1) bytes

/-- The two bytes that `htons` leaves in memory. -/
def u16Bytes (x : ℕ) : Bytes := [UInt8.ofNat (x / 256), UInt8.ofNat x]

def u32Bytes (x : ℕ) : Bytes := u16Bytes (x / 65536) ++ u16Bytes x

/-- The C string at the start of a character array. -/
def cString (array : Bytes) : Exec Bytes :=
  if 0 ∈ array then .ok (array.takeWhile (· != 0)) else .error .fault

/-- `strcpy` into a character array. -/
def strcpy (array text : Bytes) : Exec Bytes :=
  if array.length ≤ text.length then .error .fault
  else .ok (text ++ 0 :: array.drop (text.length + 1))

/-- A byte as the signed `char` of the source. -/
def signedChar (b : UInt8) : ℤ :=
  if b.toNat < 128 then b.toNat else b.toNat - 256

end Memory

section Names

/-- `is_compress`: one of the two tag bits is set. -/
def isCompress (b : UInt8) : Bool := b &&& 0xc0 != 0

/-- `get_compress_pos` of the two bytes of a pointer. -/
def compressPos (hi lo : UInt8) : ℕ := (hi.toNat * 256 + lo.toNat) % 0x4000

/-- What a call of `fetch_label` has done: the characters written from `dest` on, where
the last one is then replaced by the terminator; the returned value; and `*next`. -/
structure Fetched where
  out : Bytes
  ret : ℤ
  next : ℤ
  deriving DecidableEq

/-- The loop of `fetch_label` at a byte of the name, with the characters that this call
has written so far. Every label is followed by a dot, and a pointer continues in a nested
call, whose return value is passed on. -/
def fetchLoop (buffer : Bytes) : ℕ → ℤ → Bytes → Exec Fetched
  | 0, _, _ => .error .hang
  | fuel + 1, pos, out => do
      let b ← readByte buffer pos
      if b = 0 then return ⟨out, out.length - 1, pos⟩
      else if isCompress b then
        let lo ← readByte buffer (pos + 1)
        let inner ← fetchLoop buffer fuel (compressPos b lo) []
        return ⟨out ++ inner.out, inner.ret, pos + 2⟩
      else
        let label ← readBytes buffer (pos + 1) b.toNat
        fetchLoop buffer fuel (pos + b.toNat + 1) (out ++ label ++ [dot])

/-- `fetch_label`. A name that has not ended after one step for each byte of the buffer
never ends. -/
def fetchLabel (buffer : Bytes) (src : ℤ) : Exec Fetched :=
  fetchLoop buffer (buffer.length + 1) src []

/-- What `fetch_label` leaves in its destination. Without any label the terminator goes
to the byte before the array. -/
def storeName (array : Bytes) (out : Bytes) : Exec Bytes :=
  if out = [] then .ok array
  else if array.length < out.length then .error .fault
  else .ok (out.dropLast ++ 0 :: array.drop out.length)

/-- The loop `while (*data != 0) data += *data + 1`. -/
def skipLoop (buffer : Bytes) : ℕ → ℤ → Exec ℤ
  | 0, _ => .error .hang
  | fuel + 1, pos => do
      let b ← readByte buffer pos
      if b = 0 then return pos else skipLoop buffer fuel (pos + signedChar b + 1)

/-- One round of the question loop of `read_dns_answers`, and all of `skip_to_answer`. -/
def skipQuestion (buffer : Bytes) (pos : ℤ) : Exec ℤ := do
  return (← skipLoop buffer (buffer.length + 1) pos) + 5

/-- `skip_to_answer`. -/
def skipToAnswer (buffer : Bytes) : Exec ℤ := skipQuestion buffer dnsHeaderSize

/-- The loop of `str_to_label`, which ends early when the limit is reached. -/
def strToLabelLoop (dest : ℤ) (maxlen : ℕ) :
    Bytes → ℕ → ℕ → ℕ → Bytes → Exec (Bytes × Option (ℕ × ℕ × ℕ))
  | [], lastPos, cumulate, j, buffer => .ok (buffer, some (lastPos, cumulate, j))
  | ch :: host, lastPos, cumulate, j, buffer =>
      if j < maxlen then
        if ch = dot then do
          let buffer ← writeByte buffer (dest + lastPos) (UInt8.ofNat cumulate)
          strToLabelLoop dest maxlen host j 0 (j + 1) buffer
        else do
          let buffer ← writeByte buffer (dest + j) ch
          strToLabelLoop dest maxlen host lastPos (cumulate + 1) (j + 1) buffer
      else .ok (buffer, none)

/-- The statements of `str_to_label` after its loop. -/
def strToLabelEnd (dest : ℤ) : Bytes × Option (ℕ × ℕ × ℕ) → Exec (Bytes × ℤ)
  | (buffer, none) => .ok (buffer, -1)
  | (buffer, some (lastPos, cumulate, j)) => do
      let buffer ← writeByte buffer (dest + lastPos) (UInt8.ofNat cumulate)
      let buffer ← writeByte buffer (dest + j) 0
      return (buffer, j + 1)

/-- `str_to_label`. -/
def strToLabel (buffer : Bytes) (dest : ℤ) (host : Bytes) (maxlen : ℕ) : Exec (Bytes × ℤ) :=
  strToLabelLoop dest maxlen host 0 0 1 buffer >>= strToLabelEnd dest

end Names

section Sections

/-- `struct question`. -/
structure Question where
  label : Bytes
  qtype : ℕ
  qclass : ℕ
  deriving DecidableEq

/-- `struct answer` without the fields for canonical names, which nothing reads. -/
structure Answer where
  name : Bytes
  address : IP
  type : ℕ
  class_ : ℕ
  ttl : ℕ
  deriving DecidableEq

/-- The fields of `struct dns_header` that the program uses; `flags` is not converted. -/
structure DnsHeader where
  id : ℕ
  flags : ℕ
  deriving DecidableEq

/-- `htons` of a little-endian machine. -/
def htons (x : ℕ) : ℕ := x % 256 * 256 + x / 256 % 256

/-- `read_dns_header`. -/
def readDnsHeader (buffer : Bytes) : Exec DnsHeader := do
  let id ← readU16 buffer 0
  let flags ← readU16 buffer 2
  return ⟨id, htons flags⟩

/-- `read_dns_question`, with the type and class read where the name walk stopped. -/
def readDnsQuestion (question : Question) (buffer : Bytes) (src : ℤ) :
    Exec (Question × ℤ) := do
  let fetched ← fetchLabel buffer src
  let label ← storeName question.label fetched.out
  if fetched.ret < 0 then return ({ question with label := label }, -1)
  else
    let qtype ← readU16 buffer fetched.next
    let qclass ← readU16 buffer (fetched.next + 2)
    return (⟨label, qtype, qclass⟩, fetched.next - src + 1)

/-- `read_dns_questions`. -/
def readDnsQuestions (question : Question) (buffer : Bytes) : Exec (Question × ℕ) := do
  let questionNum ← readU16 buffer 4
  let (question, size) ← readDnsQuestion question buffer dnsHeaderSize
  let qtype ← readU16 buffer (dnsHeaderSize + size)
  let qclass ← readU16 buffer (dnsHeaderSize + size + 2)
  return ({ question with qtype := qtype, qclass := qclass }, questionNum)

/-- `sizeof(struct IP)`: the sixteen bytes of the union and the tag, with padding up to the
alignment of a 128-bit number. -/
def sizeofIP : ℕ := 32

/-- `memcpy(&dest->address.addr, src, length)` as far as the union goes. -/
def copyAddr (addr : Vector UInt8 16) (bytes : Bytes) : Vector UInt8 16 :=
  .ofFn fun i => bytes.getD i (addr.get i)

/-- `read_dns_answer`: the entry, the distance to the next record, and `*good`. -/
def readDnsAnswer (dest : Answer) (buffer : Bytes) (src : ℤ) :
    Exec (Answer × ℤ × Bool) := do
  let fetched ← fetchLabel buffer src
  let name ← storeName dest.name fetched.out
  if fetched.ret = -1 then return ({ dest with name := name }, -1, false)
  else
    let type ← readU16 buffer fetched.next
    let class_ ← readU16 buffer (fetched.next + 2)
    let ttl ← readU32 buffer (fetched.next + 4)
    let length ← readU16 buffer (fetched.next + 8)
    let dest := { dest with name := name, type := type, class_ := class_, ttl := ttl }
    let size := fetched.next + 10 + length - src
    if type = rrtypeA ∨ type = rrtypeAAAA then
      if sizeofIP < length then .error .fault
      else
        -- what is behind the union goes to the padding and to the tag, which is set next
        let bytes ← readBytes buffer (fetched.next + 10) length
        return ({ dest with address :=
          ⟨copyAddr dest.address.addr bytes, UInt8.ofNat type⟩ }, size, true)
    else return (dest, size, false)

/-- The loop of `read_dns_answers` over the questions. -/
def skipQuestions (buffer : Bytes) : ℕ → ℤ → Exec ℤ
  | 0, pos => .ok pos
  | n + 1, pos => do skipQuestions buffer n (← skipQuestion buffer pos)

/-- The loop of `read_dns_answers` over the records; `cnt` entries are filled so far. -/
def readAnswerLoop (buffer : Bytes) : ℕ → List Answer → ℤ → ℕ → Exec (List Answer × ℕ)
  | 0, answers, _, cnt => .ok (answers, cnt)
  | n + 1, answers, pos, cnt =>
      match answers[cnt]? with
      | none => .error .fault
      | some dest => do
          let (dest, size, good) ← readDnsAnswer dest buffer pos
          readAnswerLoop buffer n (answers.set cnt dest) (pos + size)
            (if good then cnt + 1 else cnt)

/-- `read_dns_answers`. -/
def readDnsAnswers (answers : List Answer) (buffer : Bytes) : Exec (List Answer × ℕ) := do
  let ans ← readU16 buffer 6
  let question ← readU16 buffer 4
  let pos ← skipQuestions buffer question dnsHeaderSize
  readAnswerLoop buffer ans answers pos 0

end Sections

section Writers

/-- `set_header_id`. -/
def setHeaderId (buffer : Bytes) (id : ℕ) : Exec Bytes := writeBytes buffer 0 (u16Bytes id)

/-- `set_header_flag`. -/
def setHeaderFlag (buffer : Bytes) (flags : ℕ) : Exec Bytes :=
  writeBytes buffer 2 (u16Bytes flags)

/-- The assignments to the four-bit field `rcode`. -/
def setHeaderRcode (buffer : Bytes) (rcode : ℕ) : Exec Bytes := do
  let b ← readByte buffer 3
  writeByte buffer 3 (b &&& 0xf0 ||| UInt8.ofNat rcode)

/-- `set_header_rcode_refused`. -/
def setHeaderRcodeRefused (buffer : Bytes) : Exec Bytes := setHeaderRcode buffer rcodeRefused

/-- `set_header_rcode_name_error`. -/
def setHeaderRcodeNameError (buffer : Bytes) : Exec Bytes :=
  setHeaderRcode buffer rcodeNameError

/-- `IN_16b_RANGE(x) ? x : 0`. -/
def field16 (x : ℤ) : ℕ := if 0 ≤ x ∧ x ≤ 0xffff then x.toNat else 0

/-- `write_dns_header`. The id is stored without conversion, and an id out of range is
replaced by what `rand()` returns. -/
def writeDnsHeader (buffer : Bytes) (dest id : ℤ) (rand flags : ℕ)
    (qdcount ancount nscount adcount : ℤ) : Exec (Bytes × ℤ) := do
  let id := if 0 ≤ id ∧ id ≤ 0xffff then id.toNat else rand
  let buffer ← writeBytes buffer dest (u16Bytes (htons id))
  let buffer ← writeBytes buffer (dest + 2) (u16Bytes flags)
  let buffer ← writeBytes buffer (dest + 4) (u16Bytes (field16 qdcount))
  let buffer ← writeBytes buffer (dest + 6) (u16Bytes (field16 ancount))
  let buffer ← writeBytes buffer (dest + 8) (u16Bytes (field16 nscount))
  let buffer ← writeBytes buffer (dest + 10) (u16Bytes (field16 adcount))
  return (buffer, dnsHeaderSize)

/-- `write_dns_question`. -/
def writeDnsQuestion (buffer : Bytes) (dest : ℤ) (question : Bytes) (class_ type : ℤ) :
    Exec (Bytes × ℤ) := do
  let (buffer, size) ← strToLabel buffer dest question maxDnsSize
  if size = -1 then return (buffer, -1)
  else
    let buffer ← writeBytes buffer (dest + size + 2) (u16Bytes (field16 class_))
    let buffer ← writeBytes buffer (dest + size) (u16Bytes (field16 type))
    return (buffer, size + 4)

/-- `write_dns_query`, with the value of `rand()` that becomes the id. -/
def writeDnsQuery (buffer questions : Bytes) (answertype : ℤ) (rand : ℕ) :
    Exec (Bytes × ℤ) := do
  let (buffer, headerSize) ← writeDnsHeader buffer 0 (-1) rand flagQuery 1 0 0 0
  let (buffer, size) ← writeDnsQuestion buffer headerSize questions httpClass answertype
  return (buffer, headerSize + size)

/-- `IN_32b_RANGE(ttl) ? ttl : 0` for the `int` parameter of `write_dns_answer`. -/
def ttlField (ttl : ℕ) : ℕ := if ttl % 2 ^ 32 < 2 ^ 31 then ttl % 2 ^ 32 else 0

/-- `write_dns_answer`; `rdata` is the memory behind the pointer. Types and classes are
16-bit fields of `struct answer`, so their range checks hold. -/
def writeDnsAnswer (buffer : Bytes) (dest : ℤ) (name : Bytes) (type class_ ttl : ℕ)
    (rdata : Bytes) : Exec (Bytes × ℤ) := do
  let (buffer, count) ← strToLabel buffer dest name maxDnsSize
  if count = -1 then return (buffer, -1)
  else
    let answer := dest + count
    let buffer ← writeBytes buffer answer (u16Bytes type)
    let buffer ← writeBytes buffer (answer + 2) (u16Bytes class_)
    let buffer ← writeBytes buffer (answer + 4) (u32Bytes (ttlField ttl))
    if type = rrtypeA then
      let buffer ← writeBytes buffer (answer + 8) (u16Bytes 4)
      let buffer ← writeBytes buffer (answer + 10) (rdata.take 4)
      return (buffer, count + 10 + 4)
    else if type = rrtypeAAAA then
      let buffer ← writeBytes buffer (answer + 8) (u16Bytes 16)
      let buffer ← writeBytes buffer (answer + 10) (rdata.take 16)
      return (buffer, count + 10 + 16)
    else if type = rrtypeCname then
      let cname ← cString rdata
      let (buffer, size) ← strToLabel buffer (answer + 10) cname maxDnsSize
      let buffer ← writeBytes buffer (answer + 8) (u16Bytes (size % 65536).toNat)
      return (buffer, count + 10 + size)
    else return (buffer, -1)

/-- The loop of `write_dns_response_by_query`. -/
def writeAnswerLoop : List Answer → Bytes → ℤ → Exec (Bytes × ℤ)
  | [], buffer, pos => .ok (buffer, pos)
  | answer :: rest, buffer, pos => do
      let name ← cString answer.name
      let (buffer, size) ← writeDnsAnswer buffer pos name answer.type answer.class_ answer.ttl
        (answer.address.addr.toList ++ [answer.address.type])
      writeAnswerLoop rest buffer (pos + size)

/-- `write_dns_response_by_query`. -/
def writeDnsResponseByQuery (buffer : Bytes) (answers : List Answer) : Exec (Bytes × ℤ) := do
  let buffer ← setHeaderFlag buffer flagResponseNormal
  let buffer ← writeBytes buffer 6 (u16Bytes answers.length)
  let pos ← skipToAnswer buffer
  writeAnswerLoop answers buffer pos

end Writers

end DnsRelay.Message
