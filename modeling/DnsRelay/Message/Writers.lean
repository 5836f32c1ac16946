import DnsRelay.Message.Names

/-!
# Encoding names and records

What the writers have left in the buffer when they return: the encoded bytes at their
place and every other byte as it was.
-/

namespace DnsRelay.Message

open DnsRelay.Lib DnsRelay.Lib.Machine

variable {buffer buffer' bytes : Bytes} {pos : ℤ} {i k p q n : ℕ} {b : UInt8}

section Memory

theorem writeByte_ok (h : writeByte buffer i b = .ok buffer') :
    i < buffer.length ∧ buffer' = buffer.set i b := by
  change (if i < buffer.length then Except.ok (buffer.set i b) else .error Stop.fault) = _ at h
  split at h
  · rename_i hlt
    cases h
    exact ⟨hlt, rfl⟩
  · cases h

theorem writeByte_of_lt (h : i < buffer.length) :
    writeByte buffer i b = .ok (buffer.set i b) := if_pos h

/-- The bytes `s` have been written from `d` on, and nothing else. -/
structure Wrote (buffer buffer' : Bytes) (d : ℕ) (s : Bytes) : Prop where
  changed : ChangedIn buffer buffer' d (d + s.length)
  here : HasAt buffer' d s

/-- Two writes, one right behind the other. -/
theorem Wrote.append {d : ℕ} {s t buffer₁ : Bytes} (h : Wrote buffer buffer₁ d s)
    (h' : Wrote buffer₁ buffer' (d + s.length) t) : Wrote buffer buffer' d (s ++ t) := by
  constructor
  · rw [List.length_append]
    refine ChangedIn.trans (h.changed.mono ?_ ?_) (h'.changed.mono ?_ ?_) <;> omega
  · rw [hasAt_append]
    exact ⟨h.here.changed h'.changed (by omega), h'.here⟩

theorem wrote_set (h : i < buffer.length) : Wrote buffer (buffer.set i b) i [b] where
  changed := changedIn_set (le_refl i) (by simp)
  here := by
    rw [hasAt_cons]
    exact ⟨List.getElem?_set_self h, hasAt_nil⟩

/-- A write that returned has put its bytes in place. -/
theorem writeBytes_ok (h : writeBytes buffer i bytes = .ok buffer') :
    Wrote buffer buffer' i bytes := by
  induction bytes generalizing buffer i with
  | nil =>
      cases h
      exact ⟨.refl, hasAt_nil⟩
  | cons b bytes ih =>
      obtain ⟨buffer₁, hb, h⟩ := bind_eq_ok.mp h
      obtain ⟨hlt, rfl⟩ := writeByte_ok hb
      have hcast : writeBytes (buffer.set i b) ((i + 1 : ℕ) : ℤ) bytes = .ok buffer' := by
        exact_mod_cast h
      exact (wrote_set hlt).append (ih hcast)

/-- One more write right behind the previous ones. -/
theorem Wrote.write {d : ℕ} {s t buffer₁ buffer₂ : Bytes} (h : Wrote buffer buffer₁ d s)
    (hpos : pos = ((d + s.length : ℕ) : ℤ)) (hw : writeBytes buffer₁ pos t = .ok buffer₂) :
    Wrote buffer buffer₂ d (s ++ t) := by
  rw [hpos] at hw
  exact h.append (writeBytes_ok hw)

theorem writeBytes_of_le (h : i + bytes.length ≤ buffer.length) :
    ∃ buffer', writeBytes buffer i bytes = .ok buffer' := by
  induction bytes generalizing buffer i with
  | nil => exact ⟨buffer, rfl⟩
  | cons b bytes ih =>
      simp only [List.length_cons] at h
      have hlen : i + 1 + bytes.length ≤ (buffer.set i b).length := by
        simp only [List.length_set]
        omega
      obtain ⟨buffer', hw⟩ := ih hlen
      refine ⟨buffer', ?_⟩
      have hcast : writeBytes (buffer.set i b) ((i : ℤ) + 1) bytes = .ok buffer' := by
        exact_mod_cast hw
      simp [writeBytes, writeByte_of_lt (show i < buffer.length by omega), hcast, bind,
        Except.bind]

end Memory

section Host

/-- Labels as a host name may have them. -/
structure ValidLabel (label : Bytes) : Prop where
  pos : 1 ≤ label.length
  le : label.length ≤ 63
  no_dot : dot ∉ label
  no_nul : 0 ∉ label

/-- The labels of a name, each behind its length. -/
def wireLabels (labels : List Bytes) : Bytes :=
  labels.flatMap fun label => UInt8.ofNat label.length :: label

/-- The uncompressed encoding of a name. -/
def wireName (labels : List Bytes) : Bytes := wireLabels labels ++ [0]

theorem wireName_cons (label : Bytes) (labels : List Bytes) :
    wireName (label :: labels) = UInt8.ofNat label.length :: (label ++ wireName labels) := by
  simp [wireName, wireLabels]

theorem wireName_cons_length (label : Bytes) (labels : List Bytes) :
    (wireName (label :: labels)).length = 1 + label.length + (wireName labels).length := by
  simp only [wireName_cons, List.length_cons, List.length_append]
  omega

theorem dotted_cons_cons (label label' : Bytes) (labels : List Bytes) :
    dotted (label :: label' :: labels) = label ++ dot :: dotted (label' :: labels) := by
  simp [dotted, List.intercalate]

theorem wireName_length {labels : List Bytes} (h : labels ≠ []) :
    (wireName labels).length = (dotted labels).length + 2 := by
  induction labels with
  | nil => exact absurd rfl h
  | cons label labels ih =>
      cases labels with
      | nil => simp [wireName, wireLabels, dotted]
      | cons label' labels =>
          rw [wireName_cons, dotted_cons_cons]
          simp only [List.length_cons, List.length_append, ih (by simp)]
          omega

/-- The characters of one label are copied behind each other. -/
theorem strToLabelLoop_label {dest : ℤ} {maxlen lastPos cumulate j : ℕ} {label host : Bytes}
    (hdot : dot ∉ label) (hmax : j + label.length ≤ maxlen) :
    strToLabelLoop dest maxlen (label ++ host) lastPos cumulate j buffer =
      writeBytes buffer (dest + j) label >>= fun buffer =>
        strToLabelLoop dest maxlen host lastPos (cumulate + label.length) (j + label.length)
          buffer := by
  induction label generalizing cumulate j buffer with
  | nil => simp [writeBytes, bind, Except.bind]
  | cons ch label ih =>
      simp only [List.length_cons] at hmax
      have hch : ch ≠ dot := fun h => hdot (by simp [h])
      have hrest : dot ∉ label := fun h => hdot (List.mem_cons_of_mem _ h)
      rw [List.cons_append, strToLabelLoop, if_pos (by omega), if_neg hch, writeBytes]
      cases hw : writeByte buffer (dest + j) ch with
      | error e => rfl
      | ok buffer₁ =>
          have hcast : dest + (j : ℤ) + 1 = dest + ((j + 1 : ℕ) : ℤ) := by
            push_cast
            omega
          change strToLabelLoop dest maxlen (label ++ host) lastPos (cumulate + 1) (j + 1)
            buffer₁ = _
          rw [ih hrest (by omega)]
          simp only [bind, Except.bind, hcast, List.length_cons]
          congr 1
          funext buffer₂
          congr 1 <;> omega

/-- The characters of a label and then the length before them. -/
theorem writeLabel_ok {buffer₁ buffer₂ label : Bytes}
    (hlabel : writeBytes buffer ((i + 1 : ℕ) : ℤ) label = .ok buffer₁)
    (hlen : writeByte buffer₁ i b = .ok buffer₂) : Wrote buffer buffer₂ i (b :: label) := by
  obtain ⟨hc, hat⟩ := writeBytes_ok hlabel
  obtain ⟨hlt, rfl⟩ := writeByte_ok hlen
  constructor
  · rw [List.length_cons]
    refine ChangedIn.trans (hc.mono ?_ ?_) (changedIn_set ?_ ?_) <;> omega
  · rw [hasAt_cons]
    constructor
    · exact List.getElem?_set_self hlt
    · exact hat.changed (changedIn_set (le_refl i) (Nat.lt_succ_self i)) (by omega)

/-- A label and the rest of its name behind it. -/
theorem Wrote.name {buffer₁ label : Bytes} {labels : List Bytes}
    (h : Wrote buffer buffer₁ i (UInt8.ofNat label.length :: label))
    (h' : Wrote buffer₁ buffer' (i + 1 + label.length) (wireName labels)) :
    Wrote buffer buffer' i (wireName (label :: labels)) := by
  have hplace : i + 1 + label.length = i + (UInt8.ofNat label.length :: label).length := by
    rw [List.length_cons]
    omega
  rw [hplace] at h'
  rw [wireName_cons, ← List.cons_append]
  exact h.append h'

/-- From the byte reserved for the next length on, the name is written in wire format. -/
theorem strToLabelLoop_host {d maxlen : ℕ} {labels : List Bytes} {ret : ℤ}
    (hne : labels ≠ []) (hlabels : ∀ label ∈ labels, ValidLabel label)
    (hmax : p + 1 + (dotted labels).length ≤ maxlen)
    (h : strToLabelLoop d maxlen (dotted labels) p 0 (p + 1) buffer >>= strToLabelEnd d =
      .ok (buffer', ret)) :
    Wrote buffer buffer' (d + p) (wireName labels) ∧ ret = p + (wireName labels).length := by
  induction labels generalizing p buffer with
  | nil => exact absurd rfl hne
  | cons label labels ih =>
      have hv := hlabels label (by simp)
      have hstart : (d : ℤ) + ((p + 1 : ℕ) : ℤ) = ((d + p + 1 : ℕ) : ℤ) := by
        push_cast
        omega
      have hwl := wireName_cons_length label labels
      cases labels with
      | nil =>
          have hhost : dotted [label] = label ++ [] := by simp [dotted]
          have hmax' : p + 1 + label.length ≤ maxlen := by simpa [dotted] using hmax
          rw [hhost, strToLabelLoop_label hv.no_dot hmax', hstart] at h
          obtain ⟨⟨buffer₁, r⟩, h, hend⟩ := bind_eq_ok.mp h
          obtain ⟨_, hw, hr⟩ := bind_eq_ok.mp h
          cases hr
          obtain ⟨buffer₂, hlen, hend⟩ := bind_eq_ok.mp hend
          obtain ⟨buffer₃, hnul, hend⟩ := bind_eq_ok.mp hend
          cases hend
          have hlabel := writeLabel_ok (i := d + p) hw (by simpa using hlen)
          have hplace : (d : ℤ) + ((p + 1 + label.length : ℕ) : ℤ) =
              ((d + p + 1 + label.length : ℕ) : ℤ) := by
            push_cast
            omega
          rw [hplace] at hnul
          obtain ⟨hlt, rfl⟩ := writeByte_ok hnul
          refine ⟨hlabel.name (wrote_set hlt), ?_⟩
          rw [hwl, show (wireName []).length = 1 from rfl]
          push_cast
          omega
      | cons label' labels =>
          have hlong : (dotted (label :: label' :: labels)).length =
              label.length + 1 + (dotted (label' :: labels)).length := by
            rw [dotted_cons_cons]
            simp only [List.length_append, List.length_cons]
            omega
          have hmax' : p + 1 + label.length ≤ maxlen := by omega
          rw [dotted_cons_cons, strToLabelLoop_label hv.no_dot hmax', hstart] at h
          obtain ⟨r, h, hend⟩ := bind_eq_ok.mp h
          obtain ⟨buffer₁, hw, h⟩ := bind_eq_ok.mp h
          rw [strToLabelLoop, if_pos (by omega), if_pos rfl] at h
          obtain ⟨buffer₂, hlen, h⟩ := bind_eq_ok.mp h
          have hlabel := writeLabel_ok (i := d + p) hw (by simpa using hlen)
          have hrun : strToLabelLoop d maxlen (dotted (label' :: labels)) (p + 1 + label.length)
              0 (p + 1 + label.length + 1) buffer₂ >>= strToLabelEnd d = .ok (buffer', ret) :=
            bind_eq_ok.mpr ⟨r, h, hend⟩
          obtain ⟨hrest, hret⟩ := ih (by simp)
            (fun x hx => hlabels x (List.mem_cons_of_mem _ hx)) (by omega) hrun
          rw [← Nat.add_assoc, ← Nat.add_assoc] at hrest
          refine ⟨hlabel.name hrest, ?_⟩
          rw [hret, hwl]
          push_cast
          omega

/-- `str_to_label` of a host name leaves its wire format. -/
theorem strToLabel_host {d maxlen : ℕ} {labels : List Bytes} {ret : ℤ}
    (hne : labels ≠ []) (hlabels : ∀ label ∈ labels, ValidLabel label)
    (hmax : (dotted labels).length < maxlen)
    (h : strToLabel buffer d (dotted labels) maxlen = .ok (buffer', ret)) :
    Wrote buffer buffer' d (wireName labels) ∧ ret = (wireName labels).length := by
  have := strToLabelLoop_host (p := 0) hne hlabels (by omega) h
  simpa using this

/-- A name in wire format is a name without pointers. -/
theorem nameAt_wireName {labels : List Bytes} (hlabels : ∀ label ∈ labels, ValidLabel label)
    (h : HasAt buffer i (wireName labels)) :
    NameAt buffer i [labels] (i + (wireName labels).length) := by
  induction labels generalizing i with
  | nil =>
      have h0 : HasAt buffer i [0] := by simpa [wireName, wireLabels] using h
      simpa [wireName, wireLabels] using NameAt.zero h0
  | cons label labels ih =>
      have hv := hlabels label (by simp)
      rw [wireName_cons, ← List.cons_append, hasAt_append] at h
      have hrest := ih (fun x hx => hlabels x (List.mem_cons_of_mem _ hx)) h.2
      have hend : i + (wireName (label :: labels)).length =
          i + label.length + 1 + (wireName labels).length := by
        rw [wireName_cons_length]
        omega
      rw [hend]
      apply NameAt.label hv.pos hv.le h.1
      simpa [Nat.add_assoc] using hrest

/-- A name without pointers depends on its own bytes only. -/
theorem NameAt.congr {segs : List (List Bytes)} {e : ℕ} (h : NameAt buffer i segs e)
    (hone : segs.length = 1) (heq : ∀ k, i ≤ k → k < e → buffer'[k]? = buffer[k]?) :
    i < e ∧ NameAt buffer' i segs e := by
  induction h with
  | @zero i h0 =>
      refine ⟨by omega, .zero (h0.congr fun k h₁ h₂ => heq k h₁ ?_)⟩
      simpa using h₂
  | @label i e label seg segs h₁ h₂ hat hname ih =>
      obtain ⟨hlt, hrest⟩ := ih (by simpa using hone) fun k hk => heq k (by omega)
      refine ⟨by omega, .label h₁ h₂ (hat.congr fun k hk₁ hk₂ => heq k hk₁ ?_) hrest⟩
      simp only [List.length_cons] at hk₂
      omega
  | @pointer i t e segs ht hat hname ih =>
      have hpos := List.length_pos_iff.mpr hname.segs_ne_nil
      simp only [List.length_cons] at hone
      omega

end Host

section Records

/-- An answer record with an uncompressed owner name. -/
def answerBytes (labels : List Bytes) (type class_ ttl : ℕ) (rdata : Bytes) : Bytes :=
  wireName labels ++ u16Bytes type ++ u16Bytes class_ ++ u32Bytes ttl ++
    u16Bytes rdata.length ++ rdata

/-- The number of address bytes of a record type. -/
def addrSize (type : ℕ) : ℕ := if type = rrtypeA then 4 else 16

/-- `write_dns_answer` of an address record. -/
theorem writeDnsAnswer_ok {d type class_ ttl : ℕ} {labels : List Bytes} {rdata : Bytes}
    {ret : ℤ} (hne : labels ≠ []) (hlabels : ∀ label ∈ labels, ValidLabel label)
    (hlen : (dotted labels).length < maxDnsSize) (htype : type = rrtypeA ∨ type = rrtypeAAAA)
    (hrdata : 16 ≤ rdata.length)
    (h : writeDnsAnswer buffer d (dotted labels) type class_ ttl rdata = .ok (buffer', ret)) :
    Wrote buffer buffer' d
        (answerBytes labels type class_ (ttlField ttl) (rdata.take (addrSize type))) ∧
      ret = (answerBytes labels type class_ (ttlField ttl)
        (rdata.take (addrSize type))).length := by
  obtain ⟨⟨b₁, count⟩, hname, h⟩ := bind_eq_ok.mp h
  obtain ⟨hw₁, rfl⟩ := strToLabel_host hne hlabels hlen hname
  have hcount : ((wireName labels).length : ℤ) ≠ -1 := by omega
  simp only [hcount, if_false] at h
  obtain ⟨b₂, h₂, h⟩ := bind_eq_ok.mp h
  obtain ⟨b₃, h₃, h⟩ := bind_eq_ok.mp h
  obtain ⟨b₄, h₄, h⟩ := bind_eq_ok.mp h
  have hw₂ := hw₁.write (by push_cast; rfl) h₂
  have hw₃ := hw₂.write (by simp [u16Bytes]; omega) h₃
  have hw₄ := hw₃.write (by simp [u16Bytes]; omega) h₄
  -- the length field and the address, for the size that belongs to the type
  have hlast : ∀ k, addrSize type = k → ∀ b₅ b₆ : Bytes,
      writeBytes b₄ ((d : ℤ) + (wireName labels).length + 8) (u16Bytes k) = .ok b₅ →
      writeBytes b₅ ((d : ℤ) + (wireName labels).length + 10) (rdata.take k) = .ok b₆ →
      Wrote buffer b₆ d (answerBytes labels type class_ (ttlField ttl) (rdata.take k)) := by
    intro k hk b₅ b₆ h₅ h₆
    have hk16 : k ≤ 16 := by
      rw [← hk, addrSize]
      split <;> omega
    have htake : (rdata.take k).length = k := by
      rw [List.length_take]
      omega
    have hw₅ := hw₄.write (by simp [u16Bytes, u32Bytes]; omega) h₅
    have hw₆ := hw₅.write (by simp [u16Bytes, u32Bytes]; omega) h₆
    rwa [answerBytes, htake]
  rcases htype with rfl | rfl
  · rw [if_pos rfl] at h
    obtain ⟨b₅, h₅, h⟩ := bind_eq_ok.mp h
    obtain ⟨b₆, h₆, h⟩ := bind_eq_ok.mp h
    cases h
    refine ⟨hlast 4 rfl b₅ buffer' h₅ h₆, ?_⟩
    simp [answerBytes, addrSize, u16Bytes, u32Bytes]
    omega
  · rw [if_neg (by decide), if_pos rfl] at h
    obtain ⟨b₅, h₅, h⟩ := bind_eq_ok.mp h
    obtain ⟨b₆, h₆, h⟩ := bind_eq_ok.mp h
    cases h
    refine ⟨hlast 16 rfl b₅ buffer' h₅ h₆, ?_⟩
    simp [answerBytes, addrSize, rrtypeA, rrtypeAAAA, u16Bytes, u32Bytes]
    omega

end Records

end DnsRelay.Message
