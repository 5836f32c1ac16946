import DnsRelay.LocalRecord.Model
import DnsRelay.Lib.Machine
import Mathlib.Data.List.Basic
import Mathlib.Data.List.TakeWhile

/-!
# Reading the file of local records

The purpose of the two loops is stated over lines and tokens: a file whose lines are blank
or consist of two tokens stands for the list of its records. The passes see exactly these
records, in the order of the file, because the line counter is at least their number.
-/

namespace DnsRelay.LocalRecord

open DnsRelay.Message DnsRelay.Lib.Machine

variable {stream token rest s t file : Bytes} {b : UInt8}

/-- The words of a text between white space. -/
def tokens (text : Bytes) : List Bytes := (text.splitOnP isSpace).filter (· ≠ [])

def fileLines (file : Bytes) : List Bytes := file.splitOn newline

/-- A line is blank, or its two tokens fit into `ip` and `name`. -/
def fits : List Bytes → Bool
  | [] => true
  | [ip, name] => decide (ip.length < 32) && decide (name.length < 513)
  | _ => false

/-- Every line of the file that is not blank has two tokens, and they fit. -/
def TwoTokens (file : Bytes) : Prop := ∀ line ∈ fileLines file, fits (tokens line) = true

instance (file : Bytes) : Decidable (TwoTokens file) :=
  inferInstanceAs (Decidable (∀ line ∈ fileLines file, fits (tokens line) = true))

/-- The record on a line. -/
def lineRecord (line : Bytes) : Option (Bytes × Bytes) :=
  match tokens line with
  | [ip, name] => some (cText ip, cText name)
  | _ => none

/-- The records of the file in the order of its lines. -/
def records (file : Bytes) : List (Bytes × Bytes) := (fileLines file).filterMap lineRecord

section Tokens

@[simp] theorem tokens_nil : tokens [] = [] := rfl

theorem tokens_append_cons (s t : Bytes) (hb : isSpace b = true) :
    tokens (s ++ b :: t) = tokens s ++ tokens t := by
  rw [tokens, List.splitOnP_append_cons s t hb, List.filter_append]
  rfl

theorem tokens_cons (hb : isSpace b = true) : tokens (b :: t) = tokens t :=
  tokens_append_cons [] t hb

theorem tokens_word (hs : ∀ x ∈ s, isSpace x = false) (hne : s ≠ []) : tokens s = [s] := by
  rw [tokens, List.splitOnP_eq_singleton hs]
  simp [hne]

theorem tokens_dropWhile (s : Bytes) : tokens (s.dropWhile isSpace) = tokens s := by
  induction s with
  | nil => rfl
  | cons b s ih =>
      cases hb : isSpace b with
      | true => rw [List.dropWhile_cons_of_pos hb, ih, tokens_cons hb]
      | false => rw [List.dropWhile_cons_of_neg (by simp [hb])]

/-- The first word of a text that does not start with white space. -/
theorem tokens_takeWhile (h : s.takeWhile (! isSpace ·) ≠ []) :
    tokens s = s.takeWhile (! isSpace ·) :: tokens (s.dropWhile (! isSpace ·)) := by
  have hword : ∀ x ∈ s.takeWhile (! isSpace ·), isSpace x = false := by
    intro x hx
    simpa using List.mem_takeWhile_imp hx
  cases hrest : s.dropWhile (! isSpace ·) with
  | nil =>
      have hs : s.takeWhile (! isSpace ·) = s := by
        have happend := List.takeWhile_append_dropWhile (p := (! isSpace ·)) (l := s)
        rwa [hrest, List.append_nil] at happend
      rw [tokens_nil, ← tokens_word hword h, hs]
  | cons b rest =>
      have hb : isSpace b = true := by
        have := List.head_dropWhile_not (! isSpace ·) (l := s) (by simp [hrest])
        simpa [hrest] using this
      calc tokens s
          = tokens (s.takeWhile (! isSpace ·) ++ b :: rest) := by
            rw [← hrest, List.takeWhile_append_dropWhile]
        _ = [s.takeWhile (! isSpace ·)] ++ tokens rest := by
            rw [tokens_append_cons _ _ hb, tokens_word hword h]
        _ = s.takeWhile (! isSpace ·) :: tokens (b :: rest) := by
            rw [tokens_cons hb]
            rfl

/-- The conversion `%s` takes the first token. -/
theorem scanString_cons {size : ℕ} {ts : List Bytes} (h : tokens stream = token :: ts)
    (hsize : token.length < size) :
    ∃ rest, scanString size stream = .ok (some (cText token), rest) ∧ tokens rest = ts := by
  rw [← tokens_dropWhile] at h
  have hne : (stream.dropWhile isSpace).takeWhile (! isSpace ·) ≠ [] := by
    intro hnil
    cases hd : stream.dropWhile isSpace with
    | nil => simp [hd] at h
    | cons b rest =>
        have hb := List.head_dropWhile_not isSpace (l := stream) (by simp [hd])
        rw [hd] at hnil
        simp [hd] at hb
        simp [hb] at hnil
  rw [tokens_takeWhile hne] at h
  obtain ⟨htoken, hrest⟩ := List.cons.inj h
  rw [htoken] at hne
  refine ⟨_, ?_, hrest⟩
  simp only [scanString, htoken, hne, if_false, Nat.not_le.mpr hsize]

/-- At the end of the tokens it takes nothing. -/
theorem scanString_nil (size : ℕ) (h : tokens stream = []) :
    ∃ rest, scanString size stream = .ok (none, rest) ∧ tokens rest = [] := by
  rw [← tokens_dropWhile] at h
  have hnil : (stream.dropWhile isSpace).takeWhile (! isSpace ·) = [] := by
    by_contra hne
    rw [tokens_takeWhile hne] at h
    cases h
  refine ⟨_, ?_, h⟩
  simp only [scanString, hnil, if_true]

theorem scanRecord_cons {ip name : Bytes} {ts : List Bytes}
    (h : tokens stream = ip :: name :: ts) (hip : ip.length < 32) (hname : name.length < 513) :
    ∃ rest, scanRecord stream = .ok (some (cText ip, cText name), rest) ∧ tokens rest = ts := by
  obtain ⟨rest₁, h₁, ht₁⟩ := scanString_cons h hip
  obtain ⟨rest₂, h₂, ht₂⟩ := scanString_cons ht₁ hname
  refine ⟨rest₂, ?_, ht₂⟩
  simp [scanRecord, h₁, h₂, bind, Except.bind, pure, Except.pure]

theorem scanRecord_nil (h : tokens stream = []) :
    ∃ rest, scanRecord stream = .ok (none, rest) ∧ tokens rest = [] := by
  obtain ⟨rest, hscan, ht⟩ := scanString_nil 32 h
  exact ⟨rest, by simp [scanRecord, hscan, bind, Except.bind, pure, Except.pure], ht⟩

end Tokens

section Lines

variable {l rest : Bytes}

theorem isSpace_newline : isSpace newline = true := rfl

theorem fileLines_of_notMem (h : newline ∉ l) : fileLines l = [l] := by
  apply List.splitOnP_eq_singleton
  intro x hx
  simpa using ne_of_mem_of_not_mem hx h

theorem fileLines_append_cons (h : newline ∉ l) :
    fileLines (l ++ newline :: rest) = l :: fileLines rest := by
  apply List.splitOnP_append_cons_of_forall_mem
  · intro x hx
    simpa using ne_of_mem_of_not_mem hx h
  · rfl

/-- Induction over the lines of a file. -/
theorem lines_induction {P : Bytes → Prop} (last : ∀ l, newline ∉ l → P l)
    (line : ∀ l rest, newline ∉ l → P rest → P (l ++ newline :: rest)) (file : Bytes) : P file := by
  induction hn : file.length using Nat.strongRecOn generalizing file with
  | ind n ih =>
      by_cases h : newline ∈ file
      · obtain ⟨l, rest, rfl, hl⟩ := List.eq_append_cons_of_mem h
        refine line l rest hl (ih rest.length ?_ rest rfl)
        rw [← hn, List.length_append, List.length_cons]
        omega
      · exact last file h

theorem tokens_eq_flatMap (file : Bytes) : tokens file = (fileLines file).flatMap tokens := by
  induction file using lines_induction with
  | last l hl => simp [fileLines_of_notMem hl]
  | line l rest hl ih =>
      rw [tokens_append_cons _ _ isSpace_newline, fileLines_append_cons hl, List.flatMap_cons, ih]

/-- The number of lines that are not blank. -/
def nonblank (file : Bytes) : ℕ := (fileLines file).countP (tokens · ≠ [])

theorem nonblank_of_notMem (h : newline ∉ l) : nonblank l = if tokens l = [] then 0 else 1 := by
  rw [nonblank, fileLines_of_notMem h]
  by_cases ht : tokens l = [] <;> simp [ht]

theorem nonblank_append_cons (h : newline ∉ l) :
    nonblank (l ++ newline :: rest) = nonblank rest + if tokens l = [] then 0 else 1 := by
  rw [nonblank, fileLines_append_cons h, List.countP_cons]
  by_cases ht : tokens l = [] <;> simp [ht, nonblank]

/-- What stands before a line adds at most one. -/
theorem nonblank_append_le (h : newline ∉ l) (rest : Bytes) :
    nonblank (l ++ rest) ≤ nonblank rest + 1 := by
  induction rest using lines_induction with
  | last rest hrest =>
      have hmem : newline ∉ l ++ rest := by simp [h, hrest]
      rw [nonblank_of_notMem hmem]
      split <;> omega
  | line l' rest hl' ih =>
      have hmem : newline ∉ l ++ l' := by simp [h, hl']
      rw [← List.append_assoc, nonblank_append_cons hmem, nonblank_append_cons hl']
      split <;> omega

theorem length_records_le (file : Bytes) : (records file).length ≤ nonblank file := by
  rw [records, List.length_filterMap_eq_countP, nonblank]
  apply List.countP_mono_left
  intro line _ h
  cases ht : tokens line with
  | nil => simp [lineRecord, ht] at h
  | cons token ts => simp

end Lines

section Counting

/-- A call of `fgets` takes the rest of a line with its end, or a part without a newline. -/
theorem fgets_cases (n : ℕ) (stream : Bytes) :
    (∃ l, newline ∉ l ∧ (fgets n stream).1 = l ++ [newline] ∧
      stream = l ++ newline :: (fgets n stream).2) ∨
    (newline ∉ (fgets n stream).1 ∧ stream = (fgets n stream).1 ++ (fgets n stream).2) := by
  induction stream generalizing n with
  | nil => cases n <;> exact .inr ⟨by simp [fgets], by simp [fgets]⟩
  | cons b stream ih =>
      cases n with
      | zero => exact .inr ⟨by simp [fgets], by simp [fgets]⟩
      | succ n =>
          by_cases hb : b = newline
          · subst hb
            exact .inl ⟨[], by simp, by simp [fgets], by simp [fgets]⟩
          · simp only [fgets, hb, if_false]
            rcases ih n with ⟨l, hl, h₁, h₂⟩ | ⟨hl, h⟩
            · refine .inl ⟨b :: l, by simp [hl, Ne.symm hb], by simp [h₁], ?_⟩
              rw [List.cons_append, ← h₂]
            · refine .inr ⟨by simp [hl, Ne.symm hb], ?_⟩
              rw [List.cons_append, ← h]

theorem length_fgets_le (n : ℕ) (b : UInt8) (stream : Bytes) :
    (fgets (n + 1) (b :: stream)).2.length ≤ stream.length := by
  induction stream generalizing n b with
  | nil => cases n <;> simp [fgets]
  | cons b' stream ih =>
      simp only [fgets]
      split
      · exact le_rfl
      · cases n with
        | zero => exact le_rfl
        | succ n => exact (ih n b').trans (by simp)

/-- What a call of `fgets` takes is counted if it is more than a blank line. -/
theorem nonblank_le_fgets (n : ℕ) (stream : Bytes) :
    nonblank stream ≤
      (if (fgets n stream).1 = [newline] then 0 else 1) + nonblank (fgets n stream).2 := by
  rcases fgets_cases n stream with ⟨l, hl, h₁, h₂⟩ | ⟨hl, h₂⟩
  · rw [h₁]
    generalize (fgets n stream).2 = rest at h₂ ⊢
    rw [h₂, nonblank_append_cons hl]
    by_cases hnil : l = []
    · simp [hnil]
    · have hcount : l ++ [newline] ≠ [newline] := by simpa using hnil
      rw [if_neg hcount]
      split <;> omega
  · have hcount : (fgets n stream).1 ≠ [newline] := by
      intro hone
      simp [hone] at hl
    have hle := nonblank_append_le hl (fgets n stream).2
    rw [← h₂] at hle
    rw [if_neg hcount]
    omega

/-- Every line that is not blank is counted. -/
theorem nonblank_le_countLoop {fuel : ℕ} (h : stream.length ≤ fuel) :
    nonblank stream ≤ countLoop fuel stream := by
  induction fuel generalizing stream with
  | zero =>
      rw [List.length_eq_zero_iff.mp (Nat.le_zero.mp h)]
      decide
  | succ fuel ih =>
      cases stream with
      | nil =>
          have hblank : nonblank [] = 0 := by decide
          rw [hblank]
          exact Nat.zero_le _
      | cons b stream =>
          have hrest := ih ((length_fgets_le 628 b stream).trans (Nat.le_of_succ_le_succ h))
          simp only [countLoop]
          exact (nonblank_le_fgets 629 _).trans (Nat.add_le_add_left hrest _)

theorem length_records_le_countLines (file : Bytes) :
    (records file).length ≤ countLines file :=
  (length_records_le file).trans (nonblank_le_countLoop le_rfl)

end Counting

section Loop

variable {σ : Type} {body : σ → Bytes → Bytes → Exec σ}

/-- What the body keeps, a loop that returns has kept. -/
theorem scanLoop_keeps {P : σ → Prop}
    (hbody : ∀ s ip name s', P s → body s ip name = .ok s' → P s') {n line : ℕ} {s s' : σ}
    (hs : P s) (h : scanLoop body n line stream s = .ok s') : P s' := by
  induction n generalizing line stream s with
  | zero =>
      cases h
      exact hs
  | succ n ih =>
      obtain ⟨⟨record, rest⟩, -, h⟩ := bind_eq_ok.mp h
      cases record with
      | none => exact ih hs h
      | some p =>
          obtain ⟨s₁, hstep, h⟩ := bind_eq_ok.mp h
          have hs₁ := hbody s p.1 p.2 s₁ hs hstep
          split at h
          · cases h
            exact hs₁
          · exact ih hs₁ h

/-- The loop passes over the pairs of tokens that are left, if it may take that many. -/
theorem scanLoop_pairs {ps : List (Bytes × Bytes)} {n line : ℕ}
    (hfit : ∀ p ∈ ps, p.1.length < 32 ∧ p.2.length < 513) (hn : ps.length ≤ n)
    (hline : ps.length ≤ line) (h : tokens stream = ps.flatMap fun p => [p.1, p.2]) (s : σ) :
    scanLoop body n line stream s =
      (ps.map fun p => (cText p.1, cText p.2)).foldlM (fun s r => body s r.1 r.2) s := by
  induction n generalizing ps line stream s with
  | zero =>
      rw [List.length_eq_zero_iff.mp (Nat.le_zero.mp hn)]
      rfl
  | succ n ih =>
      cases ps with
      | nil =>
          obtain ⟨rest, hscan, ht⟩ := scanRecord_nil h
          have hrest : scanLoop body n line rest s = pure s :=
            ih hfit (Nat.zero_le n) hline ht s
          simpa [scanLoop, hscan, bind, Except.bind] using hrest
      | cons p ps =>
          obtain ⟨ip, name⟩ := p
          obtain ⟨hip, hname⟩ := hfit (ip, name) (by simp)
          obtain ⟨rest, hscan, ht⟩ := scanRecord_cons h hip hname
          rw [List.length_cons] at hn hline
          have hrest : ∀ s, scanLoop body n (line - 1) rest s = _ :=
            ih (fun q hq => hfit q (List.mem_cons_of_mem _ hq)) (by omega) (by omega) ht
          rw [List.map_cons, List.foldlM_cons, scanLoop, hscan]
          simp only [bind, Except.bind]
          cases hbody : body s (cText ip) (cText name) with
          | error e => rfl
          | ok s' =>
              by_cases hlast : line - 1 = 0
              · -- the counter has come to its end, and so have the pairs
                have hnil : ps = [] := List.length_eq_zero_iff.mp (by omega)
                simp [hlast, hnil]
              · simp only [hlast, if_false, hrest s']

theorem fits_cases {ts : List Bytes} (h : fits ts = true) :
    ts = [] ∨ ∃ ip name, ts = [ip, name] ∧ ip.length < 32 ∧ name.length < 513 := by
  match ts, h with
  | [], _ => exact .inl rfl
  | [ip, name], h => exact .inr ⟨ip, name, rfl, by simpa [fits] using h⟩

/-- The tokens of the file in pairs. -/
theorem TwoTokens.pairs (h : TwoTokens file) :
    ∃ ps : List (Bytes × Bytes), (∀ p ∈ ps, p.1.length < 32 ∧ p.2.length < 513) ∧
      (tokens file = ps.flatMap fun p => [p.1, p.2]) ∧
      records file = ps.map fun p => (cText p.1, cText p.2) := by
  rw [tokens_eq_flatMap, records]
  have hlines : ∀ line ∈ fileLines file, fits (tokens line) = true := h
  generalize fileLines file = lines at hlines
  induction lines with
  | nil => exact ⟨[], by simp, rfl, rfl⟩
  | cons line lines ih =>
      obtain ⟨ps, hfit, htokens, hrecords⟩ := ih fun l hl => hlines l (List.mem_cons_of_mem _ hl)
      rcases fits_cases (hlines line (by simp)) with hblank | ⟨ip, name, htwo, hip, hname⟩
      · refine ⟨ps, hfit, by rw [List.flatMap_cons, hblank, htokens]; rfl, ?_⟩
        rw [List.filterMap_cons_none (by simp [lineRecord, hblank]), hrecords]
      · refine ⟨(ip, name) :: ps, ?_, by rw [List.flatMap_cons, htwo, htokens]; rfl, ?_⟩
        · intro p hp
          rcases List.mem_cons.mp hp with rfl | hp
          · exact ⟨hip, hname⟩
          · exact hfit p hp
        · rw [List.filterMap_cons_some (by simp [lineRecord, htwo]; rfl), hrecords]
          rfl

/-- The pairs of words that both loops read from the file, whatever its lines are. -/
def scanned (file : Bytes) : Exec (List (Bytes × Bytes)) :=
  scanLoop (fun rs ip name => .ok (rs ++ [(ip, name)])) (countLines file * 2) (countLines file)
    file []

/-- What a loop collects, any loop goes over. -/
theorem scanLoop_of_collected {n line : ℕ} {rs rs' : List (Bytes × Bytes)}
    (h : scanLoop (fun rs ip name => .ok (rs ++ [(ip, name)])) n line stream rs = .ok rs') :
    ∃ ps, rs' = rs ++ ps ∧ ∀ s : σ, scanLoop body n line stream s =
      ps.foldlM (fun s r => body s r.1 r.2) s := by
  induction n generalizing line stream rs with
  | zero =>
      cases h
      exact ⟨[], by simp, fun s => rfl⟩
  | succ n ih =>
      obtain ⟨⟨record, rest⟩, hscan, h⟩ := bind_eq_ok.mp h
      cases record with
      | none =>
          obtain ⟨ps, hps, hloop⟩ := ih h
          refine ⟨ps, hps, fun s => ?_⟩
          simp only [scanLoop, hscan, bind, Except.bind]
          exact hloop s
      | some p =>
          have hstep : ∀ s : σ, scanLoop body (n + 1) line stream s = (body s p.1 p.2 >>= fun s =>
              if line - 1 = 0 then .ok s else scanLoop body n (line - 1) rest s) := by
            intro s
            simp only [scanLoop, hscan, bind, Except.bind]
            rfl
          dsimp only [bind, Except.bind] at h
          split at h
          next hlast =>
            cases h
            refine ⟨[p], rfl, fun s => ?_⟩
            rw [hstep, List.foldlM_cons]
            simp only [hlast, if_true]
            rfl
          next hlast =>
            obtain ⟨ps, hps, hloop⟩ := ih h
            refine ⟨p :: ps, by rw [hps, List.append_assoc]; rfl, fun s => ?_⟩
            rw [hstep, List.foldlM_cons]
            simp only [hlast, if_false, hloop]

/-- Both loops do their body once for each pair, in order. -/
theorem scanLoop_scanned {rs : List (Bytes × Bytes)} (h : scanned file = .ok rs) (s : σ) :
    scanLoop body (countLines file * 2) (countLines file) file s =
      rs.foldlM (fun s r => body s r.1 r.2) s := by
  obtain ⟨ps, hps, hloop⟩ := scanLoop_of_collected h
  rw [hps, List.nil_append]
  exact hloop s

/-- A loop that returns has read pairs only. -/
theorem scanLoop_collects {n line : ℕ} {s s' : σ} (h : scanLoop body n line stream s = .ok s')
    (rs : List (Bytes × Bytes)) :
    ∃ rs', scanLoop (fun rs ip name => .ok (rs ++ [(ip, name)])) n line stream rs = .ok rs' := by
  induction n generalizing line stream s rs with
  | zero => exact ⟨rs, rfl⟩
  | succ n ih =>
      obtain ⟨⟨record, rest⟩, hscan, h⟩ := bind_eq_ok.mp h
      simp only [scanLoop, hscan, bind, Except.bind]
      cases record with
      | none => exact ih h rs
      | some p =>
          obtain ⟨s₁, -, h⟩ := bind_eq_ok.mp h
          split at h
          next hlast => exact ⟨rs ++ [p], by simp only [hlast, if_true]; rfl⟩
          next hlast =>
            simp only [hlast, if_false]
            exact ih h (rs ++ [p])

theorem foldlM_collect (rs ps : List (Bytes × Bytes)) :
    ps.foldlM (fun rs p => (.ok (rs ++ [(p.1, p.2)]) : Exec (List (Bytes × Bytes)))) rs =
      .ok (rs ++ ps) := by
  induction ps generalizing rs with
  | nil => simp [pure, Except.pure]
  | cons p ps ih =>
      rw [List.foldlM_cons]
      exact (ih _).trans (by simp)

/-- From a file with two words on each line they are its records. -/
theorem scanned_records (h : TwoTokens file) : scanned file = .ok (records file) := by
  obtain ⟨ps, hfit, htokens, hrecords⟩ := h.pairs
  have hcount := length_records_le_countLines file
  rw [hrecords, List.length_map] at hcount
  rw [scanned, hrecords, scanLoop_pairs hfit (by omega) hcount htokens, foldlM_collect]
  rfl

end Loop

end DnsRelay.LocalRecord
