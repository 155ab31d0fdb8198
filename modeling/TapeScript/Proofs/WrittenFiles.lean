import TapeScript.Proofs.Compilation
import TapeScript.Proofs.DefineLines
import TapeScript.Proofs.StmtParsing

set_option autoImplicit false

/-! # Files with a given script

Statements that can be written can be written to a file: the lexemes, with a blank between any two of
them, are one line, and a line of plain characters is read as it stands. So there is a file for every
script of plain lexemes, up to the places of its tokens (`Script.exists_read`).
-/

namespace TapeScript

/-- A printable character that is no blank and starts no directive. -/
def Text.isPlain (c : Char) : Bool := 0x20 < c.toNat && c.toNat < 0x7f && c != '#'

/-- A line of printable characters that holds no directive and does not end in a blank. -/
def Text.isPlainLine (cs : List Char) : Bool :=
  cs.all (fun c => c == ' ' || isPlain c) && cs.getLast?.any isPlain

/-- A lexeme that can stand in any file. -/
def Lexeme.Plain (x : Lexeme) : Prop := x.text ≠ "" ∧ ∀ c ∈ x.text.toList, Text.isPlain c = true

instance (x : Lexeme) : Decidable x.Plain :=
  decidable_of_iff ((!x.text.toList.isEmpty && x.text.toList.all Text.isPlain) = true)
    (by simp [Lexeme.Plain])

/-! ## Plain lines -/

namespace Text

variable {cs : List Char}

theorem decodeFrom_ascii (h : ∀ c ∈ cs, c.toNat < 0x80) (position : Nat) (done : List Char)
    (fuel : Nat) (hfuel : cs.length < fuel) :
    decodeFrom position done fuel (cs.map fun c => UInt8.ofNat c.toNat) = (cs.reverse ++ done, none) := by
  induction cs generalizing position done fuel with
  | nil =>
    obtain ⟨fuel, rfl⟩ : ∃ f, fuel = f + 1 := ⟨fuel - 1, by simp at hfuel; omega⟩
    rfl
  | cons c cs ih =>
    obtain ⟨hc, hcs⟩ := List.forall_mem_cons.mp h
    obtain ⟨fuel, rfl⟩ : ∃ f, fuel = f + 1 := ⟨fuel - 1, by simp at hfuel; omega⟩
    have hstep : decodeStep (UInt8.ofNat c.toNat :: cs.map fun c => UInt8.ofNat c.toNat) =
        .char c (cs.map fun c => UInt8.ofNat c.toNat) := by
      have hbyte : (UInt8.ofNat c.toNat).toNat = c.toNat := by
        rw [UInt8.toNat_ofNat']
        exact Nat.mod_eq_of_lt (by omega)
      have hlt : UInt8.ofNat c.toNat < 0x80 := by
        rw [UInt8.lt_iff_toNat_lt, hbyte]
        exact hc
      unfold decodeStep
      simp only [if_pos hlt, hbyte, Char.ofNat_toNat]
    simp only [List.map_cons, decodeFrom, hstep]
    rw [ih hcs _ _ _ (by simpa using hfuel)]
    simp

theorem decode_ascii (h : ∀ c ∈ cs, c.toNat < 0x80) :
    decode (cs.map fun c => UInt8.ofNat c.toNat) = (cs, none) := by
  unfold decode
  rw [decodeFrom_ascii h 0 [] _ (by simp)]
  simp

theorem universalNewlines_of_not_mem (h : '\r' ∉ cs) : universalNewlines cs = cs := by
  induction cs with
  | nil => rfl
  | cons c cs ih =>
    rw [List.mem_cons, not_or] at h
    obtain ⟨hc, hcs⟩ := h
    rw [universalNewlines, if_neg (Ne.symm hc), ih hcs]
    rintro _ rfl
    exact absurd rfl hc

theorem linesFrom_of_not_mem (h : '\n' ∉ cs) (current : List Char) :
    linesFrom current cs = if (current.reverse ++ cs).isEmpty then [] else [current.reverse ++ cs] := by
  induction cs generalizing current with
  | nil => simp [linesFrom]
  | cons c cs ih =>
    rw [List.mem_cons, not_or] at h
    obtain ⟨hc, hcs⟩ := h
    rw [linesFrom, if_neg (Ne.symm hc), ih hcs]
    simp

theorem isBlank_of_isPlain {c : Char} (h : isPlain c = true) : isBlank c = false := by
  simp only [isPlain, Bool.and_eq_true, decide_eq_true_eq] at h
  simp only [isBlank, Bool.or_eq_false_iff, Bool.and_eq_false_iff, decide_eq_false_iff_not,
    beq_eq_false_iff_ne]
  omega

theorem isPlainLine_iff : isPlainLine cs = true ↔
    (∀ c ∈ cs, c = ' ' ∨ isPlain c = true) ∧ ∃ begun c, cs = begun ++ [c] ∧ isPlain c = true := by
  simp only [isPlainLine, Bool.and_eq_true, List.all_eq_true, Bool.or_eq_true, beq_iff_eq,
    Option.any_eq_true, List.getLast?_eq_some_iff]
  grind

/-- The last character is no blank. -/
theorem trimRight_concat {c : Char} (hc : isBlank c = false) : trimRight (cs ++ [c]) = cs ++ [c] := by
  simp [trimRight, hc]

end Text

variable {line : String} {xs : List Lexeme}

/-- A line of printable characters is the one line of a file. -/
theorem Include.fileLines_line {cs : List Char} (hne : cs ≠ [])
    (h : ∀ c ∈ cs, c = ' ' ∨ Text.isPlain c = true) :
    fileLines (cs.map fun c => UInt8.ofNat c.toNat) = ([cs], none) := by
  have hascii : ∀ c ∈ cs, c.toNat < 0x80 := by
    intro c hc
    rcases h c hc with rfl | hplain
    · decide
    · simp only [Text.isPlain, Bool.and_eq_true, decide_eq_true_eq] at hplain
      omega
  have hnot : ∀ c, (c = ' ' ∨ Text.isPlain c = true) = False → c ∉ cs := by
    intro c hc hmem
    exact hc.mp (h c hmem)
  unfold fileLines
  rw [Text.decode_ascii hascii]
  simp only
  rw [Text.universalNewlines_of_not_mem (hnot '\r' (by decide)), Text.lines,
    Text.linesFrom_of_not_mem (hnot '\n' (by decide))]
  simp [hne]

/-- Nothing is defined in a line without a directive. -/
theorem DefineTable.ofText_line {cs : List Char} (h : ∀ c ∈ cs, c = ' ' ∨ Text.isPlain c = true) :
    ofText cs = [] := by
  have hends : ∀ c ∈ cs, Text.endsLine c = false := by
    intro c hc
    rcases h c hc with rfl | hplain
    · decide
    · simp only [Text.isPlain, Bool.and_eq_true, decide_eq_true_eq] at hplain
      simp only [Text.endsLine, Bool.or_eq_false_iff, Bool.and_eq_false_iff, decide_eq_false_iff_not,
        beq_eq_false_iff_ne]
      omega
  have hline : ofLine? cs = none := by
    cases hsome : ofLine? cs with
    | none => rfl
    | some e =>
      have hmem : '#' ∈ cs := (Directive.keyword_infix_of_ofLine? hsome).subset (by decide)
      rcases h _ hmem with hblank | hplain
      · cases hblank
      · exact absurd hplain (by decide)
  unfold ofText Text.splitLines
  rw [Directive.splitLinesFrom_last hends]
  split
  · rfl
  · simp [hline]

/-- A file with a plain line includes nothing. -/
theorem Include.expand_plainLine {fs : FileSystem} {path : String} {segs : List String}
    (hsegs : Path.normalSegments fs.cwd path = segs)
    (hfind : fs.find segs = .file (line.toList.map fun c => UInt8.ofNat c.toNat))
    (h : Text.isPlainLine line.toList = true) : expand fs path = .ok line := by
  obtain ⟨hchars, begun, c, hlast, hc⟩ := Text.isPlainLine_iff.mp h
  have hdirective : startsWith (Text.trim line.toList) "#include".toList = false := by
    rw [← Bool.not_eq_true]
    intro hstart
    have hmem : '#' ∈ Text.trim line.toList :=
      (List.isPrefixOf_iff_prefix.mp hstart).subset (by decide)
    have hmem : '#' ∈ line.toList :=
      (List.dropWhile_suffix _).subset ((Directive.trimRight_prefix _).subset hmem)
    rcases hchars _ hmem with hblank | hsharp
    · cases hblank
    · exact absurd hsharp (by decide)
  have hkept : Text.trimRight line.toList = line.toList := by
    rw [hlast]
    exact Text.trimRight_concat (Text.isBlank_of_isPlain hc)
  rw [expand_of_find hsegs hfind (fileLines_line (by simp [hlast]) hchars) hdirective hkept,
    String.ofList_toList]

theorem Path.normalSegments_root : normalSegments "/" "m" = ["m"] := by decide +kernel

/-- In a file with a plain line all is read as it stands. -/
theorem Script.read_plainLine (h : Text.isPlainLine line.toList = true) :
    read (.ofLine line) "m" =
      (Source.parse line.toList).toOption.map fun source => ⟨source, []⟩ := by
  have hexpand : Include.expand (.ofLine line) "m" = .ok line :=
    Include.expand_plainLine Path.normalSegments_root rfl h
  rw [read_of_expand hexpand, DefineTable.ofText_line (Text.isPlainLine_iff.mp h).1]

theorem Script.read_of_plainLine {source : Source}
    (h : Text.isPlainLine line.toList = true ∧ Source.parse line.toList = .ok source) :
    read (.ofLine line) "m" = some ⟨source, []⟩ := by
  rw [read_plainLine h.1, h.2]
  rfl

/-! ## Written scripts -/

theorem plain_of_mem_spaced (h : ∀ x ∈ xs, x.Plain) :
    ∀ c ∈ spaced xs, c = ' ' ∨ Text.isPlain c = true := by
  intro c hc
  obtain ⟨x, hx, hc⟩ := List.mem_flatMap.mp hc
  rcases List.mem_cons.mp hc with rfl | hc
  · exact .inl rfl
  · exact .inr ((h x hx).2 c hc)

theorem laidOut_spaced (hne : xs ≠ []) : LaidOut xs (spaced xs) := by
  cases xs with
  | nil => exact absurd rfl hne
  | cons x xs => exact ⟨[' '], spaced xs, .blank (.inl rfl) .nil, laid_spaced xs, rfl⟩

/-- A text ends in the last character of its last lexeme. -/
theorem exists_spaced_concat (hne : xs ≠ []) (h : ∀ x ∈ xs, x.Plain) :
    ∃ cs c, spaced xs = cs ++ [c] ∧ Text.isPlain c = true := by
  obtain ⟨ys, x, rfl⟩ := (List.eq_nil_or_concat xs).resolve_left hne
  obtain ⟨htext, hplain⟩ := h x (by simp)
  obtain ⟨zs, c, hzs⟩ := (List.eq_nil_or_concat x.text.toList).resolve_left (by simpa using htext)
  refine ⟨spaced ys ++ ' ' :: zs, c, ?_, hplain c (by simp [hzs])⟩
  simp [spaced, hzs]

/-- **There is a file for every script of plain lexemes.** -/
theorem Script.exists_read {ss : List Stmt} (hss : ProperStmts ss)
    (hxs : Clause.Written (.stmts ss) xs) (hne : xs ≠ []) (hplain : ∀ x ∈ xs, x.Plain) :
    ∃ fs path ss', read fs path = some ⟨⟨ss'.map .stmt⟩, []⟩ ∧ bareStmts ss' = bareStmts ss := by
  obtain ⟨ss', hparse, hbare⟩ := Source.exists_parse hss hxs (laidOut_spaced hne)
  refine ⟨.ofLine (String.ofList (spaced xs)), "m", ss', ?_, hbare⟩
  have hline : Text.isPlainLine (spaced xs) = true :=
    Text.isPlainLine_iff.mpr ⟨plain_of_mem_spaced hplain, exists_spaced_concat hne hplain⟩
  rw [← String.toList_ofList (l := spaced xs)] at hline hparse
  exact read_of_plainLine ⟨hline, hparse⟩

end TapeScript
