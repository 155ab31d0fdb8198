import Mathlib.Data.List.DropRight
import TapeScript.Proofs.Compilation
import TapeScript.Proofs.DirectiveParsing

set_option autoImplicit false

/-! # Defines and directives

A name in the table of constants is replaced by what its line shows: digits, or the character behind a
quote. The directive of the same line in the syntax tree has an expression as its value. Both start
with the same literal (`Directive.Reads.spelled_eq`), so they agree where that literal is all there is
and is not an escape (`Session.defines_against_directives`); elsewhere they can differ, and a line in a
comment gives a constant without a directive (`Session.defines_differ_from_directives`).
-/

namespace TapeScript

/-! ## The value of a line -/

namespace Text

theorem digitsFrom_eq_some {s : List Char} {value n : Nat} {afterDigit : Bool}
    (h : digitsFrom value afterDigit s = some n) : ∀ c ∈ s, c = '_' ∨ isDecimal c = true := by
  induction s generalizing value afterDigit with
  | nil => simp
  | cons c s ih =>
    rw [digitsFrom] at h
    rw [List.forall_mem_cons]
    split_ifs at h with hunderscore hafter
    · exact ⟨.inl hunderscore, ih h⟩
    · split at h
      · next d hd => exact ⟨.inr (by rw [isDecimal, hd]; rfl), ih h⟩
      · cases h

/-- Digits that can be read as a number are decimal digits. -/
theorem isDecimal_of_integer? {s : List Char} {v : Int} (hdigits : allDigits s = true)
    (htrim : trim s = s) (h : integer? s = some v) : ∀ c ∈ s, isDecimal c = true := by
  simp only [allDigits, Bool.and_eq_true, List.all_eq_true] at hdigits
  have hsign : ∀ rest, s ≠ '-' :: rest ∧ s ≠ '+' :: rest := by
    intro rest
    constructor
    · rintro rfl
      exact absurd (hdigits.2 '-' (by simp)) (by decide)
    · rintro rfl
      exact absurd (hdigits.2 '+' (by simp)) (by decide)
  cases hread : digitsFrom 0 false s with
  | none =>
    exfalso
    unfold integer? at h
    simp only [htrim] at h
    split at h
    · next rest => exact (hsign rest).1 rfl
    · next rest => exact (hsign rest).2 rfl
    · simp [hread] at h
  | some n =>
    intro c hc
    rcases digitsFrom_eq_some hread c hc with rfl | hdecimal
    · exact absurd (hdigits.2 '_' hc) (by decide)
    · exact hdecimal

theorem isDecimal_of_isBlank {c : Char} (h : isBlank c = true) : isDecimal c = false := by
  by_contra hdecimal
  rw [Bool.not_eq_false] at hdecimal
  obtain ⟨value, hvalue⟩ := Option.isSome_iff_exists.mp hdecimal
  obtain ⟨start, hfind, -⟩ := Option.map_eq_some_iff.mp hvalue
  have hrange := List.find?_some hfind
  -- between the ranges of digits, where the blanks are
  have hapart : ∀ start ∈ decimalZeros, (start = 0x30 ∨ 0xa0 < start) ∧
      (start + 10 ≤ 0x1680 ∨ 0x1680 < start) ∧ (start + 10 ≤ 0x2000 ∨ 0x3000 < start) := by decide
  have hstart := hapart start (List.mem_of_find?_eq_some hfind)
  simp only [Bool.and_eq_true, decide_eq_true_eq] at hrange
  have hblank : c.toNat ≤ 0x20 ∨ c.toNat = 0x85 ∨ c.toNat = 0xa0 ∨ c.toNat = 0x1680 ∨
      (0x2000 ≤ c.toNat ∧ c.toNat ≤ 0x3000) := by
    simp only [isBlank, Bool.or_eq_true, Bool.and_eq_true, decide_eq_true_eq, beq_iff_eq] at h
    omega
  omega

theorem trimRight_trimRight (s : List Char) : trimRight (trimRight s) = trimRight s := by
  unfold trimRight
  rw [List.reverse_reverse, List.dropWhile_idempotent]

end Text

namespace Directive

variable {tail : List Char}

/-- The value of a directive in its line, and the blank that follows it. -/
theorem Shaped.exists_value (h : Shaped tail) : ∃ c s rest, valueIn tail = c :: s ++ rest ∧
    (entry tail).2 = String.ofList (c :: s) ∧ Text.trim (c :: s) = c :: s ∧
    ∀ d ∈ rest.head?, Text.isBlank d = true := by
  obtain ⟨b1, b2, c, value, -, hvalue, -, -, -, -, hc⟩ := h.exists_parts
  obtain ⟨line, more, rfl, hline, hmore⟩ := exists_line value
  have hfirst : '\n' ∉ c :: line := by
    rw [List.mem_cons, not_or]
    refine ⟨?_, hline⟩
    rintro rfl
    exact absurd hc (by decide)
  obtain ⟨s, hs⟩ := exists_trimRight_cons hc line
  obtain ⟨b, hb, hblank⟩ := Text.exists_trimRight_append (c :: line)
  rw [hs] at hb
  refine ⟨c, s, b ++ more, ?_, ?_, ?_, ?_⟩
  · rw [hvalue, ← List.cons_append, hb, List.append_assoc]
  · rw [entry, hvalue, ← List.cons_append, takeWhile_line hfirst hmore, hs]
  · have hleft : Text.trimLeft (c :: s) = c :: s :=
      trimLeft_append (b := []) (by simp) (by rintro d ⟨⟩; exact hc)
    rw [Text.trim, hleft, ← hs, Text.trimRight_trimRight]
  · intro d hd
    rcases b with _ | ⟨d', b⟩
    · rcases hmore with rfl | ⟨rest, rfl⟩
      · cases hd
      · cases hd
        decide
    · cases hd
      exact hblank d (by simp)

end Directive

/-- The value that a literal shows if a backslash is a character like others. -/
def Expr.spelled : Expr → Option Int
  | .number t => (Literal.number t.text).toOption
  | .character t => t.text.toList[1]?.map fun c => (c.toNat : Int)
  | _ => none

namespace Directive

variable {tail : List Char}

/-- **The line and the expression show the same literal.** -/
theorem Reads.spelled_eq {d : Token × Expr} (h : Reads tail d) (hshaped : Shaped tail) {v : Int}
    (hv : Literal.defineValue (entry tail).2 = .ok v) :
    d.2.head.spelled = some v ∧ ∀ t, d.2.head = .character t → t.IsCharacter := by
  obtain ⟨c, s, rest, hvalue, hentry, htrim, hrest⟩ := hshaped.exists_value
  rw [hentry] at hv
  unfold Literal.defineValue at hv
  simp only [String.toList_ofList] at hv
  split_ifs at hv with hdigits hquotes
  · have hinteger : Text.integer? (c :: s) = some v := by
      unfold Literal.number at hv
      rw [String.toList_ofList] at hv
      split at hv
      · next n hn =>
        cases hv
        exact hn
      · cases hv
    have hdecimal := Text.isDecimal_of_integer? hdigits htrim hinteger
    -- the number ends where the value does
    have hown : (valueIn tail).takeWhile Text.isDecimal = c :: s := by
      rw [hvalue, List.takeWhile_append_of_pos hdecimal]
      rcases rest with _ | ⟨d, rest⟩
      · simp
      · rw [List.takeWhile_cons, if_neg (by simp [Text.isDecimal_of_isBlank (hrest d rfl)]),
          List.append_nil]
    obtain ⟨t, ht, htext⟩ := h.number c (s ++ rest) hvalue (hdecimal c (by simp))
    rw [hown] at htext
    rw [ht, Expr.spelled, htext, hv]
    exact ⟨rfl, by rintro _ ⟨⟩⟩
  · obtain ⟨hc, -⟩ := hquotes
    cases hc
    cases s with
    | nil => cases hv
    | cons c s =>
      cases hv
      obtain ⟨t, ht, hchar, hprefix⟩ := h.character (c :: s ++ rest) hvalue
      rw [ht]
      refine ⟨?_, by rintro _ ⟨⟩; exact hchar⟩
      have hsecond : t.text.toList[1]? = some c := by
        rw [hvalue] at hprefix
        rcases hchar.text_eq with ⟨a, -, -, htext⟩ | ⟨a, -, htext⟩
        · rw [htext] at hprefix ⊢
          exact congrArg some (List.cons_prefix_cons.mp (List.cons_prefix_cons.mp hprefix).2).1
        · rw [htext] at hprefix ⊢
          exact congrArg some (List.cons_prefix_cons.mp (List.cons_prefix_cons.mp hprefix).2).1
      rw [Expr.spelled, hsecond]
      rfl

end Directive

/-- The character literals that stand for another character than the one behind the quote. -/
def Literal.escapes : List String := ["'\\n'", "'\\t'", "'\\''"]

/-- A character literal is the character behind its quote, unless that starts an escape. -/
theorem Literal.character_eq {t : Token} (ht : t.IsCharacter) : ∃ v c,
    Literal.character t.text = .ok v ∧ t.text.toList[1]? = some c ∧
      (v = (c.toNat : Int) ↔ t.text ∉ Literal.escapes) := by
  have hmem : ∀ s : String, t.text = s ↔ t.text.toList = s.toList := fun s => String.toList_inj.symm
  rcases ht.text_eq with ⟨c, hquote, hslash, htext⟩ | ⟨c, hc, htext⟩
  · refine ⟨c.toNat, c, ?_, by rw [htext]; rfl, ?_⟩
    · rw [Literal.character, htext]
      rfl
    · simp [escapes, hmem, htext]
  · rw [Literal.character, htext]
    simp only [List.mem_cons, List.not_mem_nil, or_false] at hc
    rcases hc with rfl | rfl | rfl | rfl
    · exact ⟨10, '\\', rfl, rfl, by simp [escapes, hmem, htext]⟩
    · exact ⟨9, '\\', rfl, rfl, by simp [escapes, hmem, htext]⟩
    · exact ⟨92, '\\', rfl, rfl, by simp [escapes, hmem, htext]⟩
    · exact ⟨39, '\\', rfl, rfl, by simp [escapes, hmem, htext]⟩

/-! ## The table and the directives -/

/-- The table has the value of the last directive of a name, and no other names. -/
theorem DefineTable.lookup_directives {text : List Char} {ds : List (Token × Expr)}
    (h : Directive.Orderly text) (hreads : List.Forall₂ Directive.Reads (Directive.tails text) ds)
    (name : String) :
    ((ds.filter fun d => d.1.text = name) = [] ∧ (ofText text).lookup name = none) ∨
      ∃ d tail, (ds.filter fun d => d.1.text = name).getLast? = some d ∧ Directive.Shaped tail ∧
        Directive.Reads tail d ∧ (ofText text).lookup name = some (Directive.entry tail).2 := by
  have hlast : List.Forall₂ Directive.Reads
      ((Directive.tails text).filter fun tail => (Directive.entry tail).1 = name).reverse
      (ds.filter fun d => d.1.text = name).reverse := by
    apply List.rel_reverse
    refine List.rel_filter (fun tail d hd => ?_) hreads
    simp only [decide_eq_true_eq, hd.name_eq]
    rfl
  have hlookup : (ofText text).lookup name =
      (((Directive.tails text).filter fun tail => (Directive.entry tail).1 = name).reverse.head?).map
        fun tail => (Directive.entry tail).2 := by
    rw [lookup_ofText h, List.filter_map, List.getLast?_map, Option.map_map, List.head?_reverse]
    rfl
  have hshaped : ∀ tail ∈ ((Directive.tails text).filter fun tail =>
      (Directive.entry tail).1 = name).reverse, Directive.Shaped tail := by
    intro tail hmem
    obtain ⟨before, hbefore⟩ :=
      Directive.exists_of_mem_tails (List.mem_of_mem_filter (List.mem_reverse.mp hmem))
    exact (h.at_keyword hbefore).2
  rw [hlookup, ← List.head?_reverse, ← List.reverse_eq_nil_iff]
  generalize ((Directive.tails text).filter _).reverse = tails at hlast hshaped ⊢
  generalize (ds.filter _).reverse = ds at hlast ⊢
  -- the last of the lines for the name belongs to the last of its directives
  cases hlast with
  | nil => exact .inl ⟨rfl, rfl⟩
  | @cons tail d _ _ hd _ => exact .inr ⟨d, tail, rfl, hshaped tail (by simp), hd, rfl⟩

namespace SourceLower

variable {pool : Nat}

/-- In a program that is lowered nothing is included, and the name of each directive is defined or
declared. -/
theorem directives_known (is : List Item) {names : List String} {s s' : Session} {ns : List Node}
    (hflat : s.Flat pool names) (h : Gives (items is) s ns s') : (∀ file, .includes file ∉ is) ∧
      ∀ d ∈ is.filterMap Item.directive?,
        (∃ value v, s.defines.lookup d.1.text = some value ∧ Literal.defineValue value = .ok v) ∨
          s.defines.lookup d.1.text = none ∧ d.1.text ∈ names ++ declaredItems is := by
  induction is generalizing names s ns with
  | nil => simp
  | cons i is ih =>
    simp only [items, gives_bind, gives_pure] at h
    obtain ⟨n, s1, hn, ns', s2, hns, rfl, rfl⟩ := h
    cases i with
    | stmt st =>
      obtain ⟨hdeclares, -⟩ := stmt_means st hflat hn
      obtain ⟨hplain, hknown⟩ := ih hdeclares.flat hns
      rw [hdeclares.defines_eq, List.append_assoc] at hknown
      refine ⟨fun file hmem => ?_, hknown⟩
      rcases List.mem_cons.mp hmem with heq | hmem
      · cases heq
      · exact hplain file hmem
    | define name value =>
      simp only [item, gives_bind, gives_pure] at hn
      obtain ⟨_, s2, hname, _, s3, hvalue, rfl, rfl⟩ := hn
      have hquiet1 := (declaredName_means (List.prefix_refl names) hflat hname).1
      have hquiet := hquiet1.trans (expr_lowered (hflat.quiet hquiet1) hvalue).1
      obtain ⟨hplain, hknown⟩ := ih (hflat.quiet hquiet) hns
      rw [hquiet.defines_eq] at hknown
      refine ⟨fun file hmem => ?_, fun d hd => ?_⟩
      · rcases List.mem_cons.mp hmem with heq | hmem
        · cases heq
        · exact hplain file hmem
      · rcases List.mem_cons.mp hd with rfl | hd
        · rw [declaredName, gives_during] at hname
          rcases Lower.gives_declaredName.mp hname with ⟨value, v, hlookup, hv, -⟩ |
            ⟨hlookup, sym, hsym, -⟩
          · exact .inl ⟨value, v, hlookup, hv⟩
          · rw [hflat.lookup_eq] at hsym
            obtain ⟨k, hk, -⟩ := lookup_layout_eq_some hsym
            exact .inr ⟨hlookup, List.mem_append_left _ (List.mem_of_getElem? hk)⟩
        · exact hknown d hd
    | includes file => simp only [item, gives_during, gives_throw] at hn
    | function name params body =>
      simp only [item, gives_bind, gives_during, Lower.unsupported, gives_throw, and_false,
        exists_false] at hn

end SourceLower

theorem Script.exists_text {fs : FileSystem} {path : String} {script : Script}
    (h : read fs path = some script) : ∃ text, Include.expand fs path = .ok text ∧
      Source.parse text.toList = .ok script.source ∧ script.defines = DefineTable.ofText text.toList := by
  cases hexpand : Include.expand fs path with
  | error fault => simp [read, hexpand] at h
  | ok text =>
    rw [read_of_expand hexpand] at h
    obtain ⟨source, hsource, rfl⟩ := Option.map_eq_some_iff.mp h
    refine ⟨text, rfl, ?_, rfl⟩
    cases hparse : Source.parse text.toList with
    | error fault =>
      rw [hparse] at hsource
      cases hsource
    | ok source' =>
      rw [hparse] at hsource
      cases hsource
      rfl

/-! ## Scripts of several lines -/

theorem mapM_zipIdx_ok {α β ε : Type} {f : α × Nat → Except ε β} {g : α → β} {l : List α}
    (h : ∀ a ∈ l, ∀ i, f (a, i) = .ok (g a)) (k : Nat) : (l.zipIdx k).mapM f = .ok (l.map g) := by
  induction l generalizing k with
  | nil => rfl
  | cons a l ih =>
    obtain ⟨hfirst, hrest⟩ := List.forall_mem_cons.mp h
    rw [List.zipIdx_cons, List.mapM_cons, hfirst k, ih hrest]
    rfl

/-- Lines that include nothing are kept. -/
theorem Include.expand_of_lines {fs : FileSystem} {path : String} {segs : List String}
    {bytes : List UInt8} {lines : List (List Char)} (hsegs : Path.normalSegments fs.cwd path = segs)
    (hfind : fs.find segs = .file bytes) (hlines : fileLines bytes = (lines, none))
    (hplain : ∀ line ∈ lines, startsWith (Text.trim line) "#include".toList = false) :
    expand fs path = .ok (String.intercalate "\n"
      (lines.map fun line => String.ofList (Text.trimRight line))) := by
  have hkept : ∀ line ∈ lines, Line.read line = .text (Text.trimRight line) := by
    intro line hline
    unfold Line.read
    simp only [hplain line hline]
    rfl
  unfold expand expandFile
  simp only [hsegs, hfind, hlines, List.not_mem_nil, if_false]
  rw [mapM_zipIdx_ok (g := fun line => [String.ofList (Text.trimRight line)])]
  · show Except.ok _ = Except.ok _
    rw [← List.flatMap_def, ← List.map_eq_flatMap]
  · intro line hline i
    simp only [hkept line hline]

/-- The text of some lines. -/
def textOf (lines : List String) : String := String.intercalate "\n" lines

/-- The files of a script of several lines. -/
def FileSystem.ofLines (lines : List String) : FileSystem := .ofLine (textOf lines)

theorem Include.expand_ofLines {lines : List String}
    (hlines : fileLines ((textOf lines).toList.map fun c => UInt8.ofNat c.toNat) =
      (lines.map String.toList, none))
    (hkept : (lines.all fun line => !startsWith (Text.trim line.toList) "#include".toList &&
      Text.trimRight line.toList == line.toList) = true) :
    expand (.ofLines lines) "m" = .ok (textOf lines) := by
  simp only [List.all_eq_true, Bool.and_eq_true, Bool.not_eq_true', beq_iff_eq] at hkept
  have hsegs : Path.normalSegments (FileSystem.ofLines lines).cwd "m" = ["m"] := by
    show Path.normalSegments "/" "m" = ["m"]
    decide +kernel
  rw [expand_of_lines hsegs rfl hlines (by simpa using fun line hline => (hkept line hline).1),
    List.map_map]
  have hsame : lines.map ((fun line => String.ofList (Text.trimRight line)) ∘ String.toList) = lines := by
    refine (List.map_congr_left fun line hline => ?_).trans (List.map_id lines)
    rw [Function.comp, (hkept line hline).2, String.ofList_toList, id]
  rw [hsame]
  rfl

/-- A name is defined twice; the other one as a backslash. -/
def redefined : List String := ["#define N 5", "#define C '\\\\'", "#define N 7", "output(N + C);"]

def redefinedSource : Source := ⟨[
  .define ⟨.declaredName, "N", 1, 9⟩ (.number ⟨.number, "5", 1, 11⟩),
  .define ⟨.declaredName, "C", 2, 9⟩ (.character ⟨.charLiteral, "'\\\\'", 2, 11⟩),
  .define ⟨.declaredName, "N", 3, 9⟩ (.number ⟨.number, "7", 3, 11⟩),
  .stmt (.output (.chain .arithmetic (.name ⟨.declaredName, "N", 4, 8⟩)
    [(⟨.plus, "+", 4, 10⟩, .name ⟨.declaredName, "C", 4, 12⟩)]))]⟩

theorem Session.compile_redefined :
    Include.expand (.ofLines redefined) "m" = .ok (textOf redefined) ∧
    Source.parse (textOf redefined).toList = .ok redefinedSource ∧
    ∃ code s', (Session.ofPool 4).compile (.ofLines redefined) "m" = (.code code, s') := by
  have hexpand : Include.expand (.ofLines redefined) "m" = .ok (textOf redefined) :=
    Include.expand_ofLines (by decide +kernel) (by decide +kernel)
  have hparse : Source.parse (textOf redefined).toList = .ok redefinedSource := by decide +kernel
  refine ⟨hexpand, hparse, exists_code_of_any ?_⟩
  rw [Script.read_of_expand hexpand, hparse]
  decide +kernel

/-! ## Uses and directives -/

/-- The expression has this value, whatever the input and the variables are. -/
def Expr.AlwaysIs (e : Expr) (defines : DefineTable) (v : Int) : Prop :=
  ∀ w input vars pos, e.eval defines w input vars pos = some (.constant v, pos)

section AlwaysIs

variable {table : DefineTable} {t : Token} {v : Int}

theorem Expr.alwaysIs_name {value : String} (hlookup : table.lookup t.text = some value)
    (hv : Literal.defineValue value = .ok v) : (Expr.name t).AlwaysIs table v := by
  intro w input vars pos
  simp only [eval, hlookup, hv]
  rfl

theorem Expr.alwaysIs_number (h : (Expr.number t).spelled = some v) :
    (Expr.number t).AlwaysIs table v := by
  intro w input vars pos
  rw [spelled] at h
  rw [eval, h]
  rfl

/-- The value of a character literal is the one that it shows, unless it is an escape. -/
theorem Expr.alwaysIs_character_iff (ht : t.IsCharacter) (h : (Expr.character t).spelled = some v) :
    (Expr.character t).AlwaysIs table v ↔ t.text ∉ Literal.escapes := by
  obtain ⟨u, c, hu, hc, hiff⟩ := Literal.character_eq ht
  have heval : ∀ w input vars pos,
      (Expr.character t).eval table w input vars pos = some (.constant u, pos) := by
    intro w input vars pos
    rw [eval, hu]
    rfl
  rw [spelled, hc] at h
  cases h
  rw [← hiff]
  constructor
  · intro halways
    have hsame := (heval .w8 #[] (fun _ => 0) 0).symm.trans (halways .w8 #[] (fun _ => 0) 0)
    cases hsame
    rfl
  · rintro rfl
    exact heval

end AlwaysIs

/-- **Constants and their directives.** In a program that compiles, the name of every directive is a
constant, unless it is a variable. If every directive has a line of its own, the constants are the
names of the directives, and each use of one has the value that the literal shows with which the last
directive of the name starts: the value of the directive, if that is a number, or a character that is
not escaped. -/
theorem Session.defines_against_directives {pool : Int} {fs : FileSystem} {path : String}
    {code : Code} {s' : Session}
    (hcompile : (Session.ofPool pool).compile fs path = (.code code, s')) :
    ∃ text source, Include.expand fs path = .ok text ∧ Source.parse text.toList = .ok source ∧
      (∀ d ∈ source.directives, d.1.text ∉ declaredItems source.items →
        ∃ v, ∀ use : Token, use.text = d.1.text →
          (Expr.name use).AlwaysIs (DefineTable.ofText text.toList) v) ∧
      (Directive.Orderly text.toList →
        (∀ name, ((DefineTable.ofText text.toList).lookup name).isSome ↔
          ∃ d ∈ source.directives, d.1.text = name) ∧
        ∀ name d, (source.directives.filter fun d => d.1.text = name).getLast? = some d →
          ∃ v, d.2.head.spelled = some v ∧
            (∀ use : Token, use.text = name →
              (Expr.name use).AlwaysIs (DefineTable.ofText text.toList) v) ∧
            (∀ t, d.2 = .number t → d.2.AlwaysIs (DefineTable.ofText text.toList) v) ∧
            ∀ t, d.2 = .character t →
              (d.2.AlwaysIs (DefineTable.ofText text.toList) v ↔ t.text ∉ Literal.escapes)) := by
  obtain ⟨script, nodes, lowered, bench, hcompilation, -⟩ := compile_eq_code.mp hcompile
  obtain ⟨text, hexpand, hparse, hdefines⟩ := Script.exists_text hcompilation.read
  obtain ⟨hplain, hknown⟩ := SourceLower.directives_known script.source.items
    (opening_flat ..) hcompilation.lowers
  have hopening : (opening pool path script.defines).defines = DefineTable.ofText text.toList := hdefines
  rw [hopening] at hknown
  refine ⟨text, script.source, hexpand, hparse, ?_, fun horderly => ?_⟩
  · intro d hd hvariable
    rcases hknown d hd with ⟨value, v, hlookup, hv⟩ | ⟨-, hmem⟩
    · exact ⟨v, fun use huse => Expr.alwaysIs_name (by rw [huse]; exact hlookup) hv⟩
    · exact absurd hmem hvariable
  have hreads := Source.parse_directives horderly hparse hplain
  refine ⟨fun name => ?_, fun name d hlast => ?_⟩
  · rcases DefineTable.lookup_directives horderly hreads name with ⟨hnil, hlookup⟩ |
      ⟨d, tail, hlast, -, -, hlookup⟩
    · rw [hlookup]
      simpa using hnil
    · rw [hlookup]
      have hmem := List.mem_filter.mp (List.mem_of_getLast? hlast)
      exact iff_of_true rfl ⟨d, hmem.1, by simpa using hmem.2⟩
  · rcases DefineTable.lookup_directives horderly hreads name with ⟨hnil, -⟩ |
      ⟨_, tail, hlast', hshaped, hd, hlookup⟩
    · rw [hnil] at hlast
      cases hlast
    cases hlast.symm.trans hlast'
    have hmem := List.mem_filter.mp (List.mem_of_getLast? hlast)
    have hname : d.1.text = name := by simpa using hmem.2
    obtain ⟨v, hv⟩ : ∃ v, Literal.defineValue (Directive.entry tail).2 = .ok v := by
      rcases hknown d hmem.1 with ⟨value, v, hlookup', hv⟩ | ⟨hnone, -⟩
      · rw [hname, hlookup] at hlookup'
        cases hlookup'
        exact ⟨v, hv⟩
      · rw [hname, hlookup] at hnone
        cases hnone
    obtain ⟨hspelled, hcharacter⟩ := hd.spelled_eq hshaped hv
    refine ⟨v, hspelled, fun use huse => Expr.alwaysIs_name (by rw [huse]; exact hlookup) hv, ?_, ?_⟩
    · intro t ht
      rw [ht] at hspelled ⊢
      exact Expr.alwaysIs_number hspelled
    · intro t ht
      rw [ht] at hspelled hcharacter ⊢
      exact Expr.alwaysIs_character_iff (hcharacter t rfl) hspelled

example : (DefineTable.ofText "#define N 5\n#define N 7".toList).lookup "N" = some "7" := by decide +kernel

/-- The later directive counts, and a backslash is itself. -/
theorem Session.defines_against_directives_redefined :
    ∃ code s', (Session.ofPool 4).compile (.ofLines redefined) "m" = (.code code, s') ∧
      Directive.Orderly (textOf redefined).toList ∧
      (∀ use : Token, use.text = "N" →
        (Expr.name use).AlwaysIs (DefineTable.ofText (textOf redefined).toList) 7) ∧
      (∀ use : Token, use.text = "C" →
        (Expr.name use).AlwaysIs (DefineTable.ofText (textOf redefined).toList) 92) ∧
      (Expr.character ⟨.charLiteral, "'\\\\'", 2, 11⟩).AlwaysIs
        (DefineTable.ofText (textOf redefined).toList) 92 := by
  obtain ⟨hexpand', hparse', code, s', hcompile⟩ := Session.compile_redefined
  have horderly : Directive.Orderly (textOf redefined).toList := by decide
  obtain ⟨text, source, hexpand, hparse, -, hdirectives⟩ := Session.defines_against_directives hcompile
  cases hexpand.symm.trans hexpand'
  cases hparse.symm.trans hparse'
  obtain ⟨-, hlast⟩ := hdirectives horderly
  obtain ⟨v, hv, huses, -, -⟩ :=
    hlast "N" (⟨.declaredName, "N", 3, 9⟩, .number ⟨.number, "7", 3, 11⟩) rfl
  obtain ⟨v', hv', huses', -, hvalue⟩ := hlast "C"
    (⟨.declaredName, "C", 2, 9⟩, .character ⟨.charLiteral, "'\\\\'", 2, 11⟩) rfl
  obtain rfl : 7 = v := Option.some.inj hv
  obtain rfl : 92 = v' := Option.some.inj hv'
  exact ⟨code, s', hcompile, horderly, huses, huses', (hvalue _ rfl).mpr (by decide)⟩

/-- The script compiles; it has one directive, and uses of its name have another value than the
directive. -/
def Session.Differs (lines : List String) (used written : Int) : Prop :=
  (∃ code s', (Session.ofPool 4).compile (.ofLines lines) "m" = (.code code, s')) ∧
    ∃ source d, Source.parse (textOf lines).toList = .ok source ∧ source.directives = [d] ∧
      (∀ use : Token, use.text = d.1.text →
        (Expr.name use).AlwaysIs (DefineTable.ofText (textOf lines).toList) used) ∧
      d.2.AlwaysIs (DefineTable.ofText (textOf lines).toList) written ∧ used ≠ written

theorem Session.differs_of_parse {lines : List String} {source : Source} {d : Token × Expr}
    {used written : Int} (value : String)
    (hexpand : Include.expand (.ofLines lines) "m" = .ok (textOf lines))
    (hparse : Source.parse (textOf lines).toList = .ok source)
    (hcode : (runFrom (SourceLower.source source)
      (opening 4 "m" (DefineTable.ofText (textOf lines).toList))).1.isOk = true)
    (hd : source.directives = [d])
    (hlookup : (DefineTable.ofText (textOf lines).toList).lookup d.1.text = some value)
    (hvalue : Literal.defineValue value = .ok used)
    (hwritten : d.2.AlwaysIs (DefineTable.ofText (textOf lines).toList) written)
    (hne : used ≠ written) : Differs lines used written := by
  refine ⟨exists_code_of_any ?_, source, d, hparse, hd, fun use huse => ?_, hwritten, hne⟩
  · rw [Script.read_of_expand hexpand, hparse]
    exact hcode
  · exact Expr.alwaysIs_name (by rw [huse]; exact hlookup) hvalue

theorem Session.differs_escape : Differs ["#define N '\\n'", "output(N);"] 92 10 := by
  have hparse : Source.parse (textOf ["#define N '\\n'", "output(N);"]).toList =
      .ok ⟨[.define ⟨.declaredName, "N", 1, 9⟩ (.character ⟨.charLiteral, "'\\n'", 1, 11⟩),
        .stmt (.output (.name ⟨.declaredName, "N", 2, 8⟩))]⟩ := by decide +kernel
  exact differs_of_parse "'\\n'"
    (Include.expand_ofLines (by decide +kernel) (by decide +kernel)) hparse
    (by decide +kernel) rfl (by decide +kernel) rfl (fun _ _ _ _ => rfl) (by decide)

theorem Session.differs_continued : Differs ["#define N 1", "+ 2", "output(N);"] 1 3 := by
  have hparse : Source.parse (textOf ["#define N 1", "+ 2", "output(N);"]).toList =
      .ok ⟨[.define ⟨.declaredName, "N", 1, 9⟩ (.chain .arithmetic (.number ⟨.number, "1", 1, 11⟩)
          [(⟨.plus, "+", 2, 1⟩, .number ⟨.number, "2", 2, 3⟩)]),
        .stmt (.output (.name ⟨.declaredName, "N", 3, 8⟩))]⟩ := by decide +kernel
  exact differs_of_parse "1"
    (Include.expand_ofLines (by decide +kernel) (by decide +kernel)) hparse
    (by decide +kernel) rfl (by decide +kernel) rfl (fun _ _ _ _ => rfl) (by decide)

/-- A directive in a comment. -/
def commentedOut : List String := ["/*", "#define N 5", "*/ size_t N = 3; output(N);"]

/-- An escape counts as the backslash that it starts with, an expression that goes on in the next line
as its first literal, and a directive in a comment as a directive. -/
theorem Session.defines_differ_from_directives :
    Differs ["#define N '\\n'", "output(N);"] 92 10 ∧
    Differs ["#define N 1", "+ 2", "output(N);"] 1 3 ∧
    (∃ code s', (Session.ofPool 4).compile (.ofLines commentedOut) "m" = (.code code, s')) ∧
    (∃ source, Source.parse (textOf commentedOut).toList = .ok source ∧ source.directives = []) ∧
    (DefineTable.ofText (textOf commentedOut).toList).lookup "N" = some "5" := by
  have hparse : Source.parse (textOf commentedOut).toList =
      .ok ⟨[.stmt (.variable ⟨.newName, "N", 3, 11⟩ (some (.number ⟨.number, "3", 3, 15⟩))),
        .stmt (.output (.name ⟨.declaredName, "N", 3, 25⟩))]⟩ := by decide +kernel
  have hexpand : Include.expand (.ofLines commentedOut) "m" = .ok (textOf commentedOut) :=
    Include.expand_ofLines (by decide +kernel) (by decide +kernel)
  refine ⟨differs_escape, differs_continued, exists_code_of_any ?_, ⟨_, hparse, rfl⟩, by decide⟩
  rw [Script.read_of_expand hexpand, hparse]
  decide +kernel

end TapeScript
