import Mathlib.Data.List.Infix
import TapeScript.Proofs.Layout
import TapeScript.Source.Define

set_option autoImplicit false

/-! # Directives line by line

A define directive is read twice: by lines, which fills the table of constants, and by tokens, which
gives the syntax tree. Here is what the lines give. In a text in which every directive has a line of its
own (`Directive.Orderly`), the lines find what stands behind each occurrence of the keyword, in the
order of the text (`Directive.entries_eq`), and the table has the names that are found
(`DefineTable.lookup_ofText`).
-/

namespace TapeScript

/-- What is trimmed are blanks. -/
theorem Text.exists_trimRight_append (s : List Char) :
    ∃ b, s = trimRight s ++ b ∧ ∀ c ∈ b, isBlank c = true := by
  refine ⟨(s.reverse.takeWhile isBlank).reverse, ?_, fun c hc => ?_⟩
  · rw [trimRight, ← List.reverse_append, List.takeWhile_append_dropWhile, List.reverse_reverse]
  · exact List.mem_takeWhile_imp (List.mem_reverse.mp hc)

namespace Directive

/-! ## Where directives stand -/

/-- What a directive starts with. -/
def keyword : List Char := ['#', 'd', 'e', 'f', 'i', 'n', 'e']

theorem keyword_eq : "#define".toList = keyword := by decide

/-- What stands behind each occurrence of the keyword. -/
def tails : List Char → List (List Char)
  | [] => []
  | c :: rest =>
    if keyword <+: c :: rest then (c :: rest).drop keyword.length :: tails rest else tails rest

/-- A blank inside a line. -/
def isSpace (c : Char) : Bool := c = ' ' || c = '\t'

/-- The name behind the keyword. -/
def nameIn (tail : List Char) : List Char := (tail.dropWhile isSpace).takeWhile Token.isNameChar

def behindName (tail : List Char) : List Char := (tail.dropWhile isSpace).dropWhile Token.isNameChar

/-- The text from the value on. -/
def valueIn (tail : List Char) : List Char := (behindName tail).dropWhile isSpace

/-- The name, and the value up to the end of its line. -/
def entry (tail : List Char) : String × String :=
  (String.ofList (nameIn tail), String.ofList (Text.trimRight ((valueIn tail).takeWhile (· ≠ '\n'))))

/-- Behind the keyword there are blanks, a name, blanks, and a value in the same line. -/
structure Shaped (tail : List Char) : Prop where
  spaced : tail.head?.any isSpace = true
  named : (nameIn tail).head?.any Token.isNameStart = true
  parted : (behindName tail).head?.any isSpace = true
  valued : (valueIn tail).head?.any (fun c => !Text.isBlank c) = true

/-- In front of the keyword there are only blanks in its line, and every comment is closed. -/
structure Apart (before : List Char) : Prop where
  indented : ∀ c ∈ before.reverse.takeWhile (· ≠ '\n'), isSpace c = true
  uncommented : ∀ i < before.length, ['/', '*'] <+: before.drop i → ['*', '/'] <:+: before.drop (i + 2)

/-- Every directive has a line of its own, outside of comments, and lines end in one way only. -/
structure Orderly (text : List Char) : Prop where
  ends : ∀ c ∈ text, Text.endsLine c = true → c = '\n'
  apart : ∀ i < text.length, keyword <+: text.drop i → Apart (text.take i)
  shaped : ∀ i < text.length, keyword <+: text.drop i → Shaped (text.drop (i + keyword.length))

instance (tail : List Char) : Decidable (Shaped tail) :=
  decidable_of_iff (tail.head?.any isSpace = true ∧
    (nameIn tail).head?.any Token.isNameStart = true ∧ (behindName tail).head?.any isSpace = true ∧
    (valueIn tail).head?.any (fun c => !Text.isBlank c) = true)
    ⟨fun ⟨h1, h2, h3, h4⟩ => ⟨h1, h2, h3, h4⟩, fun ⟨h1, h2, h3, h4⟩ => ⟨h1, h2, h3, h4⟩⟩

instance (before : List Char) : Decidable (Apart before) :=
  decidable_of_iff ((before.reverse.takeWhile (· ≠ '\n')).all isSpace = true ∧
    ∀ i < before.length, ['/', '*'] <+: before.drop i → ['*', '/'] <:+: before.drop (i + 2))
    ⟨fun ⟨h, h'⟩ => ⟨List.all_eq_true.mp h, h'⟩, fun ⟨h, h'⟩ => ⟨List.all_eq_true.mpr h, h'⟩⟩

instance (text : List Char) : Decidable (Orderly text) :=
  decidable_of_iff ((text.all fun c => Text.endsLine c = true → c = '\n') = true ∧
    (∀ i < text.length, keyword <+: text.drop i → Apart (text.take i)) ∧
    ∀ i < text.length, keyword <+: text.drop i → Shaped (text.drop (i + keyword.length))) (by
      simp only [List.all_eq_true, decide_eq_true_eq]
      exact ⟨fun ⟨h1, h2, h3⟩ => ⟨h1, h2, h3⟩, fun ⟨h1, h2, h3⟩ => ⟨h1, h2, h3⟩⟩)

/-! ## Occurrences of the keyword -/

theorem isBreak_of_mem_keyword : ∀ c ∈ keyword, isBreak c = false := by
  have hall : (keyword.all fun c => !isBreak c) = true := by decide
  simpa using hall

theorem isBlank_of_mem_keyword : ∀ c ∈ keyword, Text.isBlank c = false := by
  have hall : (keyword.all fun c => !Text.isBlank c) = true := by decide
  simpa using hall

theorem isSpace_hash : isSpace '#' = false := by decide

/-- A stretch of text in which the keyword starts nowhere. -/
theorem tails_append {a b : List Char} (h : ∀ x y, a = x ++ y → y ≠ [] → ¬ keyword <+: y ++ b) :
    tails (a ++ b) = tails b := by
  induction a with
  | nil => rfl
  | cons c a ih =>
    have hfirst : ¬ keyword <+: c :: (a ++ b) := h [] (c :: a) rfl (List.cons_ne_nil c a)
    rw [List.cons_append, tails, if_neg hfirst]
    apply ih
    intro x y ha hy
    exact h (c :: x) y (by rw [ha, List.cons_append]) hy

theorem tails_append_of_not_mem {a : List Char} (h : '#' ∉ a) (b : List Char) :
    tails (a ++ b) = tails b := by
  apply tails_append
  rintro x y rfl hy hprefix
  obtain ⟨c, y, rfl⟩ := List.exists_cons_of_ne_nil hy
  obtain ⟨rfl, -⟩ := List.cons_prefix_cons.mp hprefix
  exact h (by simp)

theorem tails_keyword (b : List Char) : tails (keyword ++ b) = b :: tails b := by
  have hrest : tails (['d', 'e', 'f', 'i', 'n', 'e'] ++ b) = tails b :=
    tails_append_of_not_mem (by decide) b
  show (if keyword <+: keyword ++ b then (keyword ++ b).drop keyword.length ::
    tails (['d', 'e', 'f', 'i', 'n', 'e'] ++ b) else _) = _
  rw [if_pos (List.prefix_append keyword b), List.drop_left, hrest]

theorem exists_of_mem_tails {text tail : List Char} (h : tail ∈ tails text) :
    ∃ before, text = before ++ (keyword ++ tail) := by
  induction text with
  | nil => cases h
  | cons c rest ih =>
    have hrest : tail ∈ tails rest → ∃ before, c :: rest = before ++ (keyword ++ tail) := by
      intro hmem
      obtain ⟨before, hbefore⟩ := ih hmem
      exact ⟨c :: before, by rw [hbefore, List.cons_append]⟩
    rw [tails] at h
    split at h
    · next hkeyword =>
      rcases List.mem_cons.mp h with rfl | hmem
      · refine ⟨[], ?_⟩
        rw [List.nil_append, List.prefix_iff_eq_append.mp hkeyword]
      · exact hrest hmem
    · exact hrest h

namespace Orderly

variable {text before tail : List Char}

theorem at_keyword (h : Orderly text) (htext : text = before ++ (keyword ++ tail)) :
    Apart before ∧ Shaped tail := by
  subst htext
  have hlt : before.length < (before ++ (keyword ++ tail)).length := by
    simp [keyword]
  have hkeyword : keyword <+: (before ++ (keyword ++ tail)).drop before.length := by
    rw [List.drop_left]
    exact List.prefix_append keyword tail
  have hapart := h.apart before.length hlt hkeyword
  have hshaped := h.shaped before.length hlt hkeyword
  rw [List.take_left] at hapart
  rw [← List.drop_drop, List.drop_left, List.drop_left] at hshaped
  exact ⟨hapart, hshaped⟩

/-- In front of the keyword its line is blank. -/
theorem spaces_before (h : Orderly text) {done line : List Char} (hline : '\n' ∉ line)
    (htext : text = done ++ (line ++ (keyword ++ tail))) : ∀ c ∈ line, isSpace c = true := by
  have hapart := (h.at_keyword (by rw [htext, List.append_assoc])).1
  intro c hc
  have hall : ∀ d ∈ line.reverse, decide (d ≠ '\n') = true := fun d hd =>
    decide_eq_true fun heq => hline (heq ▸ List.mem_reverse.mp hd)
  apply hapart.indented
  rw [List.reverse_append, List.takeWhile_append_of_pos hall]
  exact List.mem_append_left _ (List.mem_reverse.mpr hc)

/-- In front of the keyword a comment that is opened is closed again. -/
theorem closed_before (h : Orderly text) {done body : List Char}
    (htext : text = done ++ ('/' :: '*' :: (body ++ (keyword ++ tail)))) : ['*', '/'] <:+: body := by
  have hsplit : text = (done ++ '/' :: '*' :: body) ++ (keyword ++ tail) := by
    rw [htext]
    simp
  have hapart := (h.at_keyword hsplit).1
  have hopen : ['/', '*'] <+: (done ++ '/' :: '*' :: body).drop done.length := by
    rw [List.drop_left]
    exact ⟨body, rfl⟩
  have hclosed := hapart.uncommented done.length (by simp) hopen
  rw [← List.drop_drop, List.drop_left] at hclosed
  exact hclosed

end Orderly

variable {c : Char} {b s tail line : List Char}

/-! ## Words of a line -/

theorem isBlank_of_isSpace (h : isSpace c = true) : Text.isBlank c = true := by
  simp only [isSpace, Bool.or_eq_true, decide_eq_true_eq] at h
  rcases h with rfl | rfl <;> decide

theorem isBlank_of_isNameChar (h : Token.isNameChar c = true) : Text.isBlank c = false := by
  have hcode : (48 ≤ c.toNat ∧ c.toNat ≤ 57) ∨ (65 ≤ c.toNat ∧ c.toNat ≤ 90) ∨
      (97 ≤ c.toNat ∧ c.toNat ≤ 122) ∨ c.toNat = 95 := by
    unfold Token.isNameChar Char.isAlphanum Char.isAlpha Char.isUpper Char.isLower at h
    simp only [Char.isDigit, Bool.or_eq_true, Bool.and_eq_true, decide_eq_true_eq, ge_iff_le,
      UInt32.le_iff_toNat_le] at h
    have hval : c.val.toNat = c.toNat := rfl
    have hcodes : 'A'.val.toNat = 65 ∧ 'Z'.val.toNat = 90 ∧ 'a'.val.toNat = 97 ∧
        'z'.val.toNat = 122 ∧ '0'.val.toNat = 48 ∧ '9'.val.toNat = 57 := by decide
    rcases h with ((h | h) | h) | rfl
    · omega
    · omega
    · omega
    · exact .inr (.inr (.inr rfl))
  unfold Text.isBlank
  simp only [Bool.or_eq_false_iff, Bool.and_eq_false_iff, decide_eq_false_iff_not, beq_eq_false_iff_ne]
  omega

/-- Blanks in front of something else are left out. -/
theorem trimLeft_append (hb : ∀ c ∈ b, Text.isBlank c = true)
    (hs : ∀ c ∈ s.head?, Text.isBlank c = false) : Text.trimLeft (b ++ s) = s := by
  unfold Text.trimLeft
  rw [List.dropWhile_append_of_pos hb]
  cases s with
  | nil => rfl
  | cons c s => rw [List.dropWhile_cons, if_neg (by simp [hs c rfl])]

theorem trimRight_append {a : List Char} (hs : ∃ c ∈ s, Text.isBlank c = false) :
    Text.trimRight (a ++ s) = a ++ Text.trimRight s := by
  obtain ⟨c, hc, hblank⟩ := hs
  have hkept : (s.reverse.dropWhile Text.isBlank).isEmpty = false := by
    rw [List.isEmpty_eq_false_iff]
    intro hnil
    have hall := List.dropWhile_eq_nil_iff.mp hnil c (List.mem_reverse.mpr hc)
    rw [hblank] at hall
    cases hall
  unfold Text.trimRight
  rw [List.reverse_append, List.dropWhile_append, hkept]
  simp

theorem trimRight_prefix (s : List Char) : Text.trimRight s <+: s := by
  unfold Text.trimRight
  rw [← List.reverse_suffix, List.reverse_reverse]
  exact List.dropWhile_suffix _

/-- What does not start with a blank is not trimmed away. -/
theorem exists_trimRight_cons (hc : Text.isBlank c = false) (s : List Char) :
    ∃ s', Text.trimRight (c :: s) = c :: s' := by
  have hprefix := trimRight_prefix (c :: s)
  cases htrim : Text.trimRight (c :: s) with
  | nil =>
    have hnil : (c :: s).reverse.dropWhile Text.isBlank = [] := List.reverse_eq_nil_iff.mp htrim
    have hall := List.dropWhile_eq_nil_iff.mp hnil c (by simp)
    rw [hc] at hall
    cases hall
  | cons d s' =>
    rw [htrim] at hprefix
    obtain ⟨rfl, -⟩ := List.cons_prefix_cons.mp hprefix
    exact ⟨s', rfl⟩

/-- A word is cut off. -/
theorem wordsAtMost_word (limit : Nat) {word rest : List Char} (hb : ∀ c ∈ b, Text.isBlank c = true)
    (hne : word ≠ []) (hword : ∀ c ∈ word, Text.isBlank c = false)
    (hrest : ∀ c ∈ rest.head?, Text.isBlank c = true) :
    Text.wordsAtMost (limit + 1) (b ++ (word ++ rest)) = word :: Text.wordsAtMost limit rest := by
  obtain ⟨c, cs, rfl⟩ := List.exists_cons_of_ne_nil hne
  have htrim : Text.trimLeft (b ++ (c :: cs ++ rest)) = c :: cs ++ rest :=
    trimLeft_append hb (by rintro d ⟨⟩; exact hword c (by simp))
  have hall : ∀ d ∈ c :: cs, (!Text.isBlank d) = true := fun d hd => by rw [hword d hd]; rfl
  have hstop : rest.takeWhile (!Text.isBlank ·) = [] ∧ rest.dropWhile (!Text.isBlank ·) = rest := by
    cases rest with
    | nil => exact ⟨rfl, rfl⟩
    | cons d rest => simp [hrest d rfl]
  rw [Text.wordsAtMost, htrim]
  show (c :: cs ++ rest).takeWhile (!Text.isBlank ·) ::
    Text.wordsAtMost limit ((c :: cs ++ rest).dropWhile (!Text.isBlank ·)) = _
  rw [List.takeWhile_append_of_pos hall, List.dropWhile_append_of_pos hall, hstop.1, hstop.2,
    List.append_nil]

theorem wordsAtMost_last {value : List Char} (hb : ∀ c ∈ b, Text.isBlank c = true)
    (hne : value ≠ []) (hvalue : ∀ c ∈ value.head?, Text.isBlank c = false) :
    Text.wordsAtMost 0 (b ++ value) = [value] := by
  obtain ⟨c, cs, rfl⟩ := List.exists_cons_of_ne_nil hne
  rw [Text.wordsAtMost, trimLeft_append hb hvalue]

/-! ## Lines -/

/-- The parts behind the keyword. -/
theorem Shaped.exists_parts (h : Shaped tail) :
    ∃ b1 b2 c value, tail = b1 ++ (nameIn tail ++ (b2 ++ c :: value)) ∧
      valueIn tail = c :: value ∧ b1 ≠ [] ∧ (∀ d ∈ b1, isSpace d = true) ∧ b2 ≠ [] ∧
      (∀ d ∈ b2, isSpace d = true) ∧ Text.isBlank c = false := by
  obtain ⟨c, hc, hblank⟩ := (Option.any_eq_true _ _).mp h.valued
  obtain ⟨value, hvalue⟩ := List.head?_eq_some_iff.mp hc
  refine ⟨tail.takeWhile isSpace, (behindName tail).takeWhile isSpace, c, value, ?_, hvalue, ?_,
    fun d hd => List.mem_takeWhile_imp hd, ?_, fun d hd => List.mem_takeWhile_imp hd, by simpa using hblank⟩
  · rw [← hvalue, valueIn, List.takeWhile_append_dropWhile, nameIn, behindName,
      List.takeWhile_append_dropWhile, List.takeWhile_append_dropWhile]
  · obtain ⟨d, hd, hspace⟩ := (Option.any_eq_true _ _).mp h.spaced
    obtain ⟨rest, hrest⟩ := List.head?_eq_some_iff.mp hd
    rw [hrest, List.takeWhile_cons, if_pos hspace]
    exact List.cons_ne_nil _ _
  · obtain ⟨d, hd, hspace⟩ := (Option.any_eq_true _ _).mp h.parted
    obtain ⟨rest, hrest⟩ := List.head?_eq_some_iff.mp hd
    rw [hrest, List.takeWhile_cons, if_pos hspace]
    exact List.cons_ne_nil _ _

theorem Shaped.name_ne_nil (h : Shaped tail) : nameIn tail ≠ [] := by
  obtain ⟨c, hc, -⟩ := (Option.any_eq_true _ _).mp h.named
  intro hnil
  rw [hnil] at hc
  cases hc

theorem isNameChar_of_mem_nameIn (h : c ∈ nameIn tail) :
    Token.isNameChar c = true := List.mem_takeWhile_imp h

theorem isBlank_of_head (hne : b ≠ []) (hb : ∀ c ∈ b, isSpace c = true) :
    ∀ c ∈ (b ++ s).head?, Text.isBlank c = true := by
  obtain ⟨d, b, rfl⟩ := List.exists_cons_of_ne_nil hne
  rintro c ⟨⟩
  exact isBlank_of_isSpace (hb d (by simp))

/-- A line of a keyword, a name and a value, with blanks between them. -/
theorem ofLine?_parts {indent b1 name b2 value : List Char}
    (hindent : ∀ d ∈ indent, isSpace d = true) (hne1 : b1 ≠ []) (hb1 : ∀ d ∈ b1, isSpace d = true)
    (hne : name ≠ []) (hname : ∀ d ∈ name, Token.isNameChar d = true) (hne2 : b2 ≠ [])
    (hb2 : ∀ d ∈ b2, isSpace d = true) (hc : Text.isBlank c = false) :
    DefineTable.ofLine? (indent ++ (keyword ++ (b1 ++ (name ++ (b2 ++ c :: value))))) =
      some (String.ofList name, String.ofList (Text.trimRight (c :: value))) := by
  have hmem : ∃ d ∈ c :: value, Text.isBlank d = false := ⟨c, by simp, hc⟩
  have htrim : Text.trim (indent ++ (keyword ++ (b1 ++ (name ++ (b2 ++ c :: value))))) =
      keyword ++ (b1 ++ (name ++ (b2 ++ Text.trimRight (c :: value)))) := by
    have hleft : Text.trimLeft (indent ++ (keyword ++ (b1 ++ (name ++ (b2 ++ c :: value))))) =
        keyword ++ (b1 ++ (name ++ (b2 ++ c :: value))) :=
      trimLeft_append (fun d hd => isBlank_of_isSpace (hindent d hd)) (by rintro d ⟨⟩; decide)
    unfold Text.trim
    rw [hleft, ← List.append_assoc, ← List.append_assoc, ← List.append_assoc, trimRight_append hmem]
    simp only [List.append_assoc]
  obtain ⟨value', hvalue'⟩ := exists_trimRight_cons hc value
  have hwords : Text.wordsAtMost 2 (keyword ++ (b1 ++ (name ++ (b2 ++ c :: value')))) =
      [keyword, name, c :: value'] := by
    have hfirst := wordsAtMost_word 1 (b := []) (by simp) (by decide : keyword ≠ [])
      isBlank_of_mem_keyword (isBlank_of_head (s := name ++ (b2 ++ c :: value')) hne1 hb1)
    have hsecond := wordsAtMost_word 0 (fun d hd => isBlank_of_isSpace (hb1 d hd)) hne
      (fun d hd => isBlank_of_isNameChar (hname d hd)) (isBlank_of_head (s := c :: value') hne2 hb2)
    have hlast := wordsAtMost_last (fun d hd => isBlank_of_isSpace (hb2 d hd))
      (List.cons_ne_nil c value') (by rintro d ⟨⟩; exact hc)
    rw [List.nil_append, hsecond, hlast] at hfirst
    exact hfirst
  unfold DefineTable.ofLine?
  simp only [keyword_eq, htrim, hvalue', hwords]
  rw [if_pos (List.isPrefixOf_iff_prefix.mpr (List.prefix_append _ _))]

/-- The line of a directive gives its name and its value. -/
theorem ofLine?_directive {indent : List Char} (hindent : ∀ c ∈ indent, isSpace c = true)
    (h : Shaped tail) :
    DefineTable.ofLine? (indent ++ (keyword ++ tail.takeWhile (· ≠ '\n'))) = some (entry tail) := by
  obtain ⟨b1, b2, c, value, htail, hvalue, hne1, hb1, hne2, hb2, hc⟩ := h.exists_parts
  have hspace : ∀ {b : List Char}, (∀ d ∈ b, isSpace d = true) → ∀ d ∈ b, decide (d ≠ '\n') = true := by
    intro b hb d hd
    refine decide_eq_true ?_
    rintro rfl
    exact absurd (hb _ hd) (by decide)
  have hname : ∀ d ∈ nameIn tail, decide (d ≠ '\n') = true := by
    intro d hd
    refine decide_eq_true ?_
    rintro rfl
    exact absurd (isNameChar_of_mem_nameIn hd) (by decide)
  have hfirst : decide (c ≠ '\n') = true := by
    refine decide_eq_true ?_
    rintro rfl
    exact absurd hc (by decide)
  -- no part but the value can reach the end of the line
  have hline : tail.takeWhile (· ≠ '\n') =
      b1 ++ (nameIn tail ++ (b2 ++ c :: value.takeWhile (· ≠ '\n'))) := by
    conv_lhs => rw [htail]
    rw [List.takeWhile_append_of_pos (hspace hb1), List.takeWhile_append_of_pos hname,
      List.takeWhile_append_of_pos (hspace hb2), List.takeWhile_cons, if_pos hfirst]
  rw [hline, ofLine?_parts hindent hne1 hb1 h.name_ne_nil (fun _ => isNameChar_of_mem_nameIn) hne2 hb2 hc,
    entry, hvalue, List.takeWhile_cons, if_pos hfirst]

/-- A line that gives a name and a value has the keyword in it. -/
theorem keyword_infix_of_ofLine? {e : String × String} (h : DefineTable.ofLine? line = some e) :
    keyword <:+: line := by
  have hstart : keyword <+: Text.trim line := by
    unfold DefineTable.ofLine? at h
    simp only [keyword_eq] at h
    split at h
    · next hkeyword => exact List.isPrefixOf_iff_prefix.mp hkeyword
    · cases h
  have htrim : Text.trim line <+: Text.trimLeft line := trimRight_prefix _
  exact (hstart.trans htrim).isInfix.trans (List.dropWhile_suffix _).isInfix

/-- A line up to its end. -/
theorem splitLinesFrom_cons {c : Char} (hc : Text.endsLine c = false) (current rest : List Char) :
    Text.splitLinesFrom current (c :: rest) = Text.splitLinesFrom (c :: current) rest := by
  rw [Text.splitLinesFrom, if_neg (by simp [hc])]
  rintro _ rfl
  exact absurd hc (by decide)

theorem splitLinesFrom_line (h : ∀ c ∈ line, Text.endsLine c = false) (current rest : List Char) :
    Text.splitLinesFrom current (line ++ '\n' :: rest) =
      (current.reverse ++ line) :: Text.splitLinesFrom [] rest := by
  induction line generalizing current with
  | nil =>
    rw [List.nil_append, List.append_nil, Text.splitLinesFrom, if_pos (by decide)]
    rintro _ ⟨⟩
  | cons c line ih =>
    obtain ⟨hc, hline⟩ := List.forall_mem_cons.mp h
    rw [List.cons_append, splitLinesFrom_cons hc, ih hline]
    simp

theorem splitLinesFrom_last (h : ∀ c ∈ line, Text.endsLine c = false) (current : List Char) :
    Text.splitLinesFrom current line =
      if (current.reverse ++ line).isEmpty then [] else [current.reverse ++ line] := by
  induction line generalizing current with
  | nil => simp [Text.splitLinesFrom]
  | cons c line ih =>
    obtain ⟨hc, hline⟩ := List.forall_mem_cons.mp h
    rw [splitLinesFrom_cons hc, ih hline]
    simp

/-- The first line of a text, and what follows it. -/
theorem exists_line (s : List Char) : ∃ line more, s = line ++ more ∧ '\n' ∉ line ∧
    (more = [] ∨ ∃ rest, more = '\n' :: rest) := by
  induction s with
  | nil => exact ⟨[], [], rfl, List.not_mem_nil, .inl rfl⟩
  | cons c s ih =>
    by_cases hc : c = '\n'
    · exact ⟨[], c :: s, rfl, List.not_mem_nil, .inr ⟨s, by rw [hc]⟩⟩
    · obtain ⟨line, more, rfl, hline, hmore⟩ := ih
      refine ⟨c :: line, more, rfl, ?_, hmore⟩
      rw [List.mem_cons, not_or]
      exact ⟨fun heq => hc heq.symm, hline⟩

theorem takeWhile_line {more : List Char} (hline : '\n' ∉ line)
    (hmore : more = [] ∨ ∃ rest, more = '\n' :: rest) :
    (line ++ more).takeWhile (· ≠ '\n') = line := by
  have hall : ∀ c ∈ line, decide (c ≠ '\n') = true := by
    intro c hc
    refine decide_eq_true ?_
    rintro rfl
    exact hline hc
  rw [List.takeWhile_append_of_pos hall]
  rcases hmore with rfl | ⟨rest, rfl⟩ <;> simp

namespace Orderly

variable {text : List Char}

/-- One line: the keyword occurs in it once, in the line of a directive, or not at all. -/
theorem line_tails (h : Orderly text) {done more : List Char} (hline : '\n' ∉ line)
    (hmore : more = [] ∨ ∃ rest, more = '\n' :: rest) (htext : text = done ++ (line ++ more)) :
    ∃ here, tails (line ++ more) = here ++ tails more ∧
      here.map entry = (DefineTable.ofLine? line).toList := by
  have hbreaks : Breaks more := by
    rcases hmore with rfl | ⟨rest, rfl⟩
    · rintro _ ⟨⟩
    · rintro _ ⟨⟩
      rfl
  -- where the keyword starts in the line, the line has only blanks in front of it
  have hfind : ∀ x y, line = x ++ y → keyword <+: y ++ more →
      (∀ c ∈ x, isSpace c = true) ∧ ∃ z, y = keyword ++ z := by
    intro x y hxy hkeyword
    obtain ⟨z, rfl⟩ := (Token.prefix_append_iff isBreak_of_mem_keyword hbreaks y).mp hkeyword
    have htext' : text = done ++ (x ++ (keyword ++ (z ++ more))) := by
      rw [htext, hxy]
      simp only [List.append_assoc]
    refine ⟨h.spaces_before (fun hmem => hline ?_) htext', z, rfl⟩
    rw [hxy]
    exact List.mem_append_left _ hmem
  by_cases hkeyword : keyword <:+: line
  · obtain ⟨x, z, hxz⟩ := hkeyword
    rw [List.append_assoc] at hxz
    have hspaces := (hfind x (keyword ++ z) hxz.symm (by
      rw [List.append_assoc]
      exact List.prefix_append _ _)).1
    have htext' : text = (done ++ x) ++ (keyword ++ (z ++ more)) := by
      rw [htext, ← hxz]
      simp only [List.append_assoc]
    have hshaped := (h.at_keyword htext').2
    have hrest : tails (z ++ more) = tails more := by
      apply tails_append
      intro a b hab _ hagain
      have hline' : line = (x ++ (keyword ++ a)) ++ b := by
        rw [← hxz, hab]
        simp only [List.append_assoc]
      have hhash := (hfind _ b hline' hagain).1 '#' (by simp [keyword])
      rw [isSpace_hash] at hhash
      cases hhash
    have htails : tails (line ++ more) = (z ++ more) :: tails more := by
      have hnot : '#' ∉ x := fun hmem => absurd (hspaces '#' hmem) (by decide)
      rw [← hxz, List.append_assoc, tails_append_of_not_mem hnot, List.append_assoc, tails_keyword,
        hrest]
    have hz : (z ++ more).takeWhile (· ≠ '\n') = z := by
      apply takeWhile_line _ hmore
      intro hmem
      exact hline (hxz ▸ List.mem_append_right _ (List.mem_append_right _ hmem))
    refine ⟨[z ++ more], htails, ?_⟩
    have hentry := ofLine?_directive hspaces hshaped
    rw [hz, hxz] at hentry
    rw [hentry]
    rfl
  · refine ⟨[], ?_, ?_⟩
    · apply tails_append
      rintro x y hxy _ hagain
      obtain ⟨z, rfl⟩ := (hfind x y hxy hagain).2
      exact hkeyword ⟨x, z, by rw [hxy, List.append_assoc]⟩
    · cases hentry : DefineTable.ofLine? line with
      | none => rfl
      | some e => exact absurd (keyword_infix_of_ofLine? hentry) hkeyword

/-- **The lines of a text give its directives**, in the order of the text. -/
theorem entries_eq (h : Orderly text) :
    (Text.splitLines text).filterMap DefineTable.ofLine? = (tails text).map entry := by
  -- from the start of any line on
  have hlines : ∀ (n : Nat) (done s : List Char), s.length ≤ n → text = done ++ s →
      (Text.splitLinesFrom [] s).filterMap DefineTable.ofLine? = (tails s).map entry := by
    intro n
    induction n with
    | zero =>
      intro done s hlength _
      rw [List.eq_nil_of_length_eq_zero (Nat.le_zero.mp hlength)]
      rfl
    | succ n ih =>
      intro done s hlength htext
      obtain ⟨line, more, rfl, hline, hmore⟩ := exists_line s
      have hends : ∀ c ∈ line, Text.endsLine c = false := by
        intro c hc
        by_contra hend
        have heq := h.ends c (by simp [htext, hc]) (by simpa using hend)
        exact hline (heq ▸ hc)
      obtain ⟨here, htails, hentry⟩ := h.line_tails hline hmore htext
      rcases hmore with rfl | ⟨rest, rfl⟩
      · rw [htails, tails, List.append_nil, List.append_nil, hentry, splitLinesFrom_last hends,
          List.reverse_nil, List.nil_append]
        cases line with
        | nil => decide
        | cons c line =>
          show [c :: line].filterMap DefineTable.ofLine? = _
          rw [List.filterMap_cons]
          cases DefineTable.ofLine? (c :: line) <;> rfl
      · have hnext : tails ('\n' :: rest) = tails rest :=
          tails_append_of_not_mem (a := ['\n']) (by decide) rest
        have hrest := ih (done ++ (line ++ ['\n'])) rest (by
          rw [List.length_append, List.length_cons] at hlength
          omega) (by rw [htext]; simp)
        rw [splitLinesFrom_line hends, List.reverse_nil, List.nil_append, List.filterMap_cons,
          htails, hnext, List.map_append, hentry, ← hrest]
        cases DefineTable.ofLine? line <;> rfl
  exact hlines text.length [] text (Nat.le_refl _) rfl

end Orderly

end Directive

/-! ## The table -/

namespace DefineTable

theorem lookup_replace (table : DefineTable) (name value other : String) :
    (table.map fun entry => if entry.1 = name then (name, value) else entry).lookup other =
      if other = name then (table.lookup name).map fun _ => value else table.lookup other := by
  induction table with
  | nil => simp
  | cons entry table ih =>
    obtain ⟨key, old⟩ := entry
    rw [List.map_cons]
    by_cases hkey : key = name
    · subst hkey
      by_cases hother : other = key
      · simp [hother]
      · have hne : (other == key) = false := beq_eq_false_iff_ne.mpr hother
        simp only [if_true, List.lookup_cons, hne, ih, if_neg hother]
    · rw [if_neg hkey]
      by_cases hother : other = key
      · simp [hother, hkey]
      · have hne : (other == key) = false := beq_eq_false_iff_ne.mpr hother
        have hne' : (name == key) = false := beq_eq_false_iff_ne.mpr fun heq => hkey heq.symm
        simp only [List.lookup_cons, hne, hne', ih]

theorem lookup_put (table : DefineTable) (name value other : String) :
    (table.put name value).lookup other = if other = name then some value else table.lookup other := by
  unfold put
  split
  · next hsome =>
    obtain ⟨old, hold⟩ := Option.isSome_iff_exists.mp hsome
    rw [lookup_replace, hold]
    rfl
  · next hnone =>
    rw [List.lookup_append]
    by_cases hother : other = name
    · subst hother
      rw [Option.not_isSome_iff_eq_none.mp hnone, if_pos rfl]
      simp
    · have hne : (other == name) = false := beq_eq_false_iff_ne.mpr hother
      rw [if_neg hother]
      simp [List.lookup_cons, hne]

/-- The last of the entries for a name is found. -/
theorem lookup_foldl (entries : List (String × String)) (table : DefineTable) (name : String) :
    (entries.foldl (fun table (n, v) => table.put n v) table).lookup name =
      ((entries.filter fun e => e.1 = name).getLast?.map Prod.snd).or (table.lookup name) := by
  induction entries generalizing table with
  | nil => rfl
  | cons e entries ih =>
    rw [List.foldl_cons, ih, lookup_put, List.filter_cons]
    by_cases he : e.1 = name
    · rw [if_pos he.symm, if_pos (decide_eq_true he), List.getLast?_cons]
      cases (entries.filter fun e => e.1 = name).getLast? <;> simp
    · rw [if_neg (Ne.symm he), if_neg (by simpa using he)]

/-- **The table of a text** has the value of the last directive for a name. -/
theorem lookup_ofText {text : List Char} (h : Directive.Orderly text) (name : String) :
    (ofText text).lookup name = (((Directive.tails text).map Directive.entry).filter fun e =>
      e.1 = name).getLast?.map Prod.snd := by
  unfold ofText
  rw [h.entries_eq, lookup_foldl]
  exact Option.or_none

end DefineTable

end TapeScript
