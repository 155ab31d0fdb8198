import TapeScript.Proofs.DefineLines
import TapeScript.Source.Include

set_option autoImplicit false

/-! # The form of include lines

An include line consists of a word that begins with the keyword, blanks, a name in double quotes, maybe
blanks, and a semicolon (`Include.WellFormed`). Lines are read by this form, with one exception: a single
double quote in the place of the quoted name is both its first and its last character, and such a line
(`Include.LoneQuote`) is read as one that includes the empty name (`Include.read_eq_includes_iff`).
-/

namespace TapeScript

namespace Text

/-- Only blanks. -/
def AllBlank (s : List Char) : Prop := ∀ c ∈ s, isBlank c = true

theorem AllBlank.append {s t : List Char} (hs : AllBlank s) (ht : AllBlank t) : AllBlank (s ++ t) := by
  intro c hc
  rcases List.mem_append.mp hc with hc | hc
  · exact hs c hc
  · exact ht c hc

/-- What a text is without the blanks around it. -/
theorem exists_trim (s : List Char) :
    ∃ before after, s = before ++ (trim s ++ after) ∧ AllBlank before ∧ AllBlank after := by
  obtain ⟨after, hafter, hblank⟩ := exists_trimRight_append (trimLeft s)
  refine ⟨s.takeWhile isBlank, after, ?_, fun c hc => List.mem_takeWhile_imp hc, hblank⟩
  rw [trim, ← hafter, trimLeft, List.takeWhile_append_dropWhile]

theorem trim_append {before s after : List Char} (hbefore : AllBlank before) (hafter : AllBlank after)
    (hhead : ∃ c ∈ s.head?, isBlank c = false) (hlast : ∃ c ∈ s.getLast?, isBlank c = false) :
    trim (before ++ (s ++ after)) = s := by
  obtain ⟨c, hc, hcblank⟩ := hhead
  obtain ⟨d, hd, hdblank⟩ := hlast
  obtain ⟨rest, rfl⟩ := List.head?_eq_some_iff.mp hc
  have hleft : trimLeft (before ++ (c :: rest ++ after)) = c :: rest ++ after :=
    Directive.trimLeft_append hbefore (by simpa using hcblank)
  obtain ⟨begun, hbegun⟩ := List.getLast?_eq_some_iff.mp hd
  rw [trim, hleft, hbegun, List.append_assoc, Directive.trimRight_append ⟨d, by simp, hdblank⟩]
  -- behind the last character there are only blanks
  have htail : trimRight ([d] ++ after) = [d] := by
    unfold trimRight
    rw [List.reverse_append, List.dropWhile_append_of_pos fun x hx => hafter x (List.mem_reverse.mp hx)]
    simp [hdblank]
  rw [htail]

/-- Two words are separated by blanks. -/
theorem exists_of_wordsAtMost_one {s word rest : List Char} (h : wordsAtMost 1 s = [word, rest]) :
    ∃ lead gap, s = lead ++ (word ++ (gap ++ rest)) ∧ AllBlank lead ∧
      (∀ c ∈ word, isBlank c = false) ∧ gap ≠ [] ∧ AllBlank gap := by
  rw [wordsAtMost] at h
  split at h
  · cases h
  · obtain ⟨rfl, hlast⟩ := List.cons.inj h
    rw [wordsAtMost] at hlast
    split at hlast
    · cases hlast
    · next hne =>
      obtain ⟨hrest, -⟩ := List.cons.inj hlast
      have hsplit : (trimLeft s).dropWhile (!isBlank ·) =
          ((trimLeft s).dropWhile (!isBlank ·)).takeWhile isBlank ++ rest := by
        rw [← hrest]
        exact List.takeWhile_append_dropWhile.symm
      refine ⟨s.takeWhile isBlank, ((trimLeft s).dropWhile (!isBlank ·)).takeWhile isBlank, ?_,
        fun c hc => List.mem_takeWhile_imp hc, fun c hc => ?_, fun hnil => ?_,
        fun c hc => List.mem_takeWhile_imp hc⟩
      · rw [← hsplit, List.takeWhile_append_dropWhile, trimLeft, List.takeWhile_append_dropWhile]
      · simpa using List.mem_takeWhile_imp hc
      -- the word ends at a blank
      · rw [hnil, List.nil_append] at hsplit
        cases hfirst : rest with
        | nil => exact hne (hrest.trans hfirst)
        | cons c cs =>
            have hstop := List.head?_dropWhile_not (!isBlank ·) (trimLeft s)
            have hkept := List.head?_dropWhile_not isBlank ((trimLeft s).dropWhile (!isBlank ·))
            rw [hsplit, hfirst] at hstop
            rw [show List.dropWhile isBlank _ = rest from hrest, hfirst] at hkept
            simp_all

end Text

namespace Include

open Text

/-- What a directive starts with. -/
def keyword : List Char := "#include".toList

/-- The line is to be read as a directive. -/
def IsDirective (line : List Char) : Prop := keyword <+: trim line

/-- A word that begins with the keyword, blanks, a body, maybe blanks, and a semicolon, with any blanks
around them. -/
def Shaped (line body : List Char) : Prop :=
  ∃ indent word gap space tail, line = indent ++ (word ++ (gap ++ (body ++ (space ++ [';']))) ++ tail) ∧
    AllBlank indent ∧ keyword <+: word ∧ (∀ c ∈ word, isBlank c = false) ∧ gap ≠ [] ∧ AllBlank gap ∧
    AllBlank space ∧ AllBlank tail

/-- The line includes a name. -/
def WellFormed (line : List Char) (name : String) : Prop :=
  Shaped line ('"' :: (name.toList ++ ['"']))

/-- In the place of the quoted name there is a single quote. -/
def LoneQuote (line : List Char) : Prop := Shaped line ['"']

/-- What the line includes: the name it holds, and the empty one for a single quote. -/
def Includes (line : List Char) (name : String) : Prop :=
  WellFormed line name ∨ (LoneQuote line ∧ name = "")

variable {line body : List Char} {name : String}

theorem startsWith_iff : startsWith (trim line) "#include".toList = true ↔ IsDirective line :=
  List.isPrefixOf_iff_prefix

theorem exists_keyword_cons {word : List Char} (h : keyword <+: word) : ∃ rest, word = '#' :: rest := by
  obtain ⟨rest, rfl⟩ := h
  exact ⟨_, rfl⟩

/-- What is left of a shaped line without the blanks around it. -/
theorem Shaped.exists_trim (h : Shaped line body) :
    ∃ word gap space, trim line = word ++ (gap ++ (body ++ (space ++ [';']))) ∧ keyword <+: word ∧
      (∀ c ∈ word, isBlank c = false) ∧ gap ≠ [] ∧ AllBlank gap ∧ AllBlank space := by
  obtain ⟨indent, word, gap, space, tail, rfl, hindent, hkeyword, hword, hne, hgap, hspace, htail⟩ := h
  refine ⟨word, gap, space, ?_, hkeyword, hword, hne, hgap, hspace⟩
  obtain ⟨rest, rfl⟩ := exists_keyword_cons hkeyword
  refine trim_append hindent htail ⟨'#', rfl, by decide⟩ ⟨';', ?_, by decide⟩
  simp only [← List.append_assoc]
  exact List.getLast?_concat

theorem Shaped.isDirective (h : Shaped line body) : IsDirective line := by
  obtain ⟨word, gap, space, htrim, hkeyword, -⟩ := h.exists_trim
  rw [IsDirective, htrim]
  exact hkeyword.trans (List.prefix_append _ _)

/-- The name in a line is what stands between the first and the last character of the body, if both
are quotes. -/
theorem nameIn?_of_shaped (h : Shaped line body) (hhead : body.head? = some '"')
    (hlast : body.getLast? = some '"') :
    nameIn? (trim line) = some (String.ofList (body.drop 1).dropLast) := by
  obtain ⟨word, gap, space, htrim, hkeyword, hword, hne, hgap, hspace⟩ := h.exists_trim
  obtain ⟨rest, rfl⟩ := List.head?_eq_some_iff.mp hhead
  obtain ⟨letters, hletters⟩ := exists_keyword_cons hkeyword
  have hgaphead : ∀ c ∈ (gap ++ ('"' :: rest ++ (space ++ [';']))).head?, isBlank c = true := by
    obtain ⟨d, ds, rfl⟩ := List.exists_cons_of_ne_nil hne
    intro c hc
    obtain rfl : d = c := Option.some.inj hc
    exact hgap d (by simp)
  have hwords : wordsAtMost 1 (trim line) = [word, '"' :: rest ++ (space ++ [';'])] := by
    rw [htrim, ← List.nil_append (word ++ _), Directive.wordsAtMost_word 0 (by simp) (by simp [hletters])
      hword hgaphead, Directive.wordsAtMost_last hgap (by simp) (by simp; decide)]
  have hbody : trim ('"' :: rest ++ space) = '"' :: rest := by
    have hnone : AllBlank [] := by simp [AllBlank]
    exact trim_append hnone hspace ⟨'"', rfl, by decide⟩ ⟨'"', hlast, by decide⟩
  have hsemicolon : ('"' :: rest ++ (space ++ [';'])).getLast? = some ';' := by
    rw [← List.append_assoc]
    exact List.getLast?_concat
  have hdrop : ('"' :: rest ++ (space ++ [';'])).dropLast = '"' :: rest ++ space := by
    rw [← List.append_assoc]
    exact List.dropLast_concat
  unfold nameIn?
  rw [hwords]
  dsimp only
  rw [if_pos hsemicolon, hdrop, hbody, if_pos ⟨rfl, hlast⟩]

/-- The keyword is part of the first word. -/
theorem keyword_prefix_word {word gap rest : List Char} (hne : gap ≠ []) (hgap : AllBlank gap)
    (h : keyword <+: word ++ (gap ++ rest)) : keyword <+: word := by
  rcases List.prefix_or_prefix_of_prefix h (List.prefix_append word _) with hkeyword | hword
  · exact hkeyword
  -- a longer keyword would reach into the blanks
  · obtain ⟨more, hmore⟩ := hword
    cases more with
    | nil =>
        rw [List.append_nil] at hmore
        rw [hmore]
    | cons c more =>
        rw [← hmore, List.prefix_append_right_inj] at h
        obtain ⟨d, ds, rfl⟩ := List.exists_cons_of_ne_nil hne
        obtain ⟨rfl, -⟩ := List.cons_prefix_cons.mp h
        have hblank : isBlank c = true := hgap c (by simp)
        have hmem : c ∈ keyword := by simp [← hmore]
        have hnone : (keyword.all fun c => !isBlank c) = true := by decide
        simpa [hblank] using List.all_eq_true.mp hnone c hmem

/-- Where a name is read, the line is shaped, with quotes at both ends of its body. -/
theorem exists_shaped_of_nameIn? (hdirective : IsDirective line) (h : nameIn? (trim line) = some name) :
    ∃ body, Shaped line body ∧ body.head? = some '"' ∧ body.getLast? = some '"' ∧
      name = String.ofList (body.drop 1).dropLast := by
  obtain ⟨indent, tail, hline, hindent, htail⟩ := Text.exists_trim line
  unfold nameIn? at h
  split at h
  · next word rest hwords =>
    split at h
    · next hsemicolon =>
      dsimp only at h
      split at h
      · next hquotes =>
        obtain ⟨lead, gap, hsplit, hlead, hword, hne, hgap⟩ := exists_of_wordsAtMost_one hwords
        obtain ⟨begun, rfl⟩ := List.getLast?_eq_some_iff.mp hsemicolon
        rw [List.dropLast_concat] at h hquotes
        obtain ⟨space1, space2, hbegun, hspace1, hspace2⟩ := Text.exists_trim begun
        -- the line has been stripped, so that nothing stands before its first word
        obtain rfl : lead = [] := by
          obtain ⟨letters, hletters⟩ := exists_keyword_cons hdirective
          cases lead with
          | nil => rfl
          | cons c lead =>
              obtain ⟨rfl, -⟩ := List.cons.inj (hletters.symm.trans hsplit)
              exact absurd (hlead '#' (by simp)) (by decide)
        rw [List.nil_append] at hsplit
        have hkeyword : keyword <+: word := by
          rw [IsDirective, hsplit] at hdirective
          exact keyword_prefix_word hne hgap hdirective
        refine ⟨trim begun, ⟨indent, word, gap ++ space1, space2, tail, ?_, hindent, hkeyword, hword,
          by simp [hne], hgap.append hspace1, hspace2, htail⟩, hquotes.1, hquotes.2,
          (Option.some.inj h).symm⟩
        calc line = indent ++ (word ++ (gap ++ (begun ++ [';'])) ++ tail) := by rw [← hsplit, ← hline]
          _ = indent ++ (word ++ (gap ++ (space1 ++ (trim begun ++ space2) ++ [';'])) ++ tail) := by
              rw [← hbegun]
          _ = _ := by simp only [List.append_assoc]
      · cases h
    · cases h
  · cases h

/-- Between quotes there is a name, unless they are one and the same. -/
theorem quoted_cases {body : List Char} (hhead : body.head? = some '"')
    (hlast : body.getLast? = some '"') :
    body = ['"'] ∨ ∃ inside, body = '"' :: (inside ++ ['"']) := by
  obtain ⟨rest, rfl⟩ := List.head?_eq_some_iff.mp hhead
  rcases List.eq_nil_or_concat rest with rfl | ⟨inside, c, rfl⟩
  · exact .inl rfl
  · refine .inr ⟨inside, ?_⟩
    rw [List.concat_eq_append, ← List.cons_append, List.getLast?_concat] at hlast
    rw [List.concat_eq_append, Option.some.inj hlast]

/-! ## How lines are read -/

theorem nameIn?_eq_some_iff (hdirective : IsDirective line) :
    nameIn? (trim line) = some name ↔ Includes line name := by
  constructor
  · intro h
    obtain ⟨body, hshaped, hhead, hlast, hname⟩ := exists_shaped_of_nameIn? hdirective h
    rcases quoted_cases hhead hlast with rfl | ⟨inside, rfl⟩
    · exact .inr ⟨hshaped, hname⟩
    · refine .inl ?_
      rw [List.drop_one, List.tail_cons, List.dropLast_concat] at hname
      rwa [WellFormed, hname, String.toList_ofList]
  · rintro (hformed | ⟨hlone, rfl⟩)
    · rw [nameIn?_of_shaped hformed rfl (by rw [← List.cons_append, List.getLast?_concat]),
        List.drop_one, List.tail_cons, List.dropLast_concat, String.ofList_toList]
    · exact nameIn?_of_shaped hlone rfl rfl

theorem read_of_not_directive (h : ¬ IsDirective line) : Line.read line = .text (trimRight line) := by
  unfold Line.read
  rw [← startsWith_iff] at h
  simp only [h]
  rfl

theorem read_of_directive (h : IsDirective line) : Line.read line =
    match nameIn? (trim line) with
    | some name => .includes name
    | none => .malformed :=
  if_pos (startsWith_iff.mpr h)

theorem Includes.isDirective (h : Includes line name) : IsDirective line := by
  rcases h with hformed | ⟨hlone, -⟩
  · exact hformed.isDirective
  · exact hlone.isDirective

theorem read_eq_includes_iff : Line.read line = .includes name ↔ Includes line name := by
  by_cases h : IsDirective line
  · rw [read_of_directive h, ← nameIn?_eq_some_iff h]
    cases nameIn? (trim line) <;> simp
  · rw [read_of_not_directive h]
    exact iff_of_false (by simp) fun hincludes => h hincludes.isDirective

theorem read_eq_malformed_iff :
    Line.read line = .malformed ↔ IsDirective line ∧ ∀ name, ¬ Includes line name := by
  by_cases h : IsDirective line
  · simp only [read_of_directive h, ← nameIn?_eq_some_iff h, h, true_and]
    cases nameIn? (trim line) <;> simp
  · rw [read_of_not_directive h]
    exact iff_of_false (by simp) fun hmalformed => h hmalformed.1

end Include

end TapeScript
