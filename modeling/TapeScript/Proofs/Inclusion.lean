import Mathlib.Data.List.Perm.Subperm
import Mathlib.Data.Nat.Find
import TapeScript.Proofs.IncludeLines

set_option autoImplicit false

/-! # The expansion of include lines

What stands in the way of an expansion is a file met again on the way to itself, a name that is no file,
or a directive that includes nothing (`Include.Offends`). Its places are the include lines that lead to
it, and the first one comes first in the order of their numbers. A file that has none is expanded to its
lines with the expansions in them (`Include.Splices`); otherwise the first one is reported
(`Include.expand_exact`). The report of a missing file always names the file the expansion started from
(`Include.missing_files_look_alike`).
-/

namespace TapeScript

/-- All files are texts. -/
def FileSystem.IsText (fs : FileSystem) : Prop := ∀ file ∈ fs.files, (Include.fileLines file.2).2 = none

namespace Include

open Text

section Definitions

variable (fs : FileSystem)

/-- The file that a line of another file names. -/
def target (path name : String) : String :=
  Path.join (Path.parent (Path.absolute fs.cwd path)) name

/-- The path leads to a file that is not among those above it, and these are its lines. -/
def Opens (above : List (List String)) (path : String) (lines : List (List Char)) : Prop :=
  Path.normalSegments fs.cwd path ∉ above ∧
    ∃ bytes, fs.entry path = .file bytes ∧ lines = (fileLines bytes).1

/-- The files below a file. -/
def below (above : List (List String)) (path : String) : List (List String) :=
  Path.normalSegments fs.cwd path :: above

/-- A chain of include lines leads from one path to another; `above` are the files it went through. -/
inductive Reaches : List (List String) → String → List (List String) → String → Prop
  | here {above path} : Reaches above path above path
  | step {above path lines line name above' path'} : Opens fs above path lines → line ∈ lines →
      Includes line name → Reaches (below fs above path) (target fs path name) above' path' →
      Reaches above path above' path'

/-- Why what is found at a path cannot be expanded. -/
def refusal? (path : String) : Entry → Option IncludeFault
  | .file _ => none
  | .missing => some (.notFound path)
  | .directory => some .isDirectory
  | .throughFile => some .throughFile
  | .nameTooLong => some .nameTooLong
  | .impossibleName => some .impossibleName

/-- Something stands in the way of an expansion, and these are the lines that lead there. -/
inductive Offends : List (List String) → String → List (String × Nat) → IncludeFault → Prop
  | circular {above path} : Path.normalSegments fs.cwd path ∈ above →
      Offends above path [] (.circular path [])
  | unopened {above path cause} : Path.normalSegments fs.cwd path ∉ above →
      refusal? path (fs.entry path) = some cause → Offends above path [] cause
  | malformed {above path lines} {i : Nat} {line} : Opens fs above path lines → lines[i]? = some line →
      IsDirective line → (∀ name, ¬ Includes line name) →
      Offends above path [(path, i + 1)] (.badFormat path (i + 1))
  | within {above path lines} {i : Nat} {line name places cause} : Opens fs above path lines →
      lines[i]? = some line → Includes line name →
      Offends (below fs above path) (target fs path name) places cause →
      Offends above path ((path, i + 1) :: places) cause

/-- No place comes before this one, line by line. -/
def First (above : List (List String)) (path : String) (places : List (String × Nat))
    (cause : IncludeFault) : Prop :=
  Offends fs above path places cause ∧ ∀ places' cause', Offends fs above path places' cause' →
    ¬ List.Lex (· < ·) (places'.map Prod.snd) (places.map Prod.snd)

/-- What is said of an offence: the chain that closes a circle, and of a missing file only where the
expansion started from. -/
def report (start : String) (places : List (String × Nat)) : IncludeFault → IncludeFault
  | .circular path _ => .circular path places.reverse
  | .notFound _ => .notFound start
  | fault => fault

/-- What a line becomes: a directive the text of the file it names between two markers, and any other
line itself without the blanks at its end. -/
def pieces (name text : String) (line : List Char) : List String :=
  if keyword.isPrefixOf (trim line) then
    [s!"// --- Start include: {name} ---\n", text, s!"\n// --- End include: {name} ---"]
  else [String.ofList (trimRight line)]

/-- The text of a file in which the directives are replaced by the texts of the files they name. -/
inductive Splices : List (List String) → String → String → Prop
  | file {above path lines} (names texts : Nat → String) : Opens fs above path lines →
      (∀ (i : Nat) line, lines[i]? = some line → IsDirective line → Includes line (names i)) →
      (∀ (i : Nat) line, lines[i]? = some line → IsDirective line →
        Splices (below fs above path) (target fs path (names i)) (texts i)) →
      Splices above path
        (String.intercalate "\n" (lines.zipIdx.flatMap fun (line, i) => pieces (names i) (texts i) line))

end Definitions

variable {fs : FileSystem} {fuel : Nat} {above : List (List String)} {path : String}
  {lines : List (List Char)} {places : List (String × Nat)} {cause : IncludeFault}

/-! ## Offences and reachable files -/

theorem Offends.of_reaches {above' : List (List String)} {path' : String}
    (h : Reaches fs above path above' path') (ho : Offends fs above' path' places cause) :
    ∃ places cause, Offends fs above path places cause := by
  induction h with
  | here => exact ⟨_, _, ho⟩
  | step hopens hline hname _ ih =>
    obtain ⟨places, cause, ho⟩ := ih ho
    obtain ⟨i, hi⟩ := List.mem_iff_getElem?.mp hline
    exact ⟨_, _, .within hopens hi hname ho⟩

/-- The file can be opened, and all its directives include something. -/
def Sound (fs : FileSystem) (above : List (List String)) (path : String) : Prop :=
  ∃ lines, Opens fs above path lines ∧ ∀ line ∈ lines, IsDirective line → ∃ name, Includes line name

/-- There is no offence exactly if all files that are reached are sound. -/
theorem not_offends_iff : (∀ places cause, ¬ Offends fs above path places cause) ↔
    ∀ above' path', Reaches fs above path above' path' → Sound fs above' path' := by
  constructor
  · intro hnone above' path' hreaches
    have hclear : ∀ places cause, ¬ Offends fs above' path' places cause := by
      intro places cause ho
      obtain ⟨places, cause, ho⟩ := Offends.of_reaches hreaches ho
      exact hnone places cause ho
    have hnew : Path.normalSegments fs.cwd path' ∉ above' := fun hmem => hclear _ _ (.circular hmem)
    have hopens : ∃ lines, Opens fs above' path' lines := by
      cases hentry : fs.entry path' with
      | file bytes => exact ⟨_, hnew, bytes, hentry, rfl⟩
      | _ => exact absurd (.unopened hnew (by rw [hentry]; rfl)) (hclear _ _)
    obtain ⟨lines, hopens⟩ := hopens
    refine ⟨lines, hopens, fun line hline hdirective => ?_⟩
    obtain ⟨i, hi⟩ := List.mem_iff_getElem?.mp hline
    by_contra hname
    exact hclear _ _ (.malformed hopens hi hdirective (not_exists.mp hname))
  · intro hsound places cause ho
    induction ho with
    | circular hmem =>
      obtain ⟨_, hopens, -⟩ := hsound _ _ .here
      exact hopens.1 hmem
    | unopened _ hcause =>
      obtain ⟨_, ⟨-, bytes, hentry, -⟩, -⟩ := hsound _ _ .here
      rw [hentry] at hcause
      cases hcause
    | malformed hopens hi hdirective hname =>
      obtain ⟨lines, ⟨-, bytes, hentry, rfl⟩, hall⟩ := hsound _ _ .here
      obtain ⟨-, bytes', hentry', rfl⟩ := hopens
      cases hentry.symm.trans hentry'
      obtain ⟨name, h⟩ := hall _ (List.mem_of_getElem? hi) hdirective
      exact hname name h
    | within hopens hi hname _ ih =>
      exact ih fun above' path' hreaches =>
        hsound _ _ (.step hopens (List.mem_of_getElem? hi) hname hreaches)

/-! ## The order of offences -/

theorem Opens.unique {lines' : List (List Char)} (h : Opens fs above path lines)
    (h' : Opens fs above path lines') : lines = lines' := by
  obtain ⟨-, bytes, hentry, rfl⟩ := h
  obtain ⟨-, bytes', hentry', rfl⟩ := h'
  cases hentry.symm.trans hentry'
  rfl

theorem Includes.unique {line : List Char} {name name' : String} (h : Includes line name)
    (h' : Includes line name') : name = name' := by
  rw [← read_eq_includes_iff] at h h'
  cases h.symm.trans h'
  rfl

theorem not_unopened (hopens : Opens fs above path lines) :
    refusal? path (fs.entry path) ≠ some cause := by
  obtain ⟨-, bytes, hentry, -⟩ := hopens
  simp [hentry, refusal?]

/-- What stands in the way of one line of a file. -/
inductive LineOffends (fs : FileSystem) (above : List (List String)) (path : String) (i : Nat)
    (line : List Char) : List (String × Nat) → IncludeFault → Prop
  | malformed : IsDirective line → (∀ name, ¬ Includes line name) →
      LineOffends fs above path i line [] (.badFormat path (i + 1))
  | within {name places cause} : Includes line name →
      Offends fs (below fs above path) (target fs path name) places cause →
      LineOffends fs above path i line places cause

theorem LineOffends.offends {i : Nat} {line : List Char} (hopens : Opens fs above path lines)
    (hi : lines[i]? = some line) (h : LineOffends fs above path i line places cause) :
    Offends fs above path ((path, i + 1) :: places) cause := by
  cases h with
  | malformed hdirective hnone => exact .malformed hopens hi hdirective hnone
  | within hname ho => exact .within hopens hi hname ho

/-- In a file that can be opened the offences are those of its lines. -/
theorem Offends.exists_line (hopens : Opens fs above path lines)
    (h : Offends fs above path places cause) : ∃ (i : Nat) (line : List Char) (rest : _),
      lines[i]? = some line ∧ places = (path, i + 1) :: rest ∧
        LineOffends fs above path i line rest cause := by
  cases h with
  | circular hmem => exact absurd hmem hopens.1
  | unopened _ hcause => exact absurd hcause (not_unopened hopens)
  | malformed hopens' hi hdirective hnone =>
    obtain rfl := hopens'.unique hopens
    exact ⟨_, _, _, hi, rfl, .malformed hdirective hnone⟩
  | within hopens' hi hname ho =>
    obtain rfl := hopens'.unique hopens
    exact ⟨_, _, _, hi, rfl, .within hname ho⟩

/-- The numbers of the lines tell the offence. -/
theorem Offends.unique {places' : List (String × Nat)} {cause' : IncludeFault}
    (h : Offends fs above path places cause) (h' : Offends fs above path places' cause')
    (hnumbers : places.map Prod.snd = places'.map Prod.snd) : places = places' ∧ cause = cause' := by
  induction h generalizing places' with
  | circular hmem =>
    cases h' with
    | circular => exact ⟨rfl, rfl⟩
    | unopened hnew _ => exact absurd hmem hnew
    | malformed => cases hnumbers
    | within => cases hnumbers
  | unopened hnew hcause =>
    cases h' with
    | circular hmem => exact absurd hmem hnew
    | unopened _ hcause' => exact ⟨rfl, Option.some.inj (hcause.symm.trans hcause')⟩
    | malformed => cases hnumbers
    | within => cases hnumbers
  | malformed hopens hi _ hnone =>
    obtain ⟨j, line', rest, hj, rfl, hline⟩ := h'.exists_line hopens
    obtain ⟨hij, hrest⟩ := List.cons.inj hnumbers
    obtain rfl := Nat.succ.inj hij
    cases hi.symm.trans hj
    cases hline with
    | malformed => exact ⟨rfl, rfl⟩
    | within hname _ => exact absurd hname (hnone _)
  | within hopens hi hname _ ih =>
    obtain ⟨j, line', rest, hj, rfl, hline⟩ := h'.exists_line hopens
    obtain ⟨hij, hrest⟩ := List.cons.inj hnumbers
    obtain rfl := Nat.succ.inj hij
    cases hi.symm.trans hj
    cases hline with
    | malformed _ hnone => exact absurd hname (hnone _)
    | within hname' ho' =>
      obtain rfl := hname.unique hname'
      obtain ⟨rfl, rfl⟩ := ih ho' hrest
      exact ⟨rfl, rfl⟩

/-! ## One line -/

/-- The expansion of a line, given that of the files it may name. -/
def expandLine (fs : FileSystem) (path : String) (expand : String → Except IncludeFault (List String))
    (line : List Char × Nat) : Except IncludeFault (List String) :=
  match Line.read line.1 with
  | .text kept => .ok [String.ofList kept]
  | .malformed => .error (.badFormat path (line.2 + 1))
  | .includes name =>
    match expand (target fs path name) with
    | .ok inner =>
      .ok [s!"// --- Start include: {name} ---\n", String.intercalate "\n" inner,
        s!"\n// --- End include: {name} ---"]
    | .error fault => .error (fault.reachedFrom path (line.2 + 1))

theorem reachedFrom_report (start path : String) (line : Nat) :
    (report start places cause).reachedFrom path line = report path ((path, line) :: places) cause := by
  cases cause <;> simp [report, IncludeFault.reachedFrom]

/-- An expansion succeeds with the spliced text, if there is no offence, or reports the first one. -/
def Outcome (fs : FileSystem) (above : List (List String)) (path : String)
    (result : Except IncludeFault (List String)) : Prop :=
  (∃ parts, result = .ok parts ∧ Splices fs above path (String.intercalate "\n" parts) ∧
      ∀ places cause, ¬ Offends fs above path places cause) ∨
    ∃ places cause, result = .error (report path places cause) ∧ First fs above path places cause

theorem pieces_of_not_directive {line : List Char} (h : ¬ IsDirective line) (name text : String) :
    pieces name text line = [String.ofList (trimRight line)] :=
  if_neg (by rwa [List.isPrefixOf_iff_prefix])

theorem pieces_of_directive {line : List Char} (h : IsDirective line) (name text : String) :
    pieces name text line = [s!"// --- Start include: {name} ---\n", text,
      s!"\n// --- End include: {name} ---"] :=
  if_pos (List.isPrefixOf_iff_prefix.mpr h)

/-- Where there is a text there is no offence, and no other text. -/
theorem Splices.unique {text : String} (h : Splices fs above path text) :
    (∀ places cause, ¬ Offends fs above path places cause) ∧
      ∀ text', Splices fs above path text' → text' = text := by
  induction h with
  | @file above path lines names texts hopens hnames _ ih =>
    refine ⟨fun places cause ho => ?_, fun text' h' => ?_⟩
    · obtain ⟨i, line, rest, hi, -, hline⟩ := ho.exists_line hopens
      cases hline with
      | malformed hdirective hnone => exact hnone _ (hnames i line hi hdirective)
      | within hname ho =>
        obtain rfl := (hnames i line hi hname.isDirective).unique hname
        exact (ih i line hi hname.isDirective).1 _ _ ho
    · cases h' with
      | file names' texts' hopens' hnames' hsplices =>
        obtain rfl := hopens.unique hopens'
        refine congrArg (String.intercalate "\n") (List.flatMap_congr ?_)
        rintro ⟨line, i⟩ hmem
        show pieces (names' i) (texts' i) line = pieces (names i) (texts i) line
        have hi := List.mk_mem_zipIdx_iff_getElem?.mp hmem
        by_cases hdirective : IsDirective line
        · have hname := (hnames' i line hi hdirective).unique (hnames i line hi hdirective)
          have htext := hsplices i line hi hdirective
          rw [hname] at htext
          rw [hname, (ih i line hi hdirective).2 _ htext]
        · rw [pieces_of_not_directive hdirective, pieces_of_not_directive hdirective]

/-- The line is expanded, if nothing stands in its way. -/
def LineGives (fs : FileSystem) (above : List (List String)) (path : String) (i : Nat)
    (line : List Char) (result : Except IncludeFault (List String)) (name text : String) : Prop :=
  result = .ok (pieces name text line) ∧
    (IsDirective line → Includes line name ∧ Splices fs (below fs above path) (target fs path name) text) ∧
    ∀ places cause, ¬ LineOffends fs above path i line places cause

variable {inner : String → Except IncludeFault (List String)}

theorem expandLine_outcome
    (hinner : ∀ file, Outcome fs (below fs above path) file (inner file)) (line : List Char) (i : Nat) :
    (∃ name text, LineGives fs above path i line (expandLine fs path inner (line, i)) name text) ∨
    ∃ places cause, expandLine fs path inner (line, i) = .error (report path ((path, i + 1) :: places) cause) ∧
      LineOffends fs above path i line places cause ∧ ∀ places' cause',
        LineOffends fs above path i line places' cause' →
          ¬ List.Lex (· < ·) (places'.map Prod.snd) (places.map Prod.snd) := by
  unfold expandLine
  cases hread : Line.read line with
  | text kept =>
    have hnot : ¬ IsDirective line := by
      intro h
      rw [read_of_directive h] at hread
      split at hread <;> cases hread
    rw [read_of_not_directive hnot] at hread
    cases hread
    refine .inl ⟨"", "", by rw [pieces_of_not_directive hnot], fun h => absurd h hnot, ?_⟩
    rintro places cause (⟨h, -⟩ | ⟨hname, -⟩)
    · exact hnot h
    · exact hnot hname.isDirective
  | malformed =>
    obtain ⟨hdirective, hnone⟩ := read_eq_malformed_iff.mp hread
    refine .inr ⟨[], _, rfl, .malformed hdirective hnone, ?_⟩
    intro places' cause' h
    exact List.not_lex_nil
  | includes name =>
    have hname := read_eq_includes_iff.mp hread
    rcases hinner (target fs path name) with ⟨parts, hok, hsplices, hnone⟩ | ⟨places, cause, herror, hfirst⟩
    · refine .inl ⟨name, _, ?_, fun _ => ⟨hname, hsplices⟩, ?_⟩
      · simp only [hok]
        rw [pieces_of_directive hname.isDirective]
      · rintro places cause (⟨-, hnot⟩ | ⟨hname', ho⟩)
        · exact hnot name hname
        · obtain rfl := hname.unique hname'
          exact hnone _ _ ho
    · refine .inr ⟨places, cause, ?_, .within hname hfirst.1, ?_⟩
      · simp only [herror]
        rw [reachedFrom_report]
      · rintro places' cause' (⟨-, hnot⟩ | ⟨hname', ho⟩)
        · exact absurd hname (hnot name)
        · obtain rfl := hname.unique hname'
          exact hfirst.2 _ _ ho

/-! ## One file -/

section MapM

variable {α β ε : Type} {f : α → Except ε β} {l : List α}

theorem mapM_of_ok {g : α → β} (h : ∀ a ∈ l, f a = .ok (g a)) : l.mapM f = .ok (l.map g) := by
  induction l with
  | nil => rfl
  | cons a l ih =>
    obtain ⟨hfirst, hrest⟩ := List.forall_mem_cons.mp h
    rw [List.mapM_cons, hfirst, ih hrest]
    rfl

theorem mapM_of_error {i : Nat} {a : α} {e : ε} (hi : l[i]? = some a) (he : f a = .error e)
    (hbefore : ∀ j < i, ∀ b, l[j]? = some b → ∃ r, f b = .ok r) : l.mapM f = .error e := by
  induction l generalizing i with
  | nil => cases hi
  | cons b l ih =>
    rw [List.mapM_cons]
    cases i with
    | zero =>
      cases hi
      rw [he]
      rfl
    | succ i =>
      obtain ⟨r, hr⟩ := hbefore 0 (Nat.succ_pos i) b rfl
      rw [hr, ih hi fun j hj => hbefore (j + 1) (Nat.succ_lt_succ hj)]
      rfl

end MapM

theorem outcome_of_opens (hopens : Opens fs above path lines)
    (hinner : ∀ file, Outcome fs (below fs above path) file (inner file)) :
    Outcome fs above path ((lines.zipIdx.mapM (expandLine fs path inner)).map List.flatten) := by
  by_cases hall : ∀ (i : Nat) line, lines[i]? = some line → ∃ name text,
      LineGives fs above path i line (expandLine fs path inner (line, i)) name text
  · have hchosen : ∀ i : Nat, ∃ name text, ∀ line, lines[i]? = some line →
        LineGives fs above path i line (expandLine fs path inner (line, i)) name text := by
      intro i
      cases hi : lines[i]? with
      | none => exact ⟨"", "", fun line h => by cases h⟩
      | some line =>
        obtain ⟨name, text, h⟩ := hall i line hi
        exact ⟨name, text, fun line' h' => by cases h'; exact h⟩
    choose names texts hgives using hchosen
    refine .inl ⟨lines.zipIdx.flatMap fun (line, i) => pieces (names i) (texts i) line, ?_,
      .file names texts hopens (fun i line hi hd => ((hgives i line hi).2.1 hd).1)
        fun i line hi hd => ((hgives i line hi).2.1 hd).2, ?_⟩
    · rw [mapM_of_ok (g := fun (line, i) => pieces (names i) (texts i) line)]
      · rw [List.flatMap_def]
        rfl
      · rintro ⟨line, i⟩ hmem
        exact (hgives i line (List.mk_mem_zipIdx_iff_getElem?.mp hmem)).1
    · intro places cause ho
      obtain ⟨i, line, rest, hi, -, hline⟩ := ho.exists_line hopens
      exact (hgives i line hi).2.2 rest cause hline
  · -- the first line in whose way something stands
    have hbad : ∃ i : Nat, ∃ line, lines[i]? = some line ∧ ¬ ∃ name text,
        LineGives fs above path i line (expandLine fs path inner (line, i)) name text := by
      push Not at hall ⊢
      exact hall
    classical
    obtain ⟨line, hi, hnot⟩ := Nat.find_spec hbad
    have hbefore : ∀ j < Nat.find hbad, ∀ line, lines[j]? = some line → ∃ name text,
        LineGives fs above path j line (expandLine fs path inner (line, j)) name text := by
      intro j hj line hline
      by_contra h
      exact Nat.find_min hbad hj ⟨line, hline, h⟩
    rcases expandLine_outcome hinner line (Nat.find hbad) with h | ⟨places, cause, herror, ho, hleast⟩
    · exact absurd h hnot
    · refine .inr ⟨_, cause, ?_, ho.offends hopens hi, ?_⟩
      · rw [mapM_of_error (a := (line, Nat.find hbad)) (by rw [List.getElem?_zipIdx, hi]; simp) herror]
        · rfl
        · rintro j hj ⟨line', j'⟩ h
          obtain ⟨line', hline, heq⟩ := Option.map_eq_some_iff.mp (List.getElem?_zipIdx ▸ h)
          obtain ⟨name, text, hgives⟩ := hbefore j hj line' hline
          rw [Nat.zero_add] at heq
          exact ⟨_, heq ▸ hgives.1⟩
      · intro places' cause' ho'
        obtain ⟨j, line', rest, hj, rfl, hline⟩ := ho'.exists_line hopens
        rw [List.map_cons, List.map_cons, List.cons_lex_cons_iff]
        rintro (hlt | ⟨heq, hless⟩)
        · obtain ⟨_, _, hgives⟩ := hbefore j (Nat.lt_of_succ_lt_succ hlt) line' hj
          exact hgives.2.2 _ _ hline
        · cases Nat.succ.inj heq
          cases hi.symm.trans hj
          exact hleast _ _ hline hless

/-! ## All files -/

/-- The files above are different files, and the fuel is enough for all others. -/
structure Fueled (fs : FileSystem) (fuel : Nat) (above : List (List String)) : Prop where
  mem_files : ∀ segs ∈ above, segs ∈ fs.files.map Prod.fst
  nodup : above.Nodup
  lt : fs.files.length < fuel + above.length

theorem Fueled.pos (h : Fueled fs fuel above) : 0 < fuel := by
  have hle := (List.subperm_of_subset h.nodup h.mem_files).length_le
  have hlt := h.lt
  rw [List.length_map] at hle
  omega

theorem mem_files_of_entry {bytes : List UInt8} (h : fs.entry path = .file bytes) :
    (Path.normalSegments fs.cwd path, bytes) ∈ fs.files := by
  unfold FileSystem.entry FileSystem.find at h
  split at h
  · cases h
  · split at h
    · next bytes' hlookup =>
      cases h
      obtain ⟨before, after, hfiles, -⟩ := List.lookup_eq_some_iff.mp hlookup
      simp [hfiles]
    · split_ifs at h

theorem Fueled.below (h : Fueled fs (fuel + 1) above) (hopens : Opens fs above path lines) :
    Fueled fs fuel (below fs above path) := by
  obtain ⟨hnew, bytes, hentry, -⟩ := hopens
  refine ⟨?_, List.nodup_cons.mpr ⟨hnew, h.nodup⟩, ?_⟩
  · rintro segs (_ | ⟨_, hmem⟩)
    · exact List.mem_map.mpr ⟨_, mem_files_of_entry hentry, rfl⟩
    · exact h.mem_files segs hmem
  · have := h.lt
    simp only [Include.below, List.length_cons]
    omega

theorem expandFile_of_opens (htext : fs.IsText) (hopens : Opens fs above path lines) :
    expandFile fs (fuel + 1) above path = (lines.zipIdx.mapM
      (expandLine fs path (expandFile fs fuel (below fs above path)))).map List.flatten := by
  obtain ⟨hnew, bytes, hentry, rfl⟩ := hopens
  obtain ⟨lines, hlines⟩ : ∃ lines, fileLines bytes = (lines, none) :=
    ⟨_, Prod.ext rfl (htext _ (mem_files_of_entry hentry))⟩
  have hfind : fs.find (Path.normalSegments fs.cwd path) = .file bytes := hentry
  rw [expandFile]
  simp only [hnew, if_false, hfind, hlines]
  show (List.mapM (expandLine fs path (expandFile fs fuel (below fs above path))) _ >>= _) = _
  cases List.mapM (expandLine fs path (expandFile fs fuel (below fs above path))) lines.zipIdx <;> rfl

theorem expandFile_outcome (htext : fs.IsText) (h : Fueled fs fuel above) (path : String) :
    Outcome fs above path (expandFile fs fuel above path) := by
  induction fuel generalizing above path with
  | zero => exact absurd h.pos (Nat.lt_irrefl 0)
  | succ fuel ih =>
    by_cases hmem : Path.normalSegments fs.cwd path ∈ above
    · refine .inr ⟨[], .circular path [], ?_, .circular hmem, fun _ _ _ => List.not_lex_nil⟩
      simp only [expandFile, hmem, if_true]
      rfl
    · cases hentry : fs.entry path with
      | file bytes =>
        have hopens : Opens fs above path (fileLines bytes).1 := ⟨hmem, bytes, hentry, rfl⟩
        rw [expandFile_of_opens htext hopens]
        exact outcome_of_opens hopens (ih (h.below hopens))
      | _ =>
        have hfind := hentry
        unfold FileSystem.entry at hfind
        refine .inr ⟨[], _, ?_, .unopened hmem (by rw [hentry]; rfl), fun _ _ _ => List.not_lex_nil⟩
        simp only [expandFile, hmem, if_false, hfind]
        rfl

theorem expand_outcome (htext : fs.IsText) (main : String) :
    (∃ text, expand fs main = .ok text ∧ Splices fs [] main text ∧
        ∀ places cause, ¬ Offends fs [] main places cause) ∨
      ∃ places cause, expand fs main = .error (report main places cause) ∧
        First fs [] main places cause := by
  have hfueled : Fueled fs (fs.files.length + 1) [] := ⟨by simp, List.nodup_nil, by simp⟩
  unfold expand
  rcases expandFile_outcome htext hfueled main with ⟨parts, hok, h⟩ | ⟨places, cause, herror, h⟩
  · exact .inl ⟨_, by rw [hok]; rfl, h⟩
  · exact .inr ⟨places, cause, by rw [herror]; rfl, h⟩

theorem expand_eq_error_iff (htext : fs.IsText) (main : String) (fault : IncludeFault) :
    expand fs main = .error fault ↔
      ∃ places cause, First fs [] main places cause ∧ fault = report main places cause := by
  constructor
  · intro h
    rcases expand_outcome htext main with ⟨text, hok, -⟩ | ⟨places, cause, herror, hfirst⟩
    · cases hok.symm.trans h
    · exact ⟨places, cause, hfirst, Except.error.inj (h.symm.trans herror)⟩
  · rintro ⟨places, cause, hfirst, rfl⟩
    rcases expand_outcome htext main with ⟨text, -, -, hnone⟩ | ⟨places', cause', herror, hfirst'⟩
    · exact absurd hfirst.1 (hnone _ _)
    · obtain ⟨rfl, rfl⟩ := hfirst.1.unique hfirst'.1
        (List.le_antisymm (hfirst.2 _ _ hfirst'.1) (hfirst'.2 _ _ hfirst.1))
      exact herror

/-- **Expansion is exact.** If all files are texts, the expansion of a file gives a text exactly if every
path that a chain of include lines leads to is a file that the chain has not been through, and all
directives of these files include something; and the text is then the recursive splice. Otherwise the
offence that comes first, line by line, is reported: a circle, a directive that includes nothing, or a
path at which there is no file. A directive includes the name it holds between quotes, and, with a single
quote in place of both, the empty name. -/
theorem expand_exact (htext : fs.IsText) (main : String) :
    ((∃ text, expand fs main = .ok text) ↔
      ∀ above path, Reaches fs [] main above path → Sound fs above path) ∧
    (∀ text, expand fs main = .ok text ↔ Splices fs [] main text) ∧
    ∀ fault, expand fs main = .error fault ↔
      ∃ places cause, First fs [] main places cause ∧ fault = report main places cause := by
  refine ⟨?_, fun text => ?_, expand_eq_error_iff htext main⟩
  · rw [← not_offends_iff]
    rcases expand_outcome htext main with ⟨text, hok, -, hnone⟩ | ⟨places, cause, herror, hfirst⟩
    · exact iff_of_true ⟨text, hok⟩ hnone
    · refine iff_of_false ?_ fun hnone => hnone _ _ hfirst.1
      rintro ⟨text, hok⟩
      cases hok.symm.trans herror
  · rcases expand_outcome htext main with ⟨text', hok, hsplices, -⟩ | ⟨_, _, herror, hfirst⟩
    · rw [hok, Except.ok.injEq]
      refine ⟨fun heq => heq ▸ hsplices, fun h => h.unique.2 _ hsplices⟩
    · refine iff_of_false ?_ fun h => h.unique.1 _ _ hfirst.1
      rw [herror]
      rintro ⟨⟩

/-- A file in the topmost directory. -/
def topFile (name text : String) : List String × List UInt8 :=
  ([name], text.toList.map fun c => UInt8.ofNat c.toNat)

/-- A file that includes a second one, which includes a third. -/
def nested (third : String) : FileSystem :=
  ⟨"/", [topFile "m" "#include \"a\";", topFile "a" ("#include \"" ++ third ++ "\";")]⟩

theorem expand_nested : ((nested "m").IsText ∧
      expand (nested "m") "m" = .error (.circular "/m" [("/a", 1), ("m", 1)])) ∧
    (nested "x").IsText ∧ expand (nested "x") "m" = .error (.notFound "m") := by
  unfold FileSystem.IsText nested
  simp only [List.forall_mem_cons, List.not_mem_nil, IsEmpty.forall_iff, implies_true]
  refine ⟨⟨?_, ?_⟩, ?_, ?_⟩ <;> decide +kernel

/-- Two files that include each other. -/
theorem expand_exact_circle : (nested "m").IsText ∧ ∃ places cause,
    First (nested "m") [] "m" places cause ∧
      IncludeFault.circular "/m" [("/a", 1), ("m", 1)] = report "m" places cause := by
  obtain ⟨⟨htext, hcircle⟩, -⟩ := expand_nested
  obtain ⟨-, -, herror⟩ := expand_exact htext "m"
  exact ⟨htext, (herror _).mp hcircle⟩

/-- A directive with a single quote is not well formed, but what is reported is not its form: the empty
name is that of the directory. -/
theorem lone_quote_opens_directory : IsDirective "#include \";".toList ∧
    (∀ name, ¬ WellFormed "#include \";".toList name) ∧
    expand ⟨"/", [topFile "m" "#include \";"]⟩ "m" = .error .isDirectory := by
  have hquotes : "#include \";".toList.count '"' = 1 ∧
      keyword.isPrefixOf (trim "#include \";".toList) = true ∧
      expand ⟨"/", [topFile "m" "#include \";"]⟩ "m" = .error .isDirectory := by decide +kernel
  refine ⟨List.isPrefixOf_iff_prefix.mp hquotes.2.1, fun name h => ?_, hquotes.2.2⟩
  obtain ⟨indent, word, gap, space, tail, hline, -⟩ := h
  have htwo := hquotes.1
  rw [hline] at htwo
  simp only [List.count_append, List.count_cons_self] at htwo
  omega

/-- **Missing files are not told apart.** Wherever the file is that is missing, if it is the first
offence, what is reported is that the main file is: the same as if it were the main file, and without the
name, the file and the line. -/
theorem missing_files_look_alike (htext : fs.IsText) {main missing : String}
    (h : First fs [] main places (.notFound missing)) :
    expand fs main = .error (.notFound main) ∧
    (IncludeFault.notFound main).message = some s!"Main file not found: {main}" ∧
    ∀ fs' : FileSystem, fs'.IsText → fs'.entry main = .missing → expand fs' main = expand fs main := by
  have hfault := (expand_eq_error_iff htext main _).mpr ⟨places, _, h, rfl⟩
  refine ⟨hfault, rfl, fun fs' htext' hmissing => hfault.symm ▸ ?_⟩
  refine (expand_eq_error_iff htext' main _).mpr ⟨[], .notFound main, ⟨?_, ?_⟩, rfl⟩
  · exact .unopened List.not_mem_nil (by rw [hmissing]; rfl)
  · exact fun _ _ _ => List.not_lex_nil

/-- The file that is missing is named by an included file. -/
theorem missing_files_look_alike_nested : (nested "x").IsText ∧ ∃ places missing,
    First (nested "x") [] "m" places (.notFound missing) ∧
      expand (nested "x") "m" = .error (.notFound "m") := by
  obtain ⟨-, htext, hmissing⟩ := expand_nested
  obtain ⟨places, cause, hfirst, hcause⟩ := (expand_eq_error_iff htext "m" _).mp hmissing
  cases cause with
  | notFound missing => exact ⟨htext, places, missing, hfirst, (missing_files_look_alike htext hfirst).1⟩
  | _ => cases hcause

/-- The main file is there, and the file that its first line names is not; but it is the main file that
is said to be missing. -/
theorem missing_include_blames_main : ∃ fs : FileSystem, fs.IsText ∧
    First fs [] "m" [("m", 1)] (.notFound "/x") ∧ expand fs "m" = .error (.notFound "m") ∧
      (IncludeFault.notFound "m").message = some "Main file not found: m" := by
  let fs : FileSystem := ⟨"/", [topFile "m" "#include \"x\";"]⟩
  have hentry : fs.entry "m" = .file ("#include \"x\";".toList.map fun c => UInt8.ofNat c.toNat) := by
    decide +kernel
  have hlines : fileLines ("#include \"x\";".toList.map fun c => UInt8.ofNat c.toNat)
      = (["#include \"x\";".toList], none) := by decide +kernel
  have hread : Line.read "#include \"x\";".toList = .includes "x" := by decide +kernel
  have htarget : target fs "m" "x" = "/x" ∧ Path.normalSegments "/" "/x" = ["x"] ∧
      Path.normalSegments "/" "m" = ["m"] ∧ fs.entry "/x" = .missing := by decide +kernel
  have htext : fs.IsText := by
    intro file hfile
    cases List.mem_singleton.mp hfile
    exact congrArg Prod.snd hlines
  have hopens : Opens fs [] "m" ["#include \"x\";".toList] :=
    ⟨List.not_mem_nil, _, hentry, by rw [hlines]⟩
  have hfirst : First fs [] "m" [("m", 1)] (.notFound "/x") := by
    refine ⟨.within (i := 0) hopens rfl (read_eq_includes_iff.mp hread) ?_, fun places cause h => ?_⟩
    · rw [htarget.1]
      refine .unopened ?_ (by rw [htarget.2.2.2]; rfl)
      show Path.normalSegments "/" "/x" ∉ [Path.normalSegments "/" "m"]
      rw [htarget.2.1, htarget.2.2.1]
      decide
    · obtain ⟨i, line, rest, -, rfl, -⟩ := h.exists_line hopens
      rw [List.map_cons, List.map_cons, List.cons_lex_cons_iff]
      rintro (hlt | ⟨-, hless⟩)
      · exact Nat.not_lt_zero i (Nat.lt_of_succ_lt_succ hlt)
      · exact List.not_lex_nil hless
  exact ⟨fs, htext, hfirst, (expand_eq_error_iff htext "m" _).mpr ⟨_, _, hfirst, rfl⟩, rfl⟩

end Include

end TapeScript
