import TapeScript.Proofs.StmtParsing
import TapeScript.Proofs.TreeNames

set_option autoImplicit false

/-! # Parsing written items

The items of a text are directives, functions and statements. Each is read back from the way it is written
(`Parser.ItemReads`), if what follows is an item again and, behind a define directive, does not continue its
value (`Apart`). So are all items of a text (`Source.parse_items`).
-/

namespace TapeScript

variable {xs : List Lexeme}

/-! ## Writing items -/

/-- Parameters behind the first, each behind a comma. Their types are not kept. -/
inductive ParametersWritten : List Token → List Lexeme → Prop where
  | nil : ParametersWritten [] []
  | cons {k : Terminal} (hk : k ∈ [Terminal.sizeT, .stack]) (p : Token) {ps : List Token}
      {xs : List Lexeme} (hps : ParametersWritten ps xs) :
      ParametersWritten (p :: ps) (Terminal.comma.lexeme :: k.lexeme :: p.lexeme :: xs)

/-- What stands in the parentheses of a function. -/
inductive SignatureWritten : List Token → List Lexeme → Prop where
  | nil : SignatureWritten [] []
  | cons {k : Terminal} (hk : k ∈ [Terminal.sizeT, .stack]) (p : Token) {ps : List Token}
      {xs : List Lexeme} (hps : ParametersWritten ps xs) :
      SignatureWritten (p :: ps) (k.lexeme :: p.lexeme :: xs)

open Terminal in
/-- The lexemes that an item can be written as. -/
inductive Item.Written : Item → List Lexeme → Prop where
  | includes (file : Token) : Written (.includes file) [includeWord.lexeme, file.lexeme]
  | define (name : Token) {e : Expr} {xs : List Lexeme} (he : e.Written xs) :
      Written (.define name e) (defineWord.lexeme :: name.lexeme :: xs)
  | function (name : Token) {params : List Token} {body : List Stmt} {xs ys : List Lexeme}
      (hparams : SignatureWritten params xs) (hbody : Clause.Written (.stmts body) ys) :
      Written (.function name params body) (void.lexeme :: name.lexeme :: parenOpen.lexeme ::
        (xs ++ parenClose.lexeme :: braceOpen.lexeme :: (ys ++ [braceClose.lexeme])))
  | stmt {s : Stmt} {xs : List Lexeme} (hs : Clause.Written (.stmt s) xs) : Written (.stmt s) xs

/-- A text in double quotes. -/
structure Token.IsString (t : Token) : Prop where
  terminal_eq : t.terminal = .string
  text_eq : ∃ body, '"' ∉ body ∧ t.text.toList = '"' :: (body ++ ['"'])

def Item.Proper : Item → Prop
  | .includes file => file.IsString
  | .define name e => name.IsName ∧ e.Proper
  | .function name params body => name.IsNewName ∧ (∀ p ∈ params, p.IsName) ∧ ProperStmts body
  | .stmt s => s.Proper

/-- If the first sequence is a define directive, the second does not start with a sign, nor with a
parenthesis where the directive ends in a name. -/
def Apart (d e : List Lexeme) : Prop :=
  d.head?.map Lexeme.terminal = some .defineWord → ∀ x ∈ e.head?,
    x.terminal ∉ [Terminal.positive, .negative] ∧ (x.terminal = .parenOpen → ¬ Parser.EndsNamed d)

/-! ## The names of an item -/

theorem names_parameters (ps : List Token) :
    namesOfAll (ps.map fun p => .node "parameter" [.leaf p]) = Lexeme.names (ps.map Token.lexeme) := by
  induction ps with
  | nil => simp
  | cons p ps ih =>
    rw [List.map_cons, List.map_cons, namesOfAll_cons, ih, Lexeme.names_cons p.lexeme (ps.map _)]
    simp

theorem names_parameter {k : Terminal} (hk : k ∈ [Terminal.sizeT, .stack]) (p : Token) :
    Lexeme.names (k.lexeme :: p.lexeme :: xs) = Lexeme.names [p.lexeme] ++ Lexeme.names xs := by
  have hplain : ∀ k ∈ [Terminal.sizeT, .stack], k.isName = false := by decide
  rw [Lexeme.names_fixed_cons (hplain k hk), Lexeme.names_cons]

theorem ParametersWritten.names_eq {ps : List Token} (h : ParametersWritten ps xs) :
    Lexeme.names xs = Lexeme.names (ps.map Token.lexeme) := by
  induction h with
  | nil => rfl
  | @cons k hk p ps xs _ ih =>
    rw [Lexeme.names_fixed_cons rfl, names_parameter hk, ih, List.map_cons, ← Lexeme.names_cons]

theorem SignatureWritten.names_eq {ps : List Token} (h : SignatureWritten ps xs) :
    Lexeme.names xs = Lexeme.names (ps.map Token.lexeme) := by
  cases h with
  | nil => rfl
  | @cons k hk p ps xs hps =>
    rw [names_parameter hk, hps.names_eq, List.map_cons, ← Lexeme.names_cons]

theorem Item.Written.names_eq {i : Item} (h : i.Written xs) : Lexeme.names xs = i.tree.names := by
  cases h with
  | includes file =>
    rw [Lexeme.names_fixed_cons rfl]
    simp [Item.tree]
  | define name he =>
    rw [Lexeme.names_fixed_cons rfl, Lexeme.names_cons, Expr.names_of_written he]
    simp [Item.tree]
  | function name hparams hbody =>
    rw [Item.names_function, names_parameters, Lexeme.names_fixed_cons rfl, Lexeme.names_cons]
    simp [Lexeme.names_fixed_cons, Terminal.isName, hparams.names_eq, hbody.names_eq, Clause.names]
  | stmt hs => exact hs.names_eq

/-! ## The first lexeme -/

/-- What an item can start with. -/
inductive Lexeme.StartsItem : Lexeme → Prop where
  | statement {x : Lexeme} (h : x.StartsStatement) : StartsItem x
  | fixed {t : Terminal} (h : t ∈ [Terminal.void, .includeWord, .defineWord]) : StartsItem t.lexeme

theorem Lexeme.StartsItem.terminal_mem {x : Lexeme} (h : x.StartsItem) :
    x.terminal ∈ Terminal.itemStart := by
  cases h with
  | statement h => exact List.mem_append_left _ h.terminal_mem
  | fixed h => exact List.mem_append_right _ h

theorem Item.Written.exists_start {i : Item} (h : i.Written xs) (hi : i.Proper) :
    ∃ x xs', xs = x :: xs' ∧ x.StartsItem := by
  cases h with
  | includes _ | define _ _ | function _ _ _ => exact ⟨_, _, rfl, .fixed (by decide)⟩
  | stmt hs =>
    obtain ⟨x, xs', rfl, hx⟩ := hs.exists_start hi
    exact ⟨x, xs', rfl, .statement hx⟩

theorem Token.IsString.reads {t : Token} (h : t.IsString) : Mode.string.Reads t.lexeme := by
  obtain ⟨body, hbody, htext⟩ := h.text_eq
  refine ⟨solid_of_cons htext (by decide) (by decide), ?_⟩
  obtain ⟨g, gs, hgs, hg⟩ := ofChars_cons '"' (body ++ ['"'])
  have hinside : chars gs = body ++ ['"'] := by
    have hchars := Glyph.chars_ofChars ('"' :: (body ++ ['"']))
    rw [hgs] at hchars
    exact (List.cons.inj hchars).2
  have hplain : isNameStart '"' = false ∧ Text.isDecimal '"' = false ∧ '"' ≠ '\'' := by decide
  show matchExpected [.string] (Glyph.ofChars t.text.toList) = some (t.terminal, t.text.toList.length)
  rw [htext, hgs, h.terminal_eq]
  simp [matchExpected, hg, hplain, stringLength?_of_text hbody hinside]

namespace Mode

variable {mode : Mode} {x : Lexeme}

theorem reads_item (hmode : mode ∈ [Mode.fileStart, .afterStatement]) (h : x.StartsItem) :
    mode.Reads x := by
  have hmodes : ∀ mode ∈ [Mode.fileStart, .afterStatement], mode ∈ forStatements ∧
      ∀ t ∈ [Terminal.void, .includeWord, .defineWord], t ∈ mode.fixed := by decide
  obtain ⟨hstatements, hfixed⟩ := hmodes mode hmode
  cases h with
  | statement h => exact reads_statement hstatements h
  | fixed h => exact reads_fixed (hfixed _ h)

/-- Behind an operand, where a sign is taken for an operator. -/
theorem reads_item_behind (hmode : mode ∈ [Mode.afterOperand, .afterName]) (h : x.StartsItem)
    (hsign : x.terminal ∉ [Terminal.positive, .negative]) : mode.Reads x := by
  have hmodes : ∀ mode ∈ [Mode.afterOperand, .afterName],
      (mode.terminals.find? fun t => t = .declaredName ∨ t = .newName) = some .declaredName ∧
        .number ∈ mode.terminals ∧ .charLiteral ∈ mode.terminals ∧
          ∀ t ∈ Terminal.itemStart, t.literal?.isSome = true → t ∉ [Terminal.positive, .negative] →
            t ∈ mode.fixed := by decide
  obtain ⟨hname, hnumber, hcharacter, hfixed⟩ := hmodes mode hmode
  have hmem := h.terminal_mem
  cases h with
  | statement h =>
    cases h with
    | operand h =>
      cases h with
      | name h => exact h.reads hname
      | number h => exact h.reads hnumber
      | character h => exact h.reads hcharacter
      | @fixed t h =>
        have hliteral : ∀ t ∈ [Terminal.parenOpen, .positive, .negative, .input],
            t.literal?.isSome = true := by decide
        exact reads_fixed (hfixed t hmem (hliteral t h) hsign)
    | @fixed t h =>
      have hliteral : ∀ t ∈ [Terminal.braceOpen, .ifWord, .output, .returnWord, .sizeT, .stack,
          .whileWord], t.literal?.isSome = true := by decide
      exact reads_fixed (hfixed t hmem (hliteral t h) hsign)
  | @fixed t h =>
    have hliteral : ∀ t ∈ [Terminal.void, .includeWord, .defineWord], t.literal?.isSome = true := by
      decide
    exact reads_fixed (hfixed t hmem (hliteral t h) hsign)

end Mode

namespace Parser

variable {st : ParserState} {xs ys zs : List Lexeme}
variable {name : Token}

/-! ## Functions -/

theorem meets_parameter {k : Terminal} (hk : k ∈ [Terminal.sizeT, .stack]) {p : Token} (hp : p.IsName)
    (h : st.Faces (k.lexeme :: p.lexeme :: zs)) (hzs : Mode.afterParameter.ReadsFirst zs) :
    Meets parameter st (Leaves Token.lexeme p.lexeme zs) := by
  have hmode : Mode.declaredName.Reads p.lexeme := hp.reads rfl
  have hparameter : Meets (shift .declaredName >>= fun _ => expect .declaredName .afterParameter) st
      (Leaves Token.lexeme p.lexeme zs) :=
    (meets_shift h (hmode.first zs)).bind fun _ _ ⟨_, h1⟩ => meets_expect h1 hp.terminal_eq hzs
  refine .look h ?_
  simp only [List.mem_cons, List.not_mem_nil, or_false] at hk
  rcases hk with rfl | rfl
  · exact hparameter
  · exact hparameter

theorem reads_parameters {ps : List Token} (h : ParametersWritten ps xs) :
    Mode.afterParameter.ReadsFirst (xs ++ Terminal.parenClose.lexeme :: zs) := by
  cases h with
  | nil => exact (Mode.reads_fixed (t := .parenClose) (by decide)).first zs
  | cons _ _ _ => exact (Mode.reads_fixed (t := .comma) (by decide)).first _

theorem meets_parameters {ps : List Token} (h : ParametersWritten ps xs) (hps : ∀ p ∈ ps, p.IsName)
    (hst : st.Faces (xs ++ Terminal.parenClose.lexeme :: zs)) {fuel : Nat} (hfuel : xs.length ≤ fuel) :
    Meets (parameters (fuel + 1)) st
      (Leaves (List.map Token.lexeme) (ps.map Token.lexeme) (Terminal.parenClose.lexeme :: zs)) := by
  induction h generalizing st fuel with
  | nil => exact .look hst (.pure ⟨rfl, hst⟩)
  | @cons k hk p ps xs hrest ih =>
    obtain ⟨hp, hps⟩ := List.forall_mem_cons.mp hps
    have hmode : Mode.parameter.Reads k.lexeme := by
      refine Mode.reads_fixed ?_
      have hall : ∀ k ∈ [Terminal.sizeT, .stack], k ∈ Mode.parameter.fixed := by decide
      exact hall k hk
    simp only [List.length_cons] at hfuel
    obtain ⟨fuel, rfl⟩ : ∃ f, fuel = f + 1 := ⟨fuel - 1, by omega⟩
    refine .look hst ((meets_shift hst (hmode.first _)).bind fun _ _ ⟨_, h1⟩ => ?_)
    refine (meets_parameter hk hp h1 (reads_parameters hrest)).bind fun p' _ ⟨hp', h2⟩ => ?_
    refine (ih hps h2 (by omega)).bind fun ps' _ ⟨hps', h3⟩ => .pure ⟨?_, h3⟩
    rw [List.map_cons, hp', hps', List.map_cons]

/-! ## Items -/

/-- The lexemes are read as the item, up to the next one. -/
def ItemReads (i : Item) (xs : List Lexeme) : Prop :=
  ∀ zs st, st.Faces (xs ++ zs) → (∀ z ∈ zs.head?, z.StartsItem) → Apart xs zs →
    ∀ fuel, 8 * xs.length + 1 ≤ fuel →
      Meets (item fuel) st fun i' st' => i'.tree.names = i.tree.names ∧ st'.Faces zs

theorem itemReads_includes {file : Token} (hfile : file.IsString) :
    ItemReads (.includes file) [Terminal.includeWord.lexeme, file.lexeme] := by
  intro zs st h hzs _ fuel _
  have hnext : Mode.fileStart.ReadsFirst zs := fun z hz => Mode.reads_item (by decide) (hzs z hz)
  refine .look h ((meets_shift h (hfile.reads.first zs)).bind fun _ _ ⟨_, h1⟩ => ?_)
  refine (meets_expect h1 hfile.terminal_eq hnext).bind fun file' _ ⟨hfile', h2⟩ => .pure ⟨?_, h2⟩
  simp [Item.tree, hfile']

/-- An item comes behind the value of a directive if it stands apart from it. -/
theorem followed_of_apart {e : Expr} (he : e.Written xs) (hproper : e.Proper)
    (hzs : ∀ z ∈ zs.head?, z.StartsItem)
    (hapart : Apart (Terminal.defineWord.lexeme :: name.lexeme :: xs) zs) :
    Followed (some .comparison) xs zs := by
  have hends : EndsNamed xs → EndsNamed (Terminal.defineWord.lexeme :: name.lexeme :: xs) :=
    (endsNamed_append (he.ne_nil hproper) [_, _]).mpr
  have hitems : ∀ t ∈ Terminal.itemStart, t ≠ .dot ∧ t ∉ continuers (some .comparison) := by decide
  -- behind a name and behind any other operand
  refine ⟨fun hname => ⟨fun z hz => ?_, fun z hz hmem => ?_⟩, fun _ z hz => ?_, fun z hz => ?_⟩
  · exact Mode.reads_item_behind (by decide) (hzs z hz) (hapart rfl z hz).1
  · simp only [List.mem_cons, List.not_mem_nil, or_false] at hmem
    rcases hmem with hopen | hdot
    · exact (hapart rfl z hz).2 hopen (hends hname)
    · exact (hitems _ (hzs z hz).terminal_mem).1 hdot
  · exact Mode.reads_item_behind (by decide) (hzs z hz) (hapart rfl z hz).1
  · exact (hitems _ (hzs z hz).terminal_mem).2

theorem itemReads_define {e : Expr} (hname : name.IsName) (he : e.Written xs) (hproper : e.Proper) :
    ItemReads (.define name e) (Terminal.defineWord.lexeme :: name.lexeme :: xs) := by
  intro zs st h hzs hapart fuel hfuel
  simp only [List.length_cons] at hfuel
  have hmode : Mode.declaredName.Reads name.lexeme := hname.reads rfl
  refine .look h ((meets_shift h (hmode.first _)).bind fun _ _ ⟨_, h1⟩ => ?_)
  refine (meets_expect h1 hname.terminal_eq (operand_first he hproper zs)).bind
    fun name' _ ⟨hname', h2⟩ => ?_
  refine (exprReads_written he hproper zs _ h2 (followed_of_apart he hproper hzs hapart) fuel
    (by simp only [descent]; omega)).bind fun e' _ ⟨hbare, h3⟩ => .pure ⟨?_, h3⟩
  simp [Item.tree, hname', Expr.names_congr hbare]

theorem itemReads_stmt {s : Stmt} (hs : Clause.Written (.stmt s) xs) (hproper : s.Proper) :
    ItemReads (.stmt s) xs := by
  intro zs st h hzs _ fuel hfuel
  have helse : ∀ t ∈ Terminal.itemStart, t ≠ .elseWord := by decide
  have hreads : StmtReads s xs := clauseReads_written hs hproper
  have hs' := hreads.inner h (fun z hz => Mode.reads_item (by decide) (hzs z hz))
    (fun _ z hz => helse _ (hzs z hz).terminal_mem) hfuel
  obtain ⟨x, xs, rfl, hx⟩ := hs.exists_start hproper
  obtain ⟨_, st1, htakes, s', rfl, hbare, h1⟩ := meets_item h hx hs'
  exact ⟨_, st1, htakes, Stmt.names_congr hbare, h1⟩

/-- The body of a function, behind its parameters. -/
theorem meets_functionBody {body : List Stmt} {params params' : List Token} {name' : Token}
    (hname : name'.lexeme = name.lexeme) (hparams : params'.map Token.lexeme = params.map Token.lexeme)
    (hbody : Clause.Written (.stmts body) ys) (hproper : ProperStmts body)
    (h : st.Faces (Terminal.parenClose.lexeme :: Terminal.braceOpen.lexeme ::
      (ys ++ Terminal.braceClose.lexeme :: zs))) (hzs : Mode.afterStatement.ReadsFirst zs)
    {fuel : Nat} (hfuel : 8 * ys.length + 1 ≤ fuel) :
    Meets (do
      let _ ← expect .parenClose .functionBody
      let _ ← expect .braceOpen .blockStart
      let body ← statements (fuel + 1)
      let _ ← expect .braceClose .afterStatement
      return Item.function name' params' body) st fun i' st' =>
        i'.tree.names = (Item.function name params body).tree.names ∧ st'.Faces zs := by
  have hclose : Resumes (Terminal.braceClose.lexeme :: zs) := fun x hx =>
    .inr (Option.some.inj hx).symm
  have hstart : Mode.blockStart.ReadsFirst (ys ++ Terminal.braceClose.lexeme :: zs) :=
    (resumes_written hbody hproper hclose).reads (by decide)
  have hreads : StmtsReads body ys := clauseReads_written hbody hproper
  refine (meets_expect h rfl (Mode.first_fixed (by decide) _)).bind fun _ _ ⟨_, h1⟩ => ?_
  refine (meets_expect h1 rfl hstart).bind fun _ _ ⟨_, h2⟩ => ?_
  refine (hreads _ _ h2 rfl fuel hfuel).bind fun body' _ ⟨hbares, h3⟩ => ?_
  refine (meets_expect h3 rfl hzs).bind fun _ _ ⟨_, h4⟩ => .pure ⟨?_, h4⟩
  rw [Item.names_function, Item.names_function, names_parameters, names_parameters, hname, hparams,
    names_congr_stmts hbares]

theorem itemReads_function {params : List Token} {body : List Stmt} (hname : name.IsNewName)
    (hparams : SignatureWritten params xs) (hnames : ∀ p ∈ params, p.IsName)
    (hbody : Clause.Written (.stmts body) ys) (hproper : ProperStmts body) :
    ItemReads (.function name params body) (Terminal.void.lexeme :: name.lexeme ::
      Terminal.parenOpen.lexeme :: (xs ++ Terminal.parenClose.lexeme :: Terminal.braceOpen.lexeme ::
        (ys ++ [Terminal.braceClose.lexeme]))) := by
  intro zs st h hzs _ fuel hfuel
  simp only [List.cons_append, List.append_assoc, List.nil_append] at h
  simp only [List.length_cons, List.length_append] at hfuel
  obtain ⟨fuel, rfl⟩ : ∃ f, fuel = f + 1 := ⟨fuel - 1, by omega⟩
  have hnext : Mode.afterStatement.ReadsFirst zs := fun z hz => Mode.reads_item (by decide) (hzs z hz)
  refine .look h ((meets_shift h (hname.reads.first _)).bind fun _ _ ⟨_, h1⟩ => ?_)
  refine (meets_expect h1 hname.terminal_eq (Mode.first_fixed (by decide) _)).bind
    fun name' _ ⟨hname', h2⟩ => ?_
  cases hparams with
  | nil =>
    refine (meets_expect h2 rfl (Mode.first_fixed (by decide) _)).bind fun _ _ ⟨_, h3⟩ => ?_
    exact .look h3 (.ite_pos rfl (.pure_bind
      (meets_functionBody hname' rfl hbody hproper h3 hnext (by omega))))
  | @cons k hk p ps xs hps =>
    obtain ⟨hp, hps'⟩ := List.forall_mem_cons.mp hnames
    have hall : ∀ k ∈ [Terminal.sizeT, .stack], k ∈ Mode.parameterOrClose.fixed ∧ k ≠ .parenClose := by
      decide
    obtain ⟨hfixed, hne⟩ := hall k hk
    simp only [List.length_cons] at hfuel
    refine (meets_expect h2 rfl (Mode.first_fixed hfixed _)).bind fun _ _ ⟨_, h3⟩ => ?_
    refine .look h3 (.ite_neg (fun heq => hne (Option.some.inj heq)) ?_)
    refine (meets_parameter hk hp h3 (reads_parameters hps)).bind fun p' _ ⟨hp', h4⟩ => ?_
    refine (meets_parameters hps hps' h4 (by omega)).bind fun ps' _ ⟨hlexemes, h5⟩ => .pure_bind ?_
    exact meets_functionBody hname' (by rw [List.map_cons, List.map_cons, hp', hlexemes]) hbody hproper
      h5 hnext (by omega)

theorem itemReads_written {i : Item} (h : i.Written xs) (hi : i.Proper) : ItemReads i xs := by
  cases h with
  | includes file => exact itemReads_includes hi
  | define name he => exact itemReads_define hi.1 he hi.2
  | function name hparams hbody => exact itemReads_function hi.1 hparams hi.2.1 hbody hi.2.2
  | stmt hs => exact itemReads_stmt hs hi

end Parser

variable {parts : List (List Lexeme)}

/-! ## The whole text -/

/-- The tokens are those of an item. -/
def WritesItem (xs : List Lexeme) : Prop := ∃ i : Item, i.Written xs ∧ i.Proper

theorem WritesItem.exists_start (h : WritesItem xs) : ∃ x xs', xs = x :: xs' ∧ x.StartsItem := by
  obtain ⟨i, hi, hproper⟩ := h
  exact hi.exists_start hproper

/-- The items behind an item start with the next one. -/
theorem exists_start_flatten (h : ∀ part ∈ parts, WritesItem part) :
    ∀ z ∈ parts.flatten.head?, z.StartsItem := by
  cases parts with
  | nil => rintro z ⟨⟩
  | cons part parts =>
    obtain ⟨x, xs', rfl, hx⟩ := (h part List.mem_cons_self).exists_start
    rintro z ⟨⟩
    exact hx

theorem apart_flatten {part : List Lexeme} (h : ∀ part ∈ parts, WritesItem part)
    (hchain : (part :: parts).IsChain Apart) : Apart part parts.flatten := by
  cases hchain with
  | singleton => rintro _ _ ⟨⟩
  | @cons_cons _ next parts hapart _ =>
    obtain ⟨x, xs', rfl, -⟩ := (h next List.mem_cons_self).exists_start
    rintro hdefine z ⟨⟩
    exact hapart hdefine x rfl

theorem Parser.meets_parts (h : ∀ part ∈ parts, WritesItem part) (hchain : parts.IsChain Apart)
    {st : ParserState} (hst : st.Faces parts.flatten) {inner fuel : Nat}
    (hinner : 8 * parts.flatten.length + 1 ≤ inner) (hfuel : parts.flatten.length ≤ fuel) :
    Meets (items inner (fuel + 1)) st fun is _ =>
      namesOfAll (is.map Item.tree) = Lexeme.names parts.flatten := by
  induction parts generalizing st fuel with
  | nil => exact .look_head hst (.pure (by simp))
  | cons part parts ih =>
    obtain ⟨⟨i, hi, hproper⟩, hparts⟩ := List.forall_mem_cons.mp h
    have hchain' : parts.IsChain Apart := by
      cases hchain with
      | singleton => exact .nil
      | cons_cons _ hchain => exact hchain
    simp only [List.flatten_cons, List.length_append] at hinner hfuel
    have hitem := itemReads_written hi hproper parts.flatten st hst (exists_start_flatten hparts)
      (apart_flatten hparts hchain) inner (by omega)
    -- an item has at least one token, so the fuel lasts for the others
    obtain ⟨x, xs, rfl, -⟩ := hi.exists_start hproper
    simp only [List.length_cons] at hfuel
    obtain ⟨fuel, rfl⟩ : ∃ f, fuel = f + 1 := ⟨fuel - 1, by omega⟩
    refine .look hst (hitem.bind fun i' _ ⟨hnames, h1⟩ => ?_)
    refine (ih hparts hchain' h1 (by omega) (by omega)).bind fun is _ hnames' => .pure ?_
    rw [List.map_cons, namesOfAll_cons, hnames, hnames', List.flatten_cons, Lexeme.names_append,
      hi.names_eq]

/-- **Items that stand apart are read back** with the names they are written with. -/
theorem Source.parse_items (h : ∀ part ∈ parts, WritesItem part) (hchain : parts.IsChain Apart)
    {text : List Char} (htext : LaidOut parts.flatten text) :
    ∃ source, Source.parse text = .ok source ∧ source.tree.names = Lexeme.names parts.flatten := by
  have hmode : Mode.fileStart.ReadsFirst parts.flatten := fun z hz =>
    Mode.reads_item (by decide) (exists_start_flatten h z hz)
  obtain ⟨is, hparse, hnames⟩ := htext.exists_parse hmode fun st n hfaces hn =>
    Parser.meets_parts h hchain hfaces (by omega) (by omega)
  exact ⟨⟨is⟩, hparse, by rw [Source.tree, Tree.names_node, hnames]⟩

end TapeScript
