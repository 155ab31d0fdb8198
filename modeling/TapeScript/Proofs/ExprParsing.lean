import TapeScript.Grammar.Parser
import TapeScript.Proofs.Writing

set_option autoImplicit false

/-! # Parsing a written expression

A parser that faces the lexemes of a written expression reads the expression back, places aside
(`Parser.reads_written`). The parser reads the first factor of an expression before it knows of which
level the expression is; so each expression is also split into its first factor and what follows it
(`Split`). What a parser is sure to do (`Parser.Meets`), and what holds behind it whenever it succeeds
(`Parser.Ensures`), are put together from its steps.
-/

namespace TapeScript

namespace Parser

/-! ## Parsers that succeed -/

section Takes

variable {α β : Type} {st st1 st' : ParserState}

/-- The parser succeeds with a result and leaves the second state. -/
def Takes (p : Parser α) (st : ParserState) (a : α) (st' : ParserState) : Prop :=
  p.run st = .ok (a, st')

theorem Takes.bind {p : Parser α} {f : α → Parser β} {a : α} {b : β} (h : Takes p st a st1)
    (h' : Takes (f a) st1 b st') : Takes (p >>= f) st b st' := by
  unfold Takes at *
  rw [StateT.run_bind, h]
  exact h'

theorem takes_pure (a : α) (st : ParserState) : Takes (pure a) st a st := rfl

end Takes

section Inversion

variable {α β : Type} {p : Parser α} {f : α → Parser β} {st st' : ParserState}

theorem takes_bind {b : β} :
    Takes (p >>= f) st b st' ↔ ∃ a st1, Takes p st a st1 ∧ Takes (f a) st1 b st' := by
  constructor
  · intro h
    unfold Takes at h
    rw [StateT.run_bind] at h
    cases hp : p.run st with
    | error fault =>
      rw [hp] at h
      cases h
    | ok r =>
      rw [hp] at h
      exact ⟨r.1, r.2, hp, h⟩
  · rintro ⟨a, st1, hp, hf⟩
    exact hp.bind hf

theorem takes_pure_iff {a b : α} : Takes (pure a) st b st' ↔ b = a ∧ st' = st := by
  constructor
  · rintro ⟨⟩
    exact ⟨rfl, rfl⟩
  · rintro ⟨rfl, rfl⟩
    exact takes_pure b st'

theorem not_takes_refuse {a : α} : ¬ Takes refuse st a st' := by
  intro h
  obtain ⟨s, st1, -, h⟩ := takes_bind.mp h
  split at h <;> cases h

theorem takes_ahead_iff {o : Option Terminal} :
    Takes ahead st o st' ↔ o = st.ahead.map Token.terminal ∧ st' = st := takes_pure_iff

/-- Taking a token. -/
theorem exists_of_shift {mode : Mode} {t : Token} (h : Takes (shift mode) st t st') :
    st.ahead = some t ∧ ∃ next rest, Token.next st.length mode st.rest = .ok (next, rest) ∧
      st' = { st with rest, ahead := next, last := some t } := by
  obtain ⟨s, st1, hget, h⟩ := takes_bind.mp h
  cases hget
  split at h
  · exact absurd h not_takes_refuse
  · next token hahead =>
    obtain ⟨⟨next, rest⟩, st1, hlift, h⟩ := takes_bind.mp h
    cases hnext : Token.next st.length mode st.rest with
    | error fault =>
      rw [hnext] at hlift
      cases hlift
    | ok r =>
      rw [hnext] at hlift
      cases hlift
      obtain ⟨_, st2, hset, h⟩ := takes_bind.mp h
      cases hset
      obtain ⟨rfl, rfl⟩ := takes_pure_iff.mp h
      exact ⟨hahead, next, rest, rfl, rfl⟩

/-- Taking a given terminal. -/
theorem exists_of_expect {mode : Mode} {terminal : Terminal} {t : Token}
    (h : Takes (expect terminal mode) st t st') :
    t.terminal = terminal ∧ Takes (shift mode) st t st' := by
  obtain ⟨o, st1, hahead, h⟩ := takes_bind.mp h
  obtain ⟨rfl, rfl⟩ := takes_ahead_iff.mp hahead
  split at h
  · next hterminal =>
    rw [(exists_of_shift h).1] at hterminal
    exact ⟨Option.some.inj hterminal, h⟩
  · exact absurd h not_takes_refuse

end Inversion

/-! ## What a parser ensures -/

section Ensures

variable {α β : Type} {st : ParserState} {p : Parser α} {f : α → Parser β}
  {mid : α → ParserState → Prop} {post : β → ParserState → Prop}

/-- Whenever the parser succeeds, its result and the state behind it are as described. -/
def Ensures (p : Parser α) (st : ParserState) (post : α → ParserState → Prop) : Prop :=
  ∀ ⦃a : α⦄ ⦃st' : ParserState⦄, Takes p st a st' → post a st'

namespace Ensures

protected theorem pure {a : α} (h : mid a st) : Ensures (pure a) st mid := by
  intro b st' htakes
  obtain ⟨rfl, rfl⟩ := takes_pure_iff.mp htakes
  exact h

protected theorem refuse : Ensures refuse st mid := fun _ _ h => absurd h not_takes_refuse

theorem and {mid' : α → ParserState → Prop} (h : Ensures p st mid) (h' : Ensures p st mid') :
    Ensures p st fun a st' => mid a st' ∧ mid' a st' := fun _ _ htakes => ⟨h htakes, h' htakes⟩

theorem bind (hp : Ensures p st mid) (hf : ∀ a st1, mid a st1 → Ensures (f a) st1 post) :
    Ensures (p >>= f) st post := by
  intro b st' htakes
  obtain ⟨a, st1, ha, hb⟩ := takes_bind.mp htakes
  exact hf a st1 (hp ha) hb

theorem pure_bind {a : α} (hf : Ensures (f a) st post) : Ensures (Pure.pure a >>= f) st post := by
  intro b st' htakes
  obtain ⟨a', st1, ha, hb⟩ := takes_bind.mp htakes
  obtain ⟨rfl, rfl⟩ := takes_pure_iff.mp ha
  exact hf hb

/-- Whatever the first parser does. -/
theorem skip (hf : ∀ a st1, Ensures (f a) st1 post) : Ensures (p >>= f) st post :=
  bind (fun _ _ _ => trivial) fun a st1 (_ : True) => hf a st1

/-- Looking at the terminal ahead and going on accordingly. -/
theorem look {f : Option Terminal → Parser β}
    (hf : ∀ o, st.ahead.map Token.terminal = o → Ensures (f o) st post) :
    Ensures (ahead >>= f) st post := by
  intro b st' htakes
  obtain ⟨o, st1, ho, hb⟩ := takes_bind.mp htakes
  obtain ⟨rfl, rfl⟩ := takes_ahead_iff.mp ho
  exact hf _ rfl hb

end Ensures

end Ensures

/-! ## What a parser is sure to do -/

section Meets

variable {α β : Type} {st : ParserState} {p q : Parser α} {f : α → Parser β}
  {mid : α → ParserState → Prop} {post : β → ParserState → Prop}

/-- The parser succeeds, and its result and the state behind it are as described. -/
def Meets (p : Parser α) (st : ParserState) (post : α → ParserState → Prop) : Prop :=
  ∃ a st', Takes p st a st' ∧ post a st'

namespace Meets

protected theorem pure {a : α} (h : mid a st) : Meets (pure a) st mid := ⟨a, st, takes_pure a st, h⟩

theorem bind (hp : Meets p st mid) (hf : ∀ a st1, mid a st1 → Meets (f a) st1 post) :
    Meets (p >>= f) st post := by
  obtain ⟨a, st1, ha, hmid⟩ := hp
  obtain ⟨b, st', hb, hpost⟩ := hf a st1 hmid
  exact ⟨b, st', ha.bind hb, hpost⟩

theorem pure_bind {a : α} (hf : Meets (f a) st post) : Meets (Pure.pure a >>= f) st post := by
  obtain ⟨b, st', hb, hpost⟩ := hf
  exact ⟨b, st', (takes_pure a st).bind hb, hpost⟩

theorem ite_pos {c : Prop} [Decidable c] (hc : c) (h : Meets p st mid) :
    Meets (if c then p else q) st mid := by
  rw [if_pos hc]
  exact h

theorem ite_neg {c : Prop} [Decidable c] (hc : ¬c) (h : Meets q st mid) :
    Meets (if c then p else q) st mid := by
  rw [if_neg hc]
  exact h

end Meets

end Meets

end Parser

/-! ## The lexemes ahead -/

/-- These lexemes come next, up to the end of the text: the token ahead is the first of them, and the
others are laid out behind it. -/
def ParserState.Faces (st : ParserState) : List Lexeme → Prop
  | [] => st.ahead = none
  | x :: xs => (∃ t, st.ahead = some t ∧ t.lexeme = x) ∧ Laid xs (Token.chars st.rest) ∧
      st.rest.length ≤ st.length

/-- The first lexeme, if there is one, is found in the mode. -/
def Mode.ReadsFirst (mode : Mode) (xs : List Lexeme) : Prop := ∀ x ∈ xs.head?, mode.Reads x

theorem Mode.Reads.first {mode : Mode} {x : Lexeme} (h : mode.Reads x) (xs : List Lexeme) :
    mode.ReadsFirst (x :: xs) := by
  rintro y ⟨⟩
  exact h

theorem Mode.first_fixed {mode : Mode} {t : Terminal} (ht : t ∈ mode.fixed) (xs : List Lexeme) :
    mode.ReadsFirst (t.lexeme :: xs) := (reads_fixed ht).first xs

theorem Mode.readsFirst_written {mode : Mode} (hmode : mode ∈ forOperands) {level : Option Level}
    {e : Expr} {xs : List Lexeme} (hxs : Phrase.Written (.expr level e) xs) (he : e.Proper)
    (zs : List Lexeme) : mode.ReadsFirst (xs ++ zs) := by
  obtain ⟨x, xs', rfl, hx⟩ := hxs.exists_start rfl he
  exact (reads_operand hmode hx).first _

theorem Phrase.Written.ne_nil {level : Option Level} {e : Expr} {xs : List Lexeme}
    (h : Phrase.Written (.expr level e) xs) (he : e.Proper) : xs ≠ [] := by
  obtain ⟨x, xs', rfl, -⟩ := h.exists_start rfl he
  exact List.cons_ne_nil x xs'

namespace Parser

variable {st : ParserState} {x : Lexeme} {xs zs : List Lexeme}
variable {level : Option Level}

/-- The result looks as it should, and these lexemes are left. -/
def Leaves {α γ : Type} (view : α → γ) (seen : γ) (zs : List Lexeme) (a : α) (st' : ParserState) : Prop :=
  view a = seen ∧ st'.Faces zs

section Ahead

variable {α : Type} {f : Option Terminal → Parser α} {post : α → ParserState → Prop}

theorem Meets.look_head (h : st.Faces xs) (hf : Meets (f (xs.head?.map Lexeme.terminal)) st post) :
    Meets (ahead >>= f) st post := by
  have hahead : xs.head?.map Lexeme.terminal = st.ahead.map Token.terminal := by
    cases xs with
    | nil => rw [show st.ahead = none from h]; rfl
    | cons x xs =>
      obtain ⟨⟨t, ht, rfl⟩, -⟩ := h
      rw [ht]
      rfl
  rw [hahead] at hf
  obtain ⟨a, st', ha, hpost⟩ := hf
  exact ⟨a, st', Takes.bind rfl ha, hpost⟩

theorem Meets.look (h : st.Faces (x :: xs)) (hf : Meets (f (some x.terminal)) st post) :
    Meets (ahead >>= f) st post := .look_head h hf

end Ahead

/-- Taking a token: the next one is found if the mode is right for it. -/
theorem meets_shift {mode : Mode} (h : st.Faces (x :: xs)) (hmode : mode.ReadsFirst xs) :
    Meets (shift mode) st (Leaves Token.lexeme x xs) := by
  obtain ⟨⟨t, ht, rfl⟩, hlaid, hlength⟩ := h
  have hshift : ∀ {next : Option Token} {rest : List Glyph},
      Token.next st.length mode st.rest = .ok (next, rest) →
      Takes (shift mode) st t { st with rest, ahead := next, last := some t } := by
    intro next rest hnext
    have hget : Takes get st st st := rfl
    have hlift : Takes (liftM (Token.next st.length mode st.rest)) st (next, rest) st := by
      unfold Takes
      rw [hnext]
      rfl
    refine hget.bind ?_
    simp only [ht]
    exact hlift.bind rfl
  generalize hchars : Token.chars st.rest = cs at hlaid
  cases hlaid with
  | done =>
    have hend := Token.next_of_filler mode (by rw [hchars]; exact .nil) hlength
    exact ⟨t, _, hshift hend, rfl, rfl⟩
  | trailing hgap =>
    have hend := Token.next_of_filler mode (by rw [hchars]; exact hgap.filler) hlength
    exact ⟨t, _, hshift hend, rfl, rfl⟩
  | next hgap hrest =>
    obtain ⟨token, rest, hnext, htoken, hchars', hlength'⟩ :=
      Token.next_of_reads (hmode _ rfl) hgap.filler hrest.breaks hchars hlength
    exact ⟨t, _, hshift hnext, rfl, ⟨token, rfl, htoken⟩, by rw [hchars']; exact hrest, hlength'⟩

theorem meets_expect {terminal : Terminal} {mode : Mode} (h : st.Faces (x :: xs))
    (hx : x.terminal = terminal) (hmode : mode.ReadsFirst xs) :
    Meets (expect terminal mode) st (Leaves Token.lexeme x xs) :=
  .look h (.ite_pos (congrArg some hx) (meets_shift h hmode))

/-! ## What comes behind an expression -/

/-- The operators of a level and of the tighter ones, with which an expression of the level goes on. -/
def continuers : Option Level → List Terminal
  | none => []
  | some .term => Level.term.operators
  | some .arithmetic => Level.arithmetic.operators ++ Level.term.operators
  | some .comparison =>
    Level.comparison.operators ++ (Level.arithmetic.operators ++ Level.term.operators)

theorem continuers_some (level : Level) :
    continuers (some level) = level.operators ++ continuers level.tighter := by
  cases level <;> rfl

/-- The last lexeme is a name, with which a call or an operation on a stack could start. -/
def EndsNamed (xs : List Lexeme) : Prop := ∃ x ∈ xs.getLast?, x.terminal = .declaredName

theorem endsNamed_append (hxs : xs ≠ []) (front : List Lexeme) :
    EndsNamed (front ++ xs) ↔ EndsNamed xs := by
  rw [EndsNamed, EndsNamed, List.getLast?_append, List.getLast?_eq_some_getLast hxs, Option.some_or]

theorem not_endsNamed (xs : List Lexeme) (hx : x.terminal ≠ .declaredName) :
    ¬ EndsNamed (xs ++ [x]) := by
  rintro ⟨y, hy, hname⟩
  rw [List.getLast?_concat] at hy
  cases hy
  exact hx hname

/-- What comes behind the lexemes of an expression is found there, and the expression does not go on
with it. -/
structure Followed (level : Option Level) (xs zs : List Lexeme) : Prop where
  behind_name : EndsNamed xs → Mode.afterName.ReadsFirst zs ∧
    ∀ z ∈ zs.head?, z.terminal ∉ [.parenOpen, .dot]
  behind_operand : ¬ EndsNamed xs → Mode.afterOperand.ReadsFirst zs
  stops : ∀ z ∈ zs.head?, z.terminal ∉ continuers level

theorem Followed.tighter {level : Level} (h : Followed (some level) xs zs) :
    Followed level.tighter xs zs := by
  refine ⟨h.behind_name, h.behind_operand, fun z hz hmem => h.stops z hz ?_⟩
  rw [continuers_some]
  exact List.mem_append_right _ hmem

theorem Followed.none (h : Followed level xs zs) : Followed none xs zs :=
  ⟨h.behind_name, h.behind_operand, fun _ _ => List.not_mem_nil⟩

theorem followed_append (hxs : xs ≠ []) (front : List Lexeme) :
    Followed level (front ++ xs) zs ↔ Followed level xs zs := by
  have hends := endsNamed_append hxs front
  constructor
  · rintro ⟨hname, hoperand, hstops⟩
    exact ⟨fun h => hname (hends.mpr h), fun h => hoperand fun h' => h (hends.mp h'), hstops⟩
  · rintro ⟨hname, hoperand, hstops⟩
    exact ⟨fun h => hname (hends.mp h), fun h => hoperand fun h' => h (hends.mpr h'), hstops⟩

/-- A bracket, a separator or an operator comes behind every expression that it does not continue. -/
theorem followed_of_fixed {t : Terminal}
    (ht : t ∈ Terminal.binary ++ [.comma, .parenClose, .bracketClose, .semicolon])
    (hlevel : t ∉ continuers level) (hhead : zs.head? = some t.lexeme) : Followed level xs zs := by
  have hall : ∀ t ∈ Terminal.binary ++ [.comma, .parenClose, .bracketClose, .semicolon],
      t ∈ Mode.afterName.fixed ∧ t ∈ Mode.afterOperand.fixed ∧ t ∉ [Terminal.parenOpen, .dot] := by
    decide
  obtain ⟨hname, hoperand, hother⟩ := hall t ht
  have hfirst : ∀ z ∈ zs.head?, z = t.lexeme := fun z hz => Option.some.inj (hz.symm.trans hhead)
  refine ⟨fun _ => ⟨fun z hz => ?_, fun z hz => ?_⟩, fun _ z hz => ?_, fun z hz => ?_⟩
  · rw [hfirst z hz]
    exact Mode.reads_fixed hname
  · rw [hfirst z hz]
    exact hother
  · rw [hfirst z hz]
    exact Mode.reads_fixed hoperand
  · rw [hfirst z hz]
    exact hlevel

theorem followed_of_closer {t : Terminal}
    (ht : t ∈ [.comma, .parenClose, .bracketClose, .semicolon]) (hhead : zs.head? = some t.lexeme) :
    Followed level xs zs := by
  have hall : ∀ t ∈ [Terminal.comma, .parenClose, .bracketClose, .semicolon],
      t ∉ continuers (some .comparison) := by decide
  have hsub : ∀ t ∈ continuers level, t ∈ continuers (some .comparison) := by
    cases level with
    | none => decide
    | some level => cases level <;> decide
  exact followed_of_fixed (List.mem_append_right _ ht) (fun h => hall t ht (hsub t h)) hhead

/-! ## Calls without arguments -/

theorem meets_emptyCall (h : st.Faces (x :: Terminal.parenOpen.lexeme ::
    Terminal.parenClose.lexeme :: zs)) (hzs : Mode.afterOperand.ReadsFirst zs) :
    Meets emptyCall st fun _ st' => st'.Faces zs := by
  refine (meets_shift h (Mode.first_fixed (by decide) _)).bind fun _ _ ⟨_, h1⟩ => ?_
  refine (meets_expect h1 rfl (Mode.first_fixed (by decide) _)).bind fun _ _ ⟨_, h2⟩ => ?_
  exact (meets_expect h2 rfl hzs).bind fun _ _ ⟨_, h3⟩ => .pure h3

/-- The lexeme behind the dot is read as the operation on the stack. -/
structure OperationReads (name : Token) (op : Terminal) (e : Expr) : Prop where
  behind_dot : Mode.afterDot.Reads op.lexeme
  behind_leadDot : Mode.afterLeadDot.Reads op.lexeme
  ne_push : op ≠ .push
  reads : ∀ {name' : Token} {zs : List Lexeme} {st : ParserState}, name'.lexeme = name.lexeme →
    st.Faces (op.lexeme :: Terminal.parenOpen.lexeme :: Terminal.parenClose.lexeme :: zs) →
    Mode.afterOperand.ReadsFirst zs → Meets (stackOperation name') st (Leaves Expr.bare e.bare zs)

theorem operationReads_pop (name : Token) : OperationReads name .pop (.pop name) := by
  refine ⟨Mode.reads_fixed (by decide), Mode.reads_fixed (by decide), by decide, fun hname h hzs => ?_⟩
  refine .look h ((meets_emptyCall h hzs).bind fun _ _ h' => .pure ⟨?_, h'⟩)
  rw [Expr.bare, Expr.bare, Token.bare_eq hname]

theorem operationReads_peek (name : Token) : OperationReads name .peek (.peek name) := by
  refine ⟨Mode.reads_fixed (by decide), Mode.reads_fixed (by decide), by decide, fun hname h hzs => ?_⟩
  refine .look h ((meets_emptyCall h hzs).bind fun _ _ h' => .pure ⟨?_, h'⟩)
  rw [Expr.bare, Expr.bare, Token.bare_eq hname]

/-! ## Levels -/

/-- The parser of the expressions of a level. -/
def atLevel : Option Level → Nat → Parser Expr
  | none => factor
  | some .term => term
  | some .arithmetic => arithmetic
  | some .comparison => expression

/-- How many calls deep the first factor of an expression is read. -/
def descent : Option Level → Nat
  | none => 1
  | some .term => 2
  | some .arithmetic => 3
  | some .comparison => 4

theorem descent_some (level : Level) :
    descent (some level) = descent level.tighter + 1 ∧ 1 ≤ descent level.tighter := by
  cases level <;> decide

theorem descent_le (level : Option Level) : descent level ≤ 4 := by
  cases level with
  | none => decide
  | some level => cases level <;> decide

/-- The lexemes are read as the expression. -/
def ExprReads (level : Option Level) (e : Expr) (xs : List Lexeme) : Prop :=
  ∀ zs st, st.Faces (xs ++ zs) → Followed level xs zs → ∀ fuel, 8 * xs.length + descent level ≤ fuel →
    Meets (atLevel level fuel) st (Leaves Expr.bare e.bare zs)

/-- There are no lexemes, or the first one is an operator of the list. -/
def StartsWith (operators : List Terminal) (xs : List Lexeme) : Prop :=
  ∀ x ∈ xs.head?, ∃ t ∈ operators, x = t.lexeme

theorem startsWith_nil (operators : List Terminal) : StartsWith operators [] := by
  rintro _ ⟨⟩

theorem StartsWith.cases {operators : List Terminal} (h : StartsWith operators xs) :
    xs = [] ∨ ∃ t ∈ operators, ∀ zs, (xs ++ zs).head? = some t.lexeme := by
  cases xs with
  | nil => exact .inl rfl
  | cons x xs =>
    obtain ⟨t, ht, rfl⟩ := h x rfl
    exact .inr ⟨t, ht, fun _ => rfl⟩

/-- The lexemes are read as operators and operands, behind whatever stands in front. -/
structure RestReads (level : Level) (rest : List (Token × Expr)) (xs : List Lexeme) : Prop where
  starts : StartsWith level.operators xs
  reads : ∀ front zs st, st.Faces (xs ++ zs) → Followed (some level) (front ++ xs) zs →
    ∀ fuel k, 8 * xs.length ≤ fuel → xs.length + 1 ≤ k →
      Meets (operands level.operators (atLevel level.tighter fuel) k) st
        (Leaves bareRest (bareRest rest) zs)

theorem RestReads.followed {level : Level} {rest : List (Token × Expr)} {front : List Lexeme}
    (h : RestReads level rest xs) (hzs : Followed (some level) (front ++ xs) zs) :
    Followed level.tighter front (xs ++ zs) := by
  rcases h.starts.cases with rfl | ⟨t, ht, hhead⟩
  · rw [List.append_nil] at hzs
    exact hzs.tighter
  · have hall : ∀ level : Level, ∀ t ∈ level.operators,
        t ∈ Terminal.binary ∧ t ∉ continuers level.tighter := by
      intro level
      cases level <;> decide
    obtain ⟨hbinary, hother⟩ := hall level t ht
    exact followed_of_fixed (List.mem_append_left _ hbinary) hother (hhead zs)

/-- The lexemes are read as further arguments. -/
structure ArgumentsReads (es : List Expr) (xs : List Lexeme) : Prop where
  starts : StartsWith [.comma] xs
  reads : ∀ zs st, st.Faces (xs ++ zs) → zs.head? = some Terminal.parenClose.lexeme →
    ∀ fuel, 8 * xs.length + 1 ≤ fuel → Meets (arguments fuel) st (Leaves bareAll (bareAll es) zs)

theorem ArgumentsReads.followed {es : List Expr} (h : ArgumentsReads es xs)
    (hzs : zs.head? = some Terminal.parenClose.lexeme) (front : List Lexeme) :
    Followed (some .comparison) front (xs ++ zs) := by
  rcases h.starts.cases with rfl | ⟨t, ht, hhead⟩
  · exact followed_of_closer (by decide) hzs
  · obtain rfl := List.mem_singleton.mp ht
    exact followed_of_closer (by decide) (hhead zs)

/-! ### Operators and operands -/

section Rest

variable {level : Level} {e : Expr} {rest : List (Token × Expr)} {ys : List Lexeme}

theorem restReads_nil (level : Level) : RestReads level [] [] := by
  refine ⟨startsWith_nil _, fun front zs st h hzs fuel k _ hk => ?_⟩
  obtain ⟨k, rfl⟩ : ∃ j, k = j + 1 := ⟨k - 1, by simp at hk; omega⟩
  rw [operands]
  refine .look_head h ?_
  cases zs with
  | nil => exact .pure ⟨rfl, h⟩
  | cons z zs =>
    refine .ite_neg (fun hmem => hzs.stops z rfl ?_) (.pure ⟨rfl, h⟩)
    rw [continuers_some]
    exact List.mem_append_left _ hmem

theorem restReads_cons {op : Token} (hop : op.IsOperator level) (hne : xs ≠ [])
    (hstart : ∀ zs, Mode.operand.ReadsFirst (xs ++ zs)) (he : ExprReads level.tighter e xs)
    (hrest : RestReads level rest ys) :
    RestReads level ((op, e) :: rest) (op.lexeme :: (xs ++ ys)) := by
  obtain ⟨o, ho, hlexeme⟩ := hop
  refine ⟨fun x hx => ⟨o, ho, ?_⟩, fun front zs st h hzs fuel k hfuel hk => ?_⟩
  · obtain rfl := Option.some.inj hx
    exact hlexeme
  · rw [hlexeme, List.cons_append, List.append_assoc] at h
    have hzs' : Followed (some level) (xs ++ ys) zs := by
      rw [← List.singleton_append, ← List.append_assoc front] at hzs
      exact (followed_append (by simp [hne]) _).mp hzs
    have hdescent := descent_le level.tighter
    simp only [List.length_cons, List.length_append] at hfuel hk
    obtain ⟨k, rfl⟩ : ∃ j, k = j + 1 := ⟨k - 1, by omega⟩
    rw [operands]
    refine .look h (.ite_pos ho ?_)
    refine (meets_shift h (hstart _)).bind fun op' _ ⟨hop', h1⟩ => ?_
    refine (he _ _ h1 (hrest.followed hzs') fuel (by omega)).bind fun e' _ ⟨hbare, h2⟩ => ?_
    refine (hrest.reads xs zs _ h2 hzs' fuel k (by omega) (by omega)).bind
      fun rest' _ ⟨hbares, h3⟩ => .pure ⟨?_, h3⟩
    rw [bareRest, bareRest, hbare, hbares, Token.bare_eq (hop'.trans hlexeme.symm)]

end Rest

/-! ### Arguments -/

section Arguments

variable {e : Expr} {es : List Expr} {ys : List Lexeme}

theorem argumentsReads_nil : ArgumentsReads [] [] := by
  refine ⟨startsWith_nil _, fun zs st h hzs fuel hfuel => ?_⟩
  obtain ⟨fuel, rfl⟩ : ∃ f, fuel = f + 1 := ⟨fuel - 1, by simp at hfuel; omega⟩
  rw [arguments]
  refine .look_head h ?_
  simp only [List.nil_append, hzs, Option.map_some, Terminal.lexeme_terminal]
  exact .pure ⟨rfl, h⟩

theorem argumentsReads_cons (hstart : ∀ zs, Mode.operand.ReadsFirst (xs ++ zs))
    (he : ExprReads (some .comparison) e xs) (hes : ArgumentsReads es ys) :
    ArgumentsReads (e :: es) (Terminal.comma.lexeme :: (xs ++ ys)) := by
  refine ⟨fun x hx => ⟨.comma, by decide, (Option.some.inj hx).symm⟩, fun zs st h hzs fuel hfuel => ?_⟩
  rw [List.cons_append, List.append_assoc] at h
  simp only [List.length_cons, List.length_append] at hfuel
  obtain ⟨fuel, rfl⟩ : ∃ f, fuel = f + 1 := ⟨fuel - 1, by omega⟩
  rw [arguments]
  refine .look h (.ite_pos rfl ?_)
  refine (meets_shift h (hstart _)).bind fun _ _ ⟨_, h1⟩ => ?_
  refine (he _ _ h1 (hes.followed hzs xs) fuel (by simp only [descent]; omega)).bind
    fun e' _ ⟨hbare, h2⟩ => ?_
  refine (hes.reads zs _ h2 hzs fuel (by omega)).bind fun es' _ ⟨hbares, h3⟩ => .pure ⟨?_, h3⟩
  rw [bareAll, bareAll, hbare, hbares]

end Arguments

/-! ### What starts with a name -/

/-- Behind a name the lexemes are read as the rest of the expression. -/
def NamedReads (name : Token) (e : Expr) (xs : List Lexeme) : Prop :=
  ∀ name' zs st, name'.lexeme = name.lexeme → st.Faces (xs ++ zs) → Followed none (name.lexeme :: xs) zs →
    ∀ fuel, 8 * xs.length ≤ fuel → Meets (named name' (fuel + 1)) st (Leaves Expr.bare e.bare zs)

section Named

variable {name : Token} {e : Expr} {es : List Expr} {ys : List Lexeme}

theorem namedReads_name (hterminal : name.terminal = .declaredName) :
    NamedReads name (.name name) [] := by
  intro name' zs st hname h hzs fuel _
  have hother := (hzs.behind_name ⟨name.lexeme, rfl, hterminal⟩).2
  rw [named]
  refine .look_head h ?_
  split
  · next heq =>
    obtain ⟨z, hz, hterminal⟩ := Option.map_eq_some_iff.mp heq
    exact absurd (by simp [hterminal]) (hother z hz)
  · next heq =>
    obtain ⟨z, hz, hterminal⟩ := Option.map_eq_some_iff.mp heq
    exact absurd (by simp [hterminal]) (hother z hz)
  · refine .pure ⟨?_, h⟩
    rw [Expr.bare, Expr.bare, Token.bare_eq hname]

theorem namedReads_emptyCall : NamedReads name (.call name [])
    [Terminal.parenOpen.lexeme, Terminal.parenClose.lexeme] := by
  intro name' zs st hname h hzs fuel _
  have hbehind := hzs.behind_operand (not_endsNamed [_, _] (by decide))
  rw [named]
  refine .look h ((meets_shift h (Mode.first_fixed (by decide) _)).bind fun _ _ ⟨_, h1⟩ => ?_)
  refine .look h1 (.ite_pos rfl ((meets_shift h1 hbehind).bind fun _ _ ⟨_, h2⟩ => .pure ⟨?_, h2⟩))
  rw [Expr.bare, Expr.bare, Token.bare_eq hname]

theorem namedReads_call (hstart : ∃ x xs', xs = x :: xs' ∧ x.StartsOperand)
    (he : ExprReads (some .comparison) e xs) (hes : ArgumentsReads es ys) :
    NamedReads name (.call name (e :: es))
      (Terminal.parenOpen.lexeme :: (xs ++ (ys ++ [Terminal.parenClose.lexeme]))) := by
  intro name' zs st hname h hzs fuel hfuel
  simp only [List.cons_append, List.append_assoc] at h
  simp only [List.length_cons, List.length_append] at hfuel
  have hbehind := hzs.behind_operand (by
    rw [← List.append_assoc xs, ← List.cons_append, ← List.cons_append]
    exact not_endsNamed _ (by decide))
  obtain ⟨x, xs', rfl, hx⟩ := hstart
  have hread : Mode.operandOrClose.Reads x := Mode.reads_operand (by decide) hx
  have hne : x.terminal ≠ .parenClose := ne_of_mem_of_not_mem hx.terminal_mem (by decide)
  rw [named]
  refine .look h ((meets_shift h (hread.first _)).bind fun _ _ ⟨_, h1⟩ => ?_)
  refine .look h1 (.ite_neg (fun heq => hne (Option.some.inj heq)) ?_)
  refine (he _ _ h1 (hes.followed rfl _) fuel (by simp only [descent]; omega)).bind
    fun e' _ ⟨hbare, h2⟩ => ?_
  refine (hes.reads _ _ h2 rfl fuel (by omega)).bind fun es' _ ⟨hbares, h3⟩ => ?_
  refine (meets_expect h3 rfl hbehind).bind fun _ _ ⟨_, h4⟩ => .pure ⟨?_, h4⟩
  rw [Expr.bare, Expr.bare, bareAll, bareAll, hbare, hbares, Token.bare_eq hname]

theorem namedReads_operation {op : Terminal} (hop : OperationReads name op e) :
    NamedReads name e [Terminal.dot.lexeme, op.lexeme, Terminal.parenOpen.lexeme,
      Terminal.parenClose.lexeme] := by
  intro name' zs st hname h hzs fuel _
  have hbehind := hzs.behind_operand (not_endsNamed [_, _, _, _] (by decide))
  rw [named]
  exact .look h ((meets_shift h (hop.behind_dot.first _)).bind fun _ _ ⟨_, h1⟩ =>
    hop.reads hname h1 hbehind)

end Named

/-! ### Factors -/

section Factors

variable {e : Expr} {t : Token}

/-- One step of the recursion is taken off the fuel. -/
theorem exprReads_of_factor (h : ∀ zs st, st.Faces (xs ++ zs) → Followed none xs zs →
    ∀ fuel, 8 * xs.length ≤ fuel → Meets (factor (fuel + 1)) st (Leaves Expr.bare e.bare zs)) :
    ExprReads none e xs := by
  intro zs st hst hzs fuel hfuel
  simp only [descent] at hfuel
  obtain ⟨fuel, rfl⟩ : ∃ f, fuel = f + 1 := ⟨fuel - 1, by omega⟩
  exact h zs st hst hzs fuel (by omega)

/-- A literal is one token, behind which no name ends. -/
theorem exprReads_literal
    (ht : t.IsNumber ∧ e = .number t ∨ t.IsCharacter ∧ e = .character t) :
    ExprReads none e [t.lexeme] := by
  refine exprReads_of_factor fun zs st h hzs fuel _ => ?_
  have hother : t.lexeme.terminal ≠ .declaredName := by
    rw [Token.lexeme_terminal]
    rcases ht with ⟨ht, -⟩ | ⟨ht, -⟩ <;> rw [ht.terminal_eq] <;> decide
  have hbehind := hzs.behind_operand (not_endsNamed [] hother)
  rw [factor]
  refine .look h ?_
  rw [Token.lexeme_terminal]
  rcases ht with ⟨ht, rfl⟩ | ⟨ht, rfl⟩
  all_goals
    rw [ht.terminal_eq]
    refine (meets_shift h hbehind).bind fun t' _ ⟨ht', h'⟩ => .pure ⟨?_, h'⟩
    rw [Expr.bare, Expr.bare, Token.bare_eq ht']

theorem behind_name {op : Terminal} (hop : op ∈ [.parenOpen, .dot]) (zs : List Lexeme) :
    Mode.afterName.ReadsFirst (op.lexeme :: zs) := by
  have hall : ∀ op ∈ [Terminal.parenOpen, .dot], op ∈ Mode.afterName.fixed := by decide
  exact (Mode.reads_fixed (hall op hop)).first zs

theorem exprReads_named (ht : t.IsName)
    (hstart : ∀ zs, Followed none (t.lexeme :: xs) zs → Mode.afterName.ReadsFirst (xs ++ zs))
    (hreads : NamedReads t e xs) : ExprReads none e (t.lexeme :: xs) := by
  refine exprReads_of_factor fun zs st h hzs fuel hfuel => ?_
  rw [List.length_cons] at hfuel
  obtain ⟨fuel, rfl⟩ : ∃ f, fuel = f + 1 := ⟨fuel - 1, by omega⟩
  rw [factor]
  refine .look h ?_
  rw [Token.lexeme_terminal, ht.terminal_eq]
  exact (meets_shift h (hstart zs hzs)).bind fun t' _ ⟨ht', h1⟩ =>
    hreads t' zs _ ht' h1 hzs fuel (by omega)

theorem exprReads_input : ExprReads none .input [Terminal.input.lexeme, Terminal.parenOpen.lexeme,
    Terminal.parenClose.lexeme] := by
  refine exprReads_of_factor fun zs st h hzs fuel _ => ?_
  have hbehind := hzs.behind_operand (not_endsNamed [_, _] (by decide))
  rw [factor]
  exact .look h ((meets_emptyCall h hbehind).bind fun _ _ h' => .pure ⟨rfl, h'⟩)

theorem exprReads_unary (ht : t.IsSign) (hne : xs ≠ [])
    (hstart : ∀ zs, Mode.operand.ReadsFirst (xs ++ zs))
    (he : ExprReads none e xs) : ExprReads none (.unary t e) (t.lexeme :: xs) := by
  refine exprReads_of_factor fun zs st h hzs fuel hfuel => ?_
  rw [List.length_cons] at hfuel
  have hrest : Meets (do
      let sign ← shift .operand
      let operand ← factor fuel
      return Expr.unary sign operand) st (Leaves Expr.bare (Expr.unary t e).bare zs) := by
    refine (meets_shift h (hstart zs)).bind fun t' _ ⟨ht', h1⟩ => ?_
    refine (he zs _ h1 ((followed_append hne [_]).mp hzs) fuel (by simp only [descent]; omega)).bind
      fun e' _ ⟨hbare, h2⟩ => .pure ⟨?_, h2⟩
    rw [Expr.bare, Expr.bare, hbare, Token.bare_eq ht']
  rw [factor]
  refine .look h ?_
  rcases ht with hsign | hsign
  · rw [hsign]
    exact hrest
  · rw [hsign]
    exact hrest

theorem exprReads_parens (hstart : ∀ zs, Mode.operand.ReadsFirst (xs ++ zs))
    (he : ExprReads (some .comparison) e xs) :
    ExprReads none e (Terminal.parenOpen.lexeme :: (xs ++ [Terminal.parenClose.lexeme])) := by
  refine exprReads_of_factor fun zs st h hzs fuel hfuel => ?_
  simp only [List.cons_append, List.append_assoc] at h
  simp only [List.length_cons, List.length_append] at hfuel
  have hbehind := hzs.behind_operand (by
    rw [← List.cons_append]
    exact not_endsNamed _ (by decide))
  rw [factor]
  refine .look h ((meets_shift h (hstart _)).bind fun _ _ ⟨_, h1⟩ => ?_)
  refine (he _ _ h1 (followed_of_closer (t := .parenClose) (by decide) rfl) fuel
    (by simp only [descent]; omega)).bind fun e' _ ⟨hbare, h2⟩ => ?_
  exact (meets_expect h2 rfl hbehind).bind fun _ _ ⟨_, h3⟩ => .pure ⟨hbare, h3⟩

end Factors

/-! ### Chains -/

/-- An operand alone, or the chain it starts. -/
def extend (level : Level) (first : Expr) : List (Token × Expr) → Expr
  | [] => first
  | rest => .chain level first rest

section Chains

variable {level : Level} {first first' e : Expr} {rest rest' : List (Token × Expr)}
  {ys : List Lexeme}

theorem bare_extend (hfirst : first'.bare = first.bare) (hrest : bareRest rest' = bareRest rest) :
    (extend level first' rest').bare = (extend level first rest).bare := by
  cases rest' with
  | nil =>
    cases rest with
    | nil => exact hfirst
    | cons x rest => cases hrest
  | cons x' rest' =>
    cases rest with
    | nil => cases hrest
    | cons x rest => rw [extend, extend, Expr.bare, Expr.bare, hfirst, hrest] <;> simp

theorem meets_chain (hrest : RestReads level rest xs) (h : st.Faces (xs ++ zs)) {front : List Lexeme}
    (hzs : Followed (some level) (front ++ xs) zs) (hfirst : first'.bare = first.bare) {fuel : Nat}
    (hfuel : 8 * xs.length + 1 ≤ fuel) :
    Meets (chain level first' (atLevel level.tighter fuel) fuel) st
      (Leaves Expr.bare (extend level first rest).bare zs) := by
  refine (hrest.reads front zs st h hzs fuel fuel (by omega) (by omega)).bind
    fun rest' _ ⟨hbares, h'⟩ => ?_
  have hbare : (extend level first' rest').bare = (extend level first rest).bare :=
    bare_extend hfirst hbares
  cases rest' with
  | nil => exact .pure ⟨hbare, h'⟩
  | cons x rest' => exact .pure ⟨hbare, h'⟩

/-- An expression of a level other than the loosest: the first operand, and the others behind it. -/
theorem exprReads_extend (hlevel : level ≠ .comparison) (hfirst : ExprReads level.tighter first xs)
    (hrest : RestReads level rest ys) : ExprReads (some level) (extend level first rest) (xs ++ ys) := by
  intro zs st h hzs fuel hfuel
  rw [List.append_assoc] at h
  rw [List.length_append] at hfuel
  obtain ⟨hdescent, hpos⟩ := descent_some level
  obtain ⟨fuel, rfl⟩ : ∃ f, fuel = f + 1 := ⟨fuel - 1, by omega⟩
  have hwhole : Meets (atLevel level.tighter fuel >>= fun first =>
      chain level first (atLevel level.tighter fuel) fuel) st
        (Leaves Expr.bare (extend level first rest).bare zs) :=
    (hfirst _ st h (hrest.followed hzs) fuel (by omega)).bind fun first' _ ⟨hbare, h1⟩ =>
      meets_chain hrest h1 hzs hbare (by omega)
  cases level with
  | comparison => exact absurd rfl hlevel
  | arithmetic =>
    show Meets (arithmetic (fuel + 1)) _ _
    rw [arithmetic]
    exact hwhole
  | term =>
    show Meets (term (fuel + 1)) _ _
    rw [term]
    exact hwhole

end Chains

/-! ## The first factor of an expression -/

/-- Reads on from the first factor to an expression of a level. -/
def onward (first : Expr) (fuel : Nat) : Option Level → Parser Expr
  | none => pure first
  | some .term => chain .term first (factor fuel) fuel
  | some .arithmetic => do
    let t ← chain .term first (factor fuel) fuel
    chain .arithmetic t (term fuel) fuel
  | some .comparison => expressionFrom first (fuel + 1)

theorem onward_some (first : Expr) (fuel : Nat) (level : Level) :
    onward first fuel (some level) =
      onward first fuel level.tighter >>= fun t =>
        chain level t (atLevel level.tighter fuel) fuel := by
  cases level with
  | comparison =>
    show expressionFrom first (fuel + 1) = _
    rw [expressionFrom, Level.tighter, onward, bind_assoc]
    rfl
  | arithmetic => rfl
  | term => exact (pure_bind _ _).symm

/-- Behind the first factor the lexemes are read as the rest of the expression. -/
structure OnwardReads (level : Option Level) (first e : Expr) (xs : List Lexeme) : Prop where
  starts : StartsWith Terminal.binary xs
  reads : ∀ first' front zs st, first'.bare = first.bare → st.Faces (xs ++ zs) →
    Followed level (front ++ xs) zs → ∀ fuel, 8 * xs.length + 1 ≤ fuel →
      Meets (onward first' fuel level) st (Leaves Expr.bare e.bare zs)

/-- The lexemes of an expression, split behind its first factor. -/
structure Split (level : Option Level) (e : Expr) (xs : List Lexeme) where
  first : Expr
  front : List Lexeme
  back : List Lexeme
  append_eq : xs = front ++ back
  written : Phrase.Written (.expr none first) front
  proper : first.Proper
  first_reads : ExprReads none first front
  onward_reads : OnwardReads level first e back

section Split

variable {level : Level} {first e : Expr} {rest : List (Token × Expr)} {ys : List Lexeme}

theorem OnwardReads.followed {level : Option Level} (h : OnwardReads level first e xs)
    {front : List Lexeme} (hzs : Followed level (front ++ xs) zs) : Followed none front (xs ++ zs) := by
  rcases h.starts.cases with rfl | ⟨t, ht, hhead⟩
  · rw [List.append_nil] at hzs
    exact hzs.none
  · exact followed_of_fixed (List.mem_append_left _ ht) List.not_mem_nil (hhead zs)

theorem OnwardReads.append (h : OnwardReads level.tighter first e xs) (hrest : RestReads level rest ys) :
    OnwardReads (some level) first (extend level e rest) (xs ++ ys) := by
  refine ⟨?_, fun first' front zs st hfirst hst hzs fuel hfuel => ?_⟩
  · rcases h.starts.cases with rfl | ⟨t, ht, hhead⟩
    · have hbinary : ∀ level : Level, ∀ t ∈ level.operators, t ∈ Terminal.binary := by
        intro level
        cases level <;> decide
      intro x hx
      obtain ⟨t, ht, hx'⟩ := hrest.starts x hx
      exact ⟨t, hbinary level t ht, hx'⟩
    · intro x hx
      rw [hhead ys] at hx
      exact ⟨t, ht, (Option.some.inj hx).symm⟩
  · rw [List.append_assoc] at hst
    rw [← List.append_assoc] at hzs
    rw [List.length_append] at hfuel
    rw [onward_some]
    exact (h.reads first' front _ st hfirst hst (hrest.followed hzs) fuel (by omega)).bind
      fun e' _ ⟨hbare, h1⟩ => meets_chain hrest h1 hzs hbare (by omega)

/-- A factor is its own first factor. -/
def Split.factor (hxs : Phrase.Written (.expr none e) xs) (he : e.Proper)
    (hreads : ExprReads none e xs) : Split none e xs where
  first := e
  front := xs
  back := []
  append_eq := (List.append_nil xs).symm
  written := hxs
  proper := he
  first_reads := hreads
  onward_reads := by
    exact ⟨startsWith_nil _, fun _ _ _ _ hfirst hst _ _ _ => .pure ⟨hfirst, hst⟩⟩

def Split.extend (h : Split level.tighter e xs) (hrest : RestReads level rest ys) :
    Split (some level) (Parser.extend level e rest) (xs ++ ys) where
  first := h.first
  front := h.front
  back := h.back ++ ys
  append_eq := by rw [← List.append_assoc, ← h.append_eq]
  written := h.written
  proper := h.proper
  first_reads := h.first_reads
  onward_reads := h.onward_reads.append hrest

theorem Split.exprReads (h : Split (some .comparison) e xs) : ExprReads (some .comparison) e xs := by
  intro zs st hst hzs fuel hfuel
  rw [h.append_eq] at hzs
  rw [h.append_eq, List.append_assoc] at hst
  simp only [h.append_eq, List.length_append, descent] at hfuel
  obtain ⟨fuel, rfl⟩ : ∃ f, fuel = f + 2 := ⟨fuel - 2, by omega⟩
  show Meets (expression (fuel + 2)) _ _
  rw [expression]
  have hfollowed := h.onward_reads.followed hzs
  exact (h.first_reads _ st hst hfollowed (fuel + 1) (by simp only [descent]; omega)).bind
    fun first' _ ⟨hbare, h1⟩ => h.onward_reads.reads first' _ zs _ hbare h1 hzs fuel (by omega)

end Split

/-! ## Every written expression is read -/

/-- What is proved of a phrase by induction over the way it is written. -/
def Reads (xs : List Lexeme) : Phrase → Prop
  | .expr level e => e.Proper → ExprReads level e xs ∧ Nonempty (Split level e xs)
  | .rest level rest => ProperRest level rest → RestReads level rest xs
  | .arguments es => ProperAll es → ArgumentsReads es xs

theorem reads_factor {e : Expr} (hxs : Phrase.Written (.expr none e) xs)
    (hreads : e.Proper → ExprReads none e xs) : Reads xs (.expr none e) :=
  fun he => ⟨hreads he, ⟨.factor hxs he (hreads he)⟩⟩

theorem reads_extend {level : Level} {first e : Expr} {rest : List (Token × Expr)}
    {ys : List Lexeme} (he : e = extend level first rest)
    (hfirst : ExprReads level.tighter first xs ∧ Nonempty (Split level.tighter first xs))
    (hrest : RestReads level rest ys) :
    ExprReads (some level) e (xs ++ ys) ∧ Nonempty (Split (some level) e (xs ++ ys)) := by
  subst he
  obtain ⟨hreads, ⟨hsplit⟩⟩ := hfirst
  have hsplit' := hsplit.extend hrest
  refine ⟨?_, ⟨hsplit'⟩⟩
  by_cases hlevel : level = .comparison
  · subst hlevel
    exact hsplit'.exprReads
  · exact exprReads_extend hlevel hreads hrest

theorem reads_written {p : Phrase} (h : p.Written xs) : Reads xs p := by
  induction h with
  | number t =>
    refine reads_factor (.number t) fun he => ?_
    rw [Expr.Proper] at he
    exact exprReads_literal (.inl ⟨he, rfl⟩)
  | character t =>
    refine reads_factor (.character t) fun he => ?_
    rw [Expr.Proper] at he
    exact exprReads_literal (.inr ⟨he, rfl⟩)
  | name t =>
    refine reads_factor (.name t) fun he => ?_
    rw [Expr.Proper] at he
    exact exprReads_named he (fun _ hzs => (hzs.behind_name ⟨t.lexeme, rfl, he.terminal_eq⟩).1)
      (namedReads_name he.terminal_eq)
  | emptyCall f =>
    refine reads_factor (.emptyCall f) fun he => ?_
    rw [Expr.Proper] at he
    exact exprReads_named he.1 (fun _ _ => behind_name (by decide) _) namedReads_emptyCall
  | call f ha has iha ihas =>
    refine reads_factor (.call f ha has) fun he => ?_
    rw [Expr.Proper, ProperAll] at he
    exact exprReads_named he.1 (fun _ _ => behind_name (by decide) _)
      (namedReads_call (ha.exists_start rfl he.2.1) (iha he.2.1).1 (ihas he.2.2))
  | peek t =>
    refine reads_factor (.peek t) fun he => ?_
    rw [Expr.Proper] at he
    exact exprReads_named he (fun _ _ => behind_name (by decide) _)
      (namedReads_operation (operationReads_peek t))
  | pop t =>
    refine reads_factor (.pop t) fun he => ?_
    rw [Expr.Proper] at he
    exact exprReads_named he (fun _ _ => behind_name (by decide) _)
      (namedReads_operation (operationReads_pop t))
  | input => exact reads_factor .input fun _ => exprReads_input
  | unary sign hxs ih =>
    refine reads_factor (.unary sign hxs) fun he => ?_
    rw [Expr.Proper] at he
    exact exprReads_unary he.1 (hxs.ne_nil he.2) (Mode.readsFirst_written (by decide) hxs he.2)
      (ih he.2).1
  | parens hxs ih =>
    refine reads_factor (.parens hxs) fun he => ?_
    exact exprReads_parens (Mode.readsFirst_written (by decide) hxs he) (ih he).1
  | alone _ ih =>
    intro he
    have hreads := reads_extend rfl (ih he) (restReads_nil _)
    rwa [List.append_nil] at hreads
  | chain _ _ ihfirst ihrest =>
    intro he
    rw [Expr.Proper] at he
    obtain ⟨x, rest, rfl⟩ := List.exists_cons_of_ne_nil he.2.1
    exact reads_extend rfl (ihfirst he.1) (ihrest he.2.2)
  | restNil level => exact fun _ => restReads_nil level
  | restCons op hxs _ ihe ihrest =>
    intro hrest
    rw [ProperRest] at hrest
    exact restReads_cons hrest.1 (hxs.ne_nil hrest.2.1)
      (Mode.readsFirst_written (by decide) hxs hrest.2.1) (ihe hrest.2.1).1 (ihrest hrest.2.2)
  | argumentsNil => exact fun _ => argumentsReads_nil
  | argumentsCons hxs _ ihe ihes =>
    intro hes
    rw [ProperAll] at hes
    exact argumentsReads_cons (Mode.readsFirst_written (by decide) hxs hes.1)
      (ihe hes.1).1 (ihes hes.2)

end Parser

end TapeScript
