import Mathlib.Tactic.Ring
import TapeScript.Proofs.Lowering
import TapeScript.Tape.Machine

set_option autoImplicit false

/-! # Quotients of constants

A quotient of constants is rounded to 53 binary digits before it is cut to an integer, so a quotient just
below an integer could be rounded up to it. For a dividend below `2 ^ 53` it is not: the distance to the
integer is at least `1 / d` for a divisor `d`, and the digits kept are finer than that
(`Number.floor_rounded`). Constants of a script have few enough digits to be written out
(`SourceLower.writable_of_expr`), so nothing else can go wrong.
-/

namespace TapeScript

namespace Number

variable {n d : Nat}

/-- A rounded quotient is too large by at most a half. -/
theorem roundDiv_mul_le (hd : 0 < d) : 2 * (roundDiv n d * d) ≤ 2 * n + d := by
  have hsplit := Nat.div_add_mod' n d
  have hlt := Nat.mod_lt n hd
  have hnext : (n / d + 1) * d = n / d * d + d := Nat.succ_mul _ _
  unfold roundDiv
  dsimp only
  split_ifs <;> omega

theorem div_le_roundDiv (n d : Nat) : n / d ≤ roundDiv n d := by
  unfold roundDiv
  dsimp only
  split_ifs <;> omega

/-- With digits finer than the divisor, no quotient is rounded up to the next integer. -/
theorem floor_rounded {places : Nat} (hd : 0 < d) (hfine : d < 2 ^ (places + 1)) :
    roundDiv (n * 2 ^ places) d / 2 ^ places = n / d := by
  have hpos : 0 < 2 ^ places := Nat.two_pow_pos places
  refine Nat.le_antisymm (Nat.le_of_lt_succ ?_) ?_
  · rw [Nat.div_lt_iff_lt_mul hpos]
    by_contra hup
    have hnext : n + 1 ≤ (n / d + 1) * d := by
      have := Nat.lt_div_mul_add (a := n) hd
      rw [Nat.succ_mul]
      omega
    have hclose : 2 * (2 ^ places * (n + 1)) ≤ 2 * (n * 2 ^ places) + d :=
      calc 2 * (2 ^ places * (n + 1)) ≤ 2 * (2 ^ places * ((n / d + 1) * d)) :=
            Nat.mul_le_mul_left _ (Nat.mul_le_mul_left _ hnext)
        _ = 2 * ((n / d + 1) * 2 ^ places * d) := by ring
        _ ≤ 2 * (roundDiv (n * 2 ^ places) d * d) :=
            Nat.mul_le_mul_left _ (Nat.mul_le_mul_right _ (Nat.le_of_not_lt hup))
        _ ≤ 2 * (n * 2 ^ places) + d := roundDiv_mul_le hd
    have hapart : 2 * (2 ^ places * (n + 1)) = 2 * (n * 2 ^ places) + 2 ^ (places + 1) := by ring
    omega
  · rw [Nat.le_div_iff_mul_le hpos]
    calc n / d * 2 ^ places = 2 ^ places * (n / d) := Nat.mul_comm _ _
      _ ≤ 2 ^ places * n / d := Nat.mul_div_le_mul_div_assoc _ _ _
      _ = n * 2 ^ places / d := by rw [Nat.mul_comm]
      _ ≤ roundDiv (n * 2 ^ places) d := div_le_roundDiv _ _

/-- A quotient reaches the power of two that its exponent stands for. -/
theorem quotientExponent_reached (hn : 0 < n) :
    d * 2 ^ (quotientExponent n d).toNat ≤ n * 2 ^ (-quotientExponent n d).toNat := by
  have hlow : 2 ^ n.log2 ≤ n := Nat.log2_self_le (by omega)
  have hhigh : d ≤ 2 ^ (d.log2 + 1) := Nat.le_of_lt Nat.lt_log2_self
  unfold quotientExponent
  dsimp only
  generalize hk : (n.log2 : Int) - d.log2 = k
  split_ifs with hsign hbelow hbelow
  -- the first guess is one too high
  case pos | pos =>
    calc d * 2 ^ (k - 1).toNat ≤ 2 ^ (d.log2 + 1) * 2 ^ (k - 1).toNat := Nat.mul_le_mul_right _ hhigh
      _ = 2 ^ n.log2 * 2 ^ (-(k - 1)).toNat := by
          rw [← Nat.pow_add, ← Nat.pow_add]
          congr 1
          omega
      _ ≤ n * 2 ^ (-(k - 1)).toNat := Nat.mul_le_mul_right _ hlow
  · have hzero : (-k).toNat = 0 := by omega
    simp only [decide_eq_true_eq, Nat.not_lt] at hbelow
    rwa [hzero, Nat.pow_zero, Nat.mul_one]
  · have hzero : k.toNat = 0 := by omega
    simp only [decide_eq_true_eq, Nat.not_lt] at hbelow
    rwa [hzero, Nat.pow_zero, Nat.mul_one]

/-- The nearest quotient of a dividend below `2 ^ 53` has the integer part of the quotient. -/
theorem floor_nearestQuotient (hn : 0 < n) (hlt : n < 2 ^ 53) (hd : 0 < d) :
    quotientExponent n d ≤ 52 ∧ (nearestQuotient n d).floor = n / d := by
  have hreached := quotientExponent_reached (d := d) hn
  unfold nearestQuotient
  generalize quotientExponent n d = k at *
  have hk : k ≤ 52 := by
    by_contra hlarge
    have hzero : (-k).toNat = 0 := by omega
    have hpow : 2 ^ 53 ≤ 2 ^ k.toNat := Nat.pow_le_pow_right (by decide) (by omega)
    have hmul : 2 ^ k.toNat ≤ d * 2 ^ k.toNat := Nat.le_mul_of_pos_left _ hd
    rw [hzero, Nat.pow_zero, Nat.mul_one] at hreached
    omega
  refine ⟨hk, ?_⟩
  have hfine : d < 2 ^ ((52 - k).toNat + 1) := by
    by_contra hcoarse
    have hmul : 2 ^ 53 * 2 ^ (-k).toNat ≤ n * 2 ^ (-k).toNat :=
      calc 2 ^ 53 * 2 ^ (-k).toNat = 2 ^ ((52 - k).toNat + 1) * 2 ^ k.toNat := by
            rw [← Nat.pow_add, ← Nat.pow_add]
            congr 1
            omega
        _ ≤ d * 2 ^ k.toNat := Nat.mul_le_mul_right _ (Nat.le_of_not_lt hcoarse)
        _ ≤ n * 2 ^ (-k).toNat := hreached
    exact absurd (Nat.le_of_mul_le_mul_right hmul (Nat.two_pow_pos _)) (by omega)
  rw [← floor_rounded hd hfine]
  unfold Binary.floor
  dsimp only
  split_ifs with hsign
  -- no digits behind the point
  · obtain rfl : k = 52 := by omega
    simp
  · rw [show -(k - 52) = 52 - k by omega]

/-- A quotient cut toward zero, by absolute values and signs. -/
theorem tdiv_eq_natAbs {a b : Int} (ha : a ≠ 0) (hb : b ≠ 0) :
    a.tdiv b = if decide (a < 0) = decide (b < 0) then ((a.natAbs / b.natAbs : Nat) : Int)
      else -((a.natAbs / b.natAbs : Nat) : Int) := by
  obtain ⟨n, rfl | rfl⟩ := a.eq_nat_or_neg <;> obtain ⟨d, rfl | rfl⟩ := b.eq_nat_or_neg
  · rw [if_pos (by simp; omega), Int.natAbs_natCast, Int.natAbs_natCast, Int.ofNat_tdiv]
  · rw [if_neg (by simp; omega), Int.natAbs_neg, Int.natAbs_natCast, Int.natAbs_natCast, Int.tdiv_neg,
      Int.ofNat_tdiv]
  · rw [if_neg (by simp; omega), Int.natAbs_neg, Int.natAbs_natCast, Int.natAbs_natCast, Int.neg_tdiv,
      Int.ofNat_tdiv]
  · rw [if_pos (by simp; omega), Int.natAbs_neg, Int.natAbs_neg, Int.natAbs_natCast,
      Int.natAbs_natCast, Int.neg_tdiv, Int.tdiv_neg, Int.neg_neg, Int.ofNat_tdiv]

/-- Below `2 ^ 53` the rounded quotient, cut to an integer, is the quotient cut to an integer. -/
theorem truncatedQuotient?_eq {a b : Int} (hb : b ≠ 0) (ha : a.natAbs < 2 ^ 53) :
    truncatedQuotient? a b = some (a.tdiv b) := by
  unfold truncatedQuotient?
  by_cases hzero : a = 0
  · rw [if_pos hzero, hzero, Int.zero_tdiv]
  obtain ⟨hexponent, hfloor⟩ := floor_nearestQuotient (n := a.natAbs) (d := b.natAbs) (by omega) ha
    (by omega)
  obtain ⟨k, hk, hlimit⟩ : ∃ k, 53 ≤ k ∧ 2 ^ k = binaryLimit := ⟨1024, by decide, by rw [binaryLimit]⟩
  have hsmall : a.natAbs / b.natAbs < binaryLimit :=
    calc a.natAbs / b.natAbs ≤ a.natAbs := Nat.div_le_self _ _
      _ < 2 ^ 53 := ha
      _ ≤ 2 ^ k := Nat.pow_le_pow_right (by decide) hk
      _ = binaryLimit := hlimit
  rw [if_neg hzero, tdiv_eq_natAbs hzero hb]
  simp only [hfloor, if_neg (Int.not_le.mpr (Int.lt_of_le_of_lt hexponent (by decide : (52 : Int) < 1024))),
    if_neg (Nat.not_le_of_lt hsmall)]
  split <;> rfl

end Number

/-! ## Constants of a script -/

namespace Text

theorem decimalValue?_lt {c : Char} {d : Nat} (h : decimalValue? c = some d) : d < 10 := by
  obtain ⟨start, hfound, rfl⟩ := Option.map_eq_some_iff.mp h
  have hrange := List.find?_some hfound
  simp only [Bool.and_eq_true, decide_eq_true_eq] at hrange
  omega

/-- What has been read grows by a factor of ten with each digit. -/
theorem digitsFrom_lt {value n : Nat} {afterDigit : Bool} {s : List Char}
    (h : digitsFrom value afterDigit s = some n) :
    n < (value + 1) * 10 ^ (s.filter (· ≠ '_')).length := by
  induction s generalizing value afterDigit with
  | nil =>
      rw [digitsFrom] at h
      split_ifs at h
      obtain rfl := Option.some.inj h
      simp
  | cons c rest ih =>
      rw [digitsFrom] at h
      split_ifs at h with hc
      · simpa [hc] using ih h
      · cases hd : decimalValue? c with
        | none => simp [hd] at h
        | some d =>
            have hlt := decimalValue?_lt hd
            rw [hd] at h
            rw [List.filter_cons_of_pos (by simpa using hc), List.length_cons, Nat.pow_succ']
            calc n < (value * 10 + d + 1) * 10 ^ (rest.filter (· ≠ '_')).length := ih h
              _ ≤ (value + 1) * 10 * 10 ^ (rest.filter (· ≠ '_')).length :=
                  Nat.mul_le_mul_right _ (by omega)
              _ = _ := Nat.mul_assoc _ _ _

/-- A number that is read has no more digits than the limit. -/
theorem natAbs_integer?_lt {s : List Char} {v : Int} (h : integer? s = some v) :
    v.natAbs < 10 ^ digitLimit := by
  have hbound : ∀ {digits : List Char} {n : Nat}, ¬ digitLimit < (digits.filter (· ≠ '_')).length →
      digitsFrom 0 false digits = some n → n < 10 ^ digitLimit := by
    intro digits n hshort hdigits
    calc n < 1 * 10 ^ (digits.filter (· ≠ '_')).length := digitsFrom_lt hdigits
      _ = 10 ^ (digits.filter (· ≠ '_')).length := Nat.one_mul _
      _ ≤ 10 ^ digitLimit := Nat.pow_le_pow_right (by decide) (Nat.le_of_not_lt hshort)
  unfold integer? at h
  dsimp only at h
  split_ifs at h with hshort hnegative
  all_goals
    obtain ⟨_, hread, rfl⟩ := Option.map_eq_some_iff.mp h
    obtain ⟨n, hdigits, hn⟩ := Option.bind_eq_some_iff.mp hread
    obtain rfl := Option.some.inj hn
    simpa using hbound hshort hdigits

end Text

namespace Lower

variable {v : Int}

theorem writable_neg (h : writable v = true) : writable (-v) = true := by
  rwa [writable, Int.natAbs_neg]

theorem writable_of_lt (h : v.natAbs < 2 ^ 53) : writable v = true := by
  have hlimit : 10 ^ 16 ≤ 10 ^ Text.digitLimit := Nat.pow_le_pow_right (by decide) (by decide)
  exact decide_eq_true (by omega)

theorem writable_number {text : String} (h : Literal.number text = .ok v) : writable v = true := by
  unfold Literal.number at h
  split at h
  · next n hread =>
    cases h
    exact decide_eq_true (Text.natAbs_integer?_lt hread)
  · cases h

theorem writable_codePoint (c : Char) : writable (c.toNat : Int) = true := by
  refine writable_of_lt (v := c.toNat) ?_
  rw [Int.natAbs_natCast]
  rcases c.valid with hlow | ⟨-, hhigh⟩
  · exact Nat.lt_trans hlow (by decide)
  · exact Nat.lt_trans hhigh (by decide)

theorem writable_defineValue {value : String} (h : Literal.defineValue value = .ok v) :
    writable v = true := by
  unfold Literal.defineValue at h
  dsimp only at h
  split_ifs at h
  · exact writable_number h
  · split at h
    · cases h
      exact writable_codePoint _
    · cases h

/-- If the node is a constant, it can be written out. -/
def IsWritable (n : Node) : Prop := ∀ v ready, n = .constant v ready → writable v = true

variable {s s' : Session} {n : Node}

theorem isWritable_combine {level : Level} {left right : Node} {op : String}
    (h : Gives (combine level left op right) s n s') : IsWritable n := by
  rintro v ready rfl
  obtain ⟨a, b, _, -, -, -, -, hwritable, heq, -⟩ | ⟨-, -, -, heq, -⟩ := gives_combine.mp h
  · cases heq
    simp only [Bool.and_eq_true] at hwritable
    exact hwritable.2
  · cases heq

theorem isWritable_chain {level : Level} {rest : List (String × Node)} {first : Node}
    (hfirst : IsWritable first) (h : Gives (chain level first rest) s n s') : IsWritable n := by
  induction rest generalizing first s with
  | nil =>
      obtain ⟨rfl, -⟩ := gives_pure.mp h
      exact hfirst
  | cons operand rest ih =>
      unfold chain at h
      rw [List.foldlM_cons] at h
      obtain ⟨left, s1, hleft, hrest⟩ := gives_bind.mp h
      exact ih (isWritable_combine hleft) hrest

end Lower

namespace SourceLower

open Lower

variable {s s' : Session} {n : Node}

/-- Every constant that an expression is lowered to can be written out. -/
theorem isWritable_expr : ∀ {e : Expr} {s s' : Session} {n : Node}, Gives (expr e) s n s' → IsWritable n
  | .number t, s, s', n, h => by
      rw [expr, gives_during] at h
      obtain ⟨v, hv, rfl, -⟩ := gives_number.mp h
      rintro _ _ ⟨⟩
      exact writable_number hv
  | .character t, s, s', n, h => by
      rw [expr, gives_during] at h
      obtain ⟨c, -, rfl, -⟩ := gives_character.mp h
      rintro _ _ ⟨⟩
      exact writable_codePoint c
  | .name t, s, s', n, h => by
      rw [expr, declaredName, gives_during] at h
      obtain ⟨value, v, -, hv, rfl, -⟩ | ⟨-, sym, -, -, rfl, -⟩ := gives_declaredName.mp h
      · rintro _ _ ⟨⟩
        exact writable_defineValue hv
      · rintro _ _ ⟨⟩
  | .unary sign operand, s, s', n, h => by
      simp only [expr, gives_bind, gives_during] at h
      obtain ⟨m, s1, -, h⟩ := h
      obtain ⟨v, -, -, hv, rfl, -⟩ | ⟨-, rfl, -⟩ := gives_unary.mp h
      · rintro _ _ ⟨⟩
        split
        · exact writable_neg hv
        · exact hv
      · rintro _ _ ⟨⟩
  | .chain level first rest, s, s', n, h => by
      simp only [expr, gives_bind, gives_during] at h
      obtain ⟨m, s1, hfirst, ns, s2, -, h⟩ := h
      exact isWritable_chain (isWritable_expr hfirst) h
  | .input, s, s', n, h => by
      obtain ⟨rfl, -⟩ := gives_pure.mp h
      rintro _ _ ⟨⟩
  | .call f [], s, s', n, h | .call f (a :: as), s, s', n, h | .peek t, s, s', n, h
  | .pop t, s, s', n, h => by
      simp [expr, gives_bind, gives_during, unsupported] at h

/-- Folding `a / b` gives `q`: so does the operator, and so does every script that has a slash between two
expressions that come to `a` and `b`. -/
def FoldsQuotient (a b q : Int) : Prop :=
  foldValue "/" a b = .ok q ∧
  ∀ (e1 e2 : Expr) (slash : Token) (s s1 s2 : Session) (ready1 ready2 : Bool), slash.text = "/" →
    Gives (expr e1) s (.constant a ready1) s1 → Gives (expr e2) s1 (.constant b ready2) s2 →
    ∃ s', Gives (expr (.chain .term e1 [(slash, e2)])) s (.constant q true) s'

theorem foldsQuotient_tdiv {a b : Int} (hb : b ≠ 0) (ha : a.natAbs < 2 ^ 53) :
    FoldsQuotient a b (a.tdiv b) := by
  have hfold : foldValue "/" a b = .ok (a.tdiv b) := by
    simp [foldValue, hb, Number.truncatedQuotient?_eq hb ha]
  refine ⟨hfold, fun e1 e2 slash s s1 s2 ready1 ready2 hslash hleft hright => ?_⟩
  have hsmall : (a.tdiv b).natAbs ≤ a.natAbs := by
    rw [Int.natAbs_tdiv]
    exact Nat.div_le_self _ _
  have hwritable : (writable a && writable b && writable (a.tdiv b)) = true := by
    rw [isWritable_expr hleft _ _ rfl, isWritable_expr hright _ _ rfl, writable_of_lt (by omega)]
    rfl
  have hchain : Gives (chain .term (.constant a ready1) [(slash.text, .constant b ready2)]) s2
      (.constant (a.tdiv b) true) (s2.note (folded "/" a b (a.tdiv b))) := by
    unfold chain
    rw [List.foldlM_cons, hslash]
    exact gives_bind.mpr ⟨_, _, gives_combine.mpr (.inl ⟨a, b, _, rfl, rfl, rfl, hfold, hwritable, rfl, rfl⟩),
      gives_pure.mpr ⟨rfl, rfl⟩⟩
  simp only [expr, operands, gives_bind, gives_pure, gives_during]
  exact ⟨_, _, _, hleft, _, _, ⟨_, _, hright, _, _, ⟨rfl, rfl⟩, rfl, rfl⟩, hchain⟩

/-- **Where a folded quotient is not the exact one, cut toward zero, the dividend is at least `2 ^ 53`.** So
quotients of numbers that fit in a cell of 32 bits are exact. -/
theorem quotients_exact_below {a b : Int} (hb : b ≠ 0) :
    (¬ FoldsQuotient a b (a.tdiv b) → 2 ^ 53 ≤ a.natAbs) ∧
    (0 ≤ a → a < Width.w32.modulus → FoldsQuotient a b (a.tdiv b)) := by
  refine ⟨fun hdiffers => ?_, fun hnonneg hlt => ?_⟩
  · by_contra hsmall
    exact hdiffers (foldsQuotient_tdiv hb (by omega))
  · have hmodulus : Width.w32.modulus < 2 ^ 53 := by decide
    exact foldsQuotient_tdiv hb (by omega)

-- the bound is sharp
example : foldValue "/" (2 ^ 53 + 1) 1 = .ok (2 ^ 53) := by decide +kernel

/-- A quotient of a negative number is cut toward zero. -/
theorem quotients_exact_below_negative : (2 : Int) ≠ 0 ∧ FoldsQuotient (-7) 2 (-3) := by
  refine ⟨by decide, ?_⟩
  by_contra hdiffers
  exact absurd ((quotients_exact_below (by decide)).1 hdiffers) (by decide)

end SourceLower

end TapeScript
