import NxTinygrad.Lib.Nearest
import NxTinygrad.Lib.BigEndian

/- Binary interchange formats. A number is a sign and a code; the codes of a format count the magnitudes
   upwards from 0, infinity comes after the largest and the NaNs after infinity. -/
namespace Ieee

structure Format where
  exponent : ℕ
  fraction : ℕ
  bytes : ℕ
  two_exponents : 2 ≤ exponent
  some_fraction : 0 < fraction
  whole : 1 + exponent + fraction = 8 * bytes

def Format.codes (F : Format) : ℕ := 2 ^ F.exponent * 2 ^ F.fraction

def Format.infinity (F : Format) : ℕ := (2 ^ F.exponent - 1) * 2 ^ F.fraction

def Format.least (F : Format) : ℤ := 2 - 2 ^ (F.exponent - 1)

structure Number (F : Format) where
  sign : Bool
  code : Fin F.codes
  deriving DecidableEq

variable {F : Format}

namespace Number

def isNan (x : Number F) : Bool := F.infinity < x.code.val

def isInfinite (x : Number F) : Bool := x.code.val = F.infinity

def isFinite (x : Number F) : Bool := x.code.val < F.infinity

def isZero (x : Number F) : Bool := x.code.val = 0

def isQuiet (x : Number F) : Bool := F.infinity + 2 ^ (F.fraction - 1) ≤ x.code.val

end Number

def Format.magnitude (F : Format) (c : ℕ) : ℚ :=
  if c < 2 ^ F.fraction then c * 2 ^ (F.least - F.fraction)
  else (2 ^ F.fraction + c % 2 ^ F.fraction : ℕ) *
    2 ^ ((c / 2 ^ F.fraction : ℕ) - 1 + F.least - F.fraction)

def Number.value (x : Number F) : ℚ := if x.sign then -F.magnitude x.code else F.magnitude x.code

/-- The exponent that decides the last place of the numbers next to `q`. -/
def Format.binade (F : Format) (q : ℚ) : ℤ := max (Int.log 2 q) F.least

/-- The code next to `q`. Past the largest fraction of a binade, counting on gives the next binade. -/
def Format.nearest (F : Format) (q : ℚ) : ℕ :=
  min F.infinity ((F.binade q - F.least).toNat * 2 ^ F.fraction +
    (Nearest.integer (q / 2 ^ (F.binade q - F.fraction))).toNat)

theorem infinity_lt (F : Format) : F.infinity < F.codes :=
  Nat.mul_lt_mul_of_pos_right (Nat.sub_lt (Nat.two_pow_pos _) Nat.one_pos) (Nat.two_pow_pos _)

def zero (F : Format) (sign : Bool) : Number F :=
  ⟨sign, ⟨0, Nat.lt_of_le_of_lt (Nat.zero_le _) (infinity_lt F)⟩⟩

def infinite (F : Format) (sign : Bool) : Number F := ⟨sign, ⟨F.infinity, infinity_lt F⟩⟩

/-- The number nearest to `q`, to the even one on a tie; `sign` is that of an exact 0. -/
def round (F : Format) (sign : Bool) (q : ℚ) : Number F :=
  if q = 0 then zero F sign
  else ⟨decide (q < 0), ⟨F.nearest |q|, Nat.lt_of_le_of_lt (Nat.min_le_left _ _) (infinity_lt F)⟩⟩

theorem quieted_lt (x : Number F) (loud : ¬ F.infinity + 2 ^ (F.fraction - 1) ≤ x.code.val) :
    x.code.val + 2 ^ (F.fraction - 1) < F.codes := by
  have half : 2 * 2 ^ (F.fraction - 1) = 2 ^ F.fraction := by
    rw [← pow_succ', Nat.sub_add_cancel F.some_fraction]
  have all : F.infinity + 2 ^ F.fraction = F.codes := by
    have pos := Nat.two_pow_pos F.exponent
    rw [Format.infinity, Format.codes, ← Nat.succ_mul, Nat.succ_eq_add_one, Nat.sub_add_cancel pos]
  omega

def quieted (x : Number F) : Number F :=
  if loud : F.infinity + 2 ^ (F.fraction - 1) ≤ x.code.val then x
  else ⟨x.sign, ⟨x.code.val + 2 ^ (F.fraction - 1), quieted_lt x loud⟩⟩

/-- What the standard leaves open: the NaN an invalid operation makes, and which NaN is passed on when both
    operands are one. A single NaN operand is passed on, made quiet. -/
structure Propagation (F : Format) where
  invalid : Number F
  both : Number F → Number F → Number F
  invalid_quiet : invalid.isQuiet = true

variable (P : Propagation F)

def Propagation.nan (x y : Number F) : Number F :=
  if x.isNan then if y.isNan then P.both x y else quieted x else quieted y

def add (x y : Number F) : Number F :=
  if x.isNan || y.isNan then P.nan x y
  else if x.isInfinite then if y.isInfinite && x.sign != y.sign then P.invalid else x
  else if y.isInfinite then y
  else round F (x.sign && y.sign) (x.value + y.value)

def sub (x y : Number F) : Number F :=
  if x.isNan || y.isNan then P.nan x y else add P x ⟨!y.sign, y.code⟩

def mul (x y : Number F) : Number F :=
  if x.isNan || y.isNan then P.nan x y
  else if x.isInfinite || y.isInfinite then
    if x.isZero || y.isZero then P.invalid else infinite F (x.sign != y.sign)
  else round F (x.sign != y.sign) (x.value * y.value)

theorem one_lt (F : Format) : (2 ^ (F.exponent - 1) - 1) * 2 ^ F.fraction < F.codes := by
  have less : 2 ^ (F.exponent - 1) - 1 < 2 ^ F.exponent :=
    lt_of_le_of_lt (Nat.sub_le _ _) (Nat.pow_lt_pow_right one_lt_two (Nat.sub_lt (by
      have := F.two_exponents
      omega) Nat.one_pos))
  exact Nat.mul_lt_mul_of_pos_right less (Nat.two_pow_pos _)

def one (F : Format) : Number F := ⟨false, ⟨(2 ^ (F.exponent - 1) - 1) * 2 ^ F.fraction, one_lt F⟩⟩

structure ComplexNumber (F : Format) where
  re : Number F
  im : Number F
  deriving DecidableEq

def ComplexNumber.mul (a b : ComplexNumber F) : ComplexNumber F where
  re := sub P (Ieee.mul P a.re b.re) (Ieee.mul P a.im b.im)
  im := add P (Ieee.mul P a.re b.im) (Ieee.mul P a.im b.re)

def ComplexNumber.add (a b : ComplexNumber F) : ComplexNumber F :=
  ⟨Ieee.add P a.re b.re, Ieee.add P a.im b.im⟩

/-! Rounding keeps what is a number already. -/

theorem fraction_cast (F : Format) : ((2 ^ F.fraction : ℕ) : ℚ) = 2 ^ (F.fraction : ℤ) := by
  rw [zpow_natCast]
  push_cast
  rfl

theorem magnitude_zero (F : Format) : F.magnitude 0 = 0 := by
  simp [Format.magnitude]

theorem magnitude_pos {c : ℕ} (some : 0 < c) : 0 < F.magnitude c := by
  unfold Format.magnitude
  split
  · exact mul_pos (Nat.cast_pos.mpr some) (zpow_pos two_pos _)
  · exact mul_pos (Nat.cast_pos.mpr (Nat.add_pos_left (Nat.two_pow_pos _) _)) (zpow_pos two_pos _)

theorem nearest_low {c : ℕ} (some : 0 < c) (low : c < 2 ^ F.fraction) (finite : c < F.infinity) :
    F.nearest (F.magnitude c) = c := by
  have value : F.magnitude c = c * 2 ^ (F.least - F.fraction) := by rw [Format.magnitude, if_pos low]
  have pos : 0 < F.magnitude c := magnitude_pos some
  have below : F.magnitude c < 2 ^ F.least := by
    calc F.magnitude c = c * 2 ^ (F.least - F.fraction) := value
      _ < (2 ^ F.fraction : ℕ) * 2 ^ (F.least - F.fraction) :=
        mul_lt_mul_of_pos_right (Nat.cast_lt.mpr low) (zpow_pos two_pos _)
      _ = 2 ^ F.least := by
        rw [fraction_cast, ← zpow_add₀ two_ne_zero]
        congr 1
        ring
  have log := (Int.lt_zpow_iff_log_lt one_lt_two pos).mp (by exact_mod_cast below)
  have binade : F.binade (F.magnitude c) = F.least := max_eq_right log.le
  have units : F.magnitude c / 2 ^ (F.least - F.fraction) = ((c : ℤ) : ℚ) := by
    rw [value, mul_div_cancel_right₀ _ (zpow_pos two_pos _).ne', Int.cast_natCast]
  rw [Format.nearest, binade, units, Nearest.integer_int]
  simp only [sub_self, Int.toNat_zero, Nat.zero_mul, Int.toNat_natCast, Nat.zero_add]
  exact Nat.min_eq_right finite.le

theorem nearest_high {c : ℕ} (high : ¬ c < 2 ^ F.fraction) (finite : c < F.infinity) :
    F.nearest (F.magnitude c) = c := by
  obtain ⟨k, split⟩ : ∃ k, c / 2 ^ F.fraction = k + 1 :=
    Nat.exists_eq_succ_of_ne_zero (Nat.div_pos (not_lt.mp high) (Nat.two_pow_pos _)).ne'
  have rest : c % 2 ^ F.fraction < 2 ^ F.fraction := Nat.mod_lt _ (Nat.two_pow_pos _)
  generalize part : c % 2 ^ F.fraction = r at rest
  have value : F.magnitude c = (2 ^ F.fraction + r : ℕ) * 2 ^ (k + F.least - F.fraction) := by
    rw [Format.magnitude, if_neg high, split, part]
    congr 2
    push_cast
    ring
  have index : (2 : ℚ) ^ (F.fraction : ℤ) * 2 ^ (k + F.least - F.fraction) = 2 ^ (k + F.least) := by
    rw [← zpow_add₀ two_ne_zero]
    congr 1
    ring
  have unit_pos : (0 : ℚ) < 2 ^ (k + F.least - F.fraction) := zpow_pos two_pos _
  have least : (2 : ℚ) ^ (k + F.least) ≤ F.magnitude c := by
    rw [← index, value, ← fraction_cast]
    exact mul_le_mul_of_nonneg_right (Nat.cast_le.mpr (Nat.le_add_right _ _)) unit_pos.le
  have most : F.magnitude c < 2 ^ (k + F.least + 1) := by
    rw [zpow_add_one₀ two_ne_zero, ← index, value, ← fraction_cast, mul_right_comm]
    refine mul_lt_mul_of_pos_right ?_ unit_pos
    rw [mul_two, ← Nat.cast_add]
    exact Nat.cast_lt.mpr (Nat.add_lt_add_left rest _)
  have log : Int.log 2 (F.magnitude c) = k + F.least := Nearest.log_eq least most
  have binade : F.binade (F.magnitude c) = k + F.least := by
    rw [Format.binade, log]
    exact max_eq_left (by omega)
  have units : F.magnitude c / 2 ^ (k + F.least - F.fraction) = ((2 ^ F.fraction + r : ℕ) : ℤ) := by
    rw [value, mul_div_cancel_right₀ _ unit_pos.ne', Int.cast_natCast]
  have steps : (k + F.least - F.least).toNat = k := by omega
  have whole : k * 2 ^ F.fraction + (2 ^ F.fraction + r) = c := by
    have := Nat.div_add_mod c (2 ^ F.fraction)
    rw [split, part, Nat.mul_comm, Nat.succ_mul] at this
    omega
  rw [Format.nearest, binade, units, Nearest.integer_int, steps, Int.toNat_natCast, whole]
  exact Nat.min_eq_right finite.le

theorem nearest_magnitude {c : ℕ} (some : 0 < c) (finite : c < F.infinity) :
    F.nearest (F.magnitude c) = c := by
  by_cases low : c < 2 ^ F.fraction
  · exact nearest_low some low finite
  · exact nearest_high low finite

theorem value_zero (F : Format) (sign : Bool) : (zero F sign).value = 0 := by
  cases sign <;> simp [Number.value, zero, magnitude_zero]

theorem value_eq_zero {x : Number F} : x.value = 0 ↔ x.code.val = 0 := by
  constructor
  · intro none
    by_contra some
    have pos := magnitude_pos (F := F) (Nat.pos_of_ne_zero some)
    unfold Number.value at none
    split at none <;> linarith
  · intro none
    simp [Number.value, none, magnitude_zero]

theorem round_value {x : Number F} {sign : Bool} (finite : x.isFinite = true)
    (some : x.isZero = false) :
    round F sign x.value = x := by
  have some' : x.code.val ≠ 0 := by simpa [Number.isZero] using some
  have finite' : x.code.val < F.infinity := by simpa [Number.isFinite] using finite
  have pos := magnitude_pos (F := F) (Nat.pos_of_ne_zero some')
  have same := nearest_magnitude (Nat.pos_of_ne_zero some') finite'
  rw [round, if_neg (mt value_eq_zero.mp some')]
  obtain ⟨s, code⟩ := x
  cases s with
  | false =>
    simp only [Number.value, Bool.false_eq_true, if_false, abs_of_pos pos, not_lt.mpr pos.le,
      decide_false, Number.mk.injEq, true_and]
    exact Fin.ext same
  | true =>
    simp only [Number.value, if_true, abs_neg, abs_of_pos pos, neg_neg_iff_pos.mpr pos, decide_true,
      Number.mk.injEq, true_and]
    exact Fin.ext same

theorem quiet_nan {x : Number F} (quiet : x.isQuiet = true) : x.isNan = true := by
  have pos := Nat.two_pow_pos (F.fraction - 1)
  simp only [Number.isQuiet, Number.isNan, decide_eq_true_eq] at quiet ⊢
  omega

theorem quieted_eq_iff {x : Number F} : quieted x = x ↔ x.isQuiet = true := by
  have pos := Nat.two_pow_pos (F.fraction - 1)
  unfold quieted Number.isQuiet
  rw [decide_eq_true_eq]
  split
  · rename_i quiet
    exact iff_of_true rfl quiet
  · rename_i loud
    refine iff_of_false ?_ loud
    intro same
    have code := congrArg (fun y => y.code.val) same
    dsimp only at code
    omega

theorem quieted_quiet {x : Number F} (nan : x.isNan = true) : (quieted x).isQuiet = true := by
  have half : 2 * 2 ^ (F.fraction - 1) = 2 ^ F.fraction := by
    rw [← pow_succ', Nat.sub_add_cancel F.some_fraction]
  unfold quieted
  split
  · rename_i quiet
    exact decide_eq_true quiet
  · simp only [Number.isNan, Number.isQuiet, decide_eq_true_eq] at nan ⊢
    omega

theorem kinds (x : Number F) :
    (x.isNan = true ∧ x.isInfinite = false ∧ x.isFinite = false ∧ x.isZero = false) ∨
    (x.isNan = false ∧ x.isInfinite = true ∧ x.isFinite = false ∧ x.isZero = false) ∨
    (x.isNan = false ∧ x.isInfinite = false ∧ x.isFinite = true) := by
  have pos : 0 < F.infinity := Nat.mul_pos (Nat.sub_pos_of_lt (Nat.one_lt_two_pow (by
    have := F.two_exponents
    omega))) (Nat.two_pow_pos _)
  simp only [Number.isNan, Number.isInfinite, Number.isFinite, Number.isZero, decide_eq_true_eq,
    decide_eq_false_iff_not]
  omega

@[simp] theorem zero_sign (F : Format) (sign : Bool) : (zero F sign).sign = sign := rfl

theorem zero_kinds (F : Format) (sign : Bool) : (zero F sign).isNan = false ∧
    (zero F sign).isInfinite = false ∧ (zero F sign).isFinite = true ∧ (zero F sign).isZero = true := by
  have none : (zero F sign).isZero = true := by simp [Number.isZero, zero]
  rcases kinds (zero F sign) with ⟨_, _, _, some⟩ | ⟨_, _, _, some⟩ | rest
  · simp [none] at some
  · simp [none] at some
  · exact ⟨rest.1, rest.2.1, rest.2.2, none⟩

theorem eq_zero {x : Number F} (none : x.isZero = true) : x = zero F x.sign := by
  obtain ⟨sign, code⟩ := x
  simp only [Number.isZero, decide_eq_true_eq] at none
  exact congrArg (Number.mk sign) (Fin.ext none)

theorem zero_number {x : Number F} (none : x.isZero = true) : x.isNan = false := by
  rw [eq_zero none]
  exact (zero_kinds F x.sign).1

theorem eq_infinite {x : Number F} (beyond : x.isInfinite = true) : x = infinite F x.sign := by
  obtain ⟨sign, code⟩ := x
  simp only [Number.isInfinite, decide_eq_true_eq] at beyond
  exact congrArg (Number.mk sign) (Fin.ext beyond)

theorem one_kinds (F : Format) : (one F).isNan = false ∧ (one F).isInfinite = false ∧
    (one F).isFinite = true ∧ (one F).isZero = false := by
  have exponents := F.two_exponents
  have half : 2 * 2 ^ (F.exponent - 1) = 2 ^ F.exponent := by
    rw [← pow_succ', Nat.sub_add_cancel (by omega)]
  have two : 2 ≤ 2 ^ (F.exponent - 1) := by
    calc 2 = 2 ^ 1 := rfl
      _ ≤ 2 ^ (F.exponent - 1) := Nat.pow_le_pow_right (by omega) (by omega)
  have finite : (one F).isFinite = true := by
    simp only [Number.isFinite, decide_eq_true_eq]
    exact Nat.mul_lt_mul_of_pos_right (by omega) (Nat.two_pow_pos _)
  have some : (one F).isZero = false := by
    simp only [Number.isZero, decide_eq_false_iff_not]
    exact (Nat.mul_pos (by omega) (Nat.two_pow_pos _)).ne'
  rcases kinds (one F) with ⟨_, _, no, _⟩ | ⟨_, _, no, _⟩ | rest
  · simp [finite] at no
  · simp [finite] at no
  · exact ⟨rest.1, rest.2.1, finite, some⟩

theorem value_one (F : Format) : (one F).value = 1 := by
  have exponents := F.two_exponents
  obtain ⟨k, same⟩ : ∃ k, 2 ^ (F.exponent - 1) = k + 2 := by
    refine ⟨2 ^ (F.exponent - 1) - 2, (Nat.sub_add_cancel ?_).symm⟩
    calc 2 = 2 ^ 1 := rfl
      _ ≤ 2 ^ (F.exponent - 1) := Nat.pow_le_pow_right (by omega) (by omega)
  have steps : 2 ^ (F.exponent - 1) - 1 = k + 1 := by omega
  have least : F.least = -k := by
    rw [Format.least]
    have cast := congrArg (Nat.cast : ℕ → ℤ) same
    push_cast at cast
    omega
  have high : ¬ (k + 1) * 2 ^ F.fraction < 2 ^ F.fraction := by
    rw [not_lt, Nat.succ_mul]
    exact Nat.le_add_left _ _
  have quotient : (k + 1) * 2 ^ F.fraction / 2 ^ F.fraction = k + 1 :=
    Nat.mul_div_left _ (Nat.two_pow_pos _)
  have code : (one F).code.val = (k + 1) * 2 ^ F.fraction := congrArg (· * 2 ^ F.fraction) steps
  have sign : (one F).sign = false := rfl
  rw [Number.value, sign, if_neg Bool.false_ne_true, code, Format.magnitude, if_neg high, quotient,
    Nat.mul_mod_left, Nat.add_zero, fraction_cast, ← zpow_add₀ two_ne_zero, least]
  have none : (F.fraction : ℤ) + (((k + 1 : ℕ) : ℤ) - 1 + -k - F.fraction) = 0 := by
    push_cast
    ring
  rw [none, zpow_zero]

theorem round_zero (F : Format) (sign : Bool) : round F sign 0 = zero F sign := if_pos rfl

theorem add_zero_right (x : Number F) (sign : Bool) : add P x (zero F sign) =
    if x.isNan then quieted x else if x.isZero then zero F (x.sign && sign) else x := by
  obtain ⟨nan, beyond, _, _⟩ := zero_kinds F sign
  rcases kinds x with ⟨a, b, c, d⟩ | ⟨a, b, c, d⟩ | ⟨a, b, c⟩
  · simp [add, Propagation.nan, a, nan]
  · simp [add, a, b, d, nan, beyond]
  · have sum : add P x (zero F sign) = round F (x.sign && sign) x.value := by
      simp [add, a, b, nan, beyond, value_zero]
    rw [sum, a, if_neg Bool.false_ne_true]
    split
    · rename_i none
      rw [value_eq_zero.mpr (of_decide_eq_true none), round_zero]
    · rename_i some
      exact round_value c (Bool.eq_false_iff.mpr some)

theorem add_zero_left (x : Number F) (sign : Bool) : add P (zero F sign) x =
    if x.isNan then quieted x else if x.isZero then zero F (sign && x.sign) else x := by
  obtain ⟨nan, beyond, _, _⟩ := zero_kinds F sign
  rcases kinds x with ⟨a, b, c, d⟩ | ⟨a, b, c, d⟩ | ⟨a, b, c⟩
  · simp [add, Propagation.nan, a, nan]
  · simp [add, a, b, d, nan, beyond]
  · have sum : add P (zero F sign) x = round F (sign && x.sign) x.value := by
      simp [add, a, b, nan, beyond, value_zero]
    rw [sum, a, if_neg Bool.false_ne_true]
    split
    · rename_i none
      rw [value_eq_zero.mpr (of_decide_eq_true none), round_zero]
    · rename_i some
      exact round_value c (Bool.eq_false_iff.mpr some)

theorem sub_zero_right (x : Number F) (sign : Bool) : sub P x (zero F sign) =
    if x.isNan then quieted x else add P x (zero F (!sign)) := by
  obtain ⟨nan, _, _, _⟩ := zero_kinds F sign
  unfold sub
  cases a : x.isNan with
  | true => simp [Propagation.nan, a, nan]
  | false =>
    simp only [nan, Bool.or_self, Bool.false_eq_true, if_false]
    rfl

theorem mul_zero_left (x : Number F) (sign : Bool) : mul P (zero F sign) x =
    if x.isNan then quieted x else if x.isInfinite then P.invalid else zero F (sign != x.sign) := by
  obtain ⟨nan, beyond, _, none⟩ := zero_kinds F sign
  rcases kinds x with ⟨a, b, c, d⟩ | ⟨a, b, c, d⟩ | ⟨a, b, c⟩
  · simp [mul, Propagation.nan, a, nan]
  · simp [mul, a, b, nan, none]
  · simp only [mul, a, b, nan, beyond, value_zero, zero_mul, round_zero, Bool.or_self,
      Bool.false_eq_true, if_false]
    rfl

theorem mul_one_left (x : Number F) : mul P (one F) x = if x.isNan then quieted x else x := by
  obtain ⟨nan, beyond, _, some⟩ := one_kinds F
  have sign : (one F).sign = false := rfl
  rcases kinds x with ⟨a, b, c, d⟩ | ⟨a, b, c, d⟩ | ⟨a, b, c⟩
  · simp [mul, Propagation.nan, a, nan]
  · simp [mul, a, b, d, nan, some, sign, ← eq_infinite b]
  · simp only [mul, a, b, nan, beyond, value_one, one_mul, sign, Bool.or_self, Bool.false_bne,
      Bool.false_eq_true, if_false]
    by_cases none : x.isZero = true
    · rw [value_eq_zero.mpr (of_decide_eq_true none), round_zero, ← eq_zero none]
    · exact round_value c (Bool.eq_false_iff.mpr none)

theorem quieted_idem {x : Number F} (nan : x.isNan = true) : quieted (quieted x) = quieted x :=
  quieted_eq_iff.mpr (quieted_quiet nan)

theorem unit_mul (y : Number F) : ComplexNumber.mul P ⟨zero F false, one F⟩ ⟨y, zero F false⟩ =
    if y.isNan then ⟨quieted y, quieted y⟩
    else ⟨if y.isInfinite then P.invalid else zero F y.sign, if y.isZero then zero F false else y⟩ := by
  obtain ⟨nan, beyond, finite, none⟩ := zero_kinds F false
  have ones : mul P (one F) (zero F false) = zero F false := by simp [mul_one_left, nan]
  have zeros : mul P (zero F false) (zero F false) = zero F false := by
    simp [mul_zero_left, nan, beyond]
  unfold ComplexNumber.mul
  simp only [ones, zeros, mul_zero_left, mul_one_left, sub_zero_right]
  rcases kinds y with ⟨a, b, c, d⟩ | ⟨a, b, c, d⟩ | ⟨a, b, c⟩
  · have quiet := quiet_nan (quieted_quiet a)
    simp [a, quiet, add_zero_left, quieted_idem a]
  · have invalid := quiet_nan P.invalid_quiet
    simp [a, b, d, invalid, add_zero_left, quieted_eq_iff.mpr P.invalid_quiet]
  · obtain ⟨nan', _, _, none'⟩ := zero_kinds F y.sign
    simp [a, b, nan', none', add_zero_left, add_zero_right]

def single : Format := ⟨8, 23, 4, by decide, by decide, rfl⟩

def double : Format := ⟨11, 52, 8, by decide, by decide, rfl⟩

def Number.toBytes (x : Number F) : BigEndian.Bytes :=
  (BigEndian.toBytes F.bytes ((if x.sign then F.codes else 0) + x.code.val)).reverse

def ofBytes (F : Format) (bs : BigEndian.Bytes) : Number F :=
  ⟨decide (F.codes ≤ BigEndian.value bs.reverse), ⟨BigEndian.value bs.reverse % F.codes, Nat.mod_lt _
    (Nat.lt_of_le_of_lt (Nat.zero_le _) (infinity_lt F))⟩⟩

theorem codes_twice (F : Format) : F.codes + F.codes = 256 ^ F.bytes := by
  have bits : F.exponent + F.fraction + 1 = 8 * F.bytes := by
    have := F.whole
    omega
  rw [Format.codes, ← pow_add, ← Nat.mul_two, ← pow_succ, bits, pow_mul]
  rfl

theorem toBytes_length (x : Number F) : x.toBytes.length = F.bytes := by simp [Number.toBytes]

theorem ofBytes_toBytes (x : Number F) : ofBytes F x.toBytes = x := by
  have room := codes_twice F
  obtain ⟨sign, ⟨code, small⟩⟩ := x
  have fits : (if sign then F.codes else 0) + code < 256 ^ F.bytes := by
    split <;> omega
  unfold ofBytes Number.toBytes
  simp only [List.reverse_reverse, BigEndian.value_toBytes_of_lt fits]
  cases sign with
  | false => simpa using ⟨small, Nat.mod_eq_of_lt small⟩
  | true => simp [Nat.mod_eq_of_lt small]

theorem sign_and_code {n : ℕ} (small : n < 256 ^ F.bytes) :
    (if decide (F.codes ≤ n) = true then F.codes else 0) + n % F.codes = n := by
  have room := codes_twice F
  by_cases high : F.codes ≤ n
  · have rest : n % F.codes = n - F.codes := by
      rw [Nat.mod_eq_sub_mod high, Nat.mod_eq_of_lt (by omega)]
    simp only [high, decide_true, if_true, rest]
    omega
  · simp only [high, decide_false, Bool.false_eq_true, if_false, Nat.zero_add]
    exact Nat.mod_eq_of_lt (by omega)

theorem toBytes_ofBytes {bs : BigEndian.Bytes} (right : bs.length = F.bytes) :
    (ofBytes F bs).toBytes = bs := by
  have small := BigEndian.value_lt bs.reverse
  have back := BigEndian.toBytes_value bs.reverse
  rw [List.length_reverse, right] at small back
  unfold ofBytes Number.toBytes
  simp only [sign_and_code small, back, List.reverse_reverse]

end Ieee
