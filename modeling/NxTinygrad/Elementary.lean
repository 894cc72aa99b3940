import Mathlib.Analysis.Complex.ExponentialBounds
import Mathlib.Analysis.SpecialFunctions.Complex.Arg
import Mathlib.Analysis.SpecialFunctions.Log.Deriv
import Mathlib.Analysis.SpecialFunctions.Pow.Real
import Mathlib.Analysis.SpecialFunctions.Trigonometric.Arctan
import NxTinygrad.Graph
import NxTinygrad.Lib.Broadcast

/- The elementwise functions of operations.py that are composed of several tinygrad calls, over exact numbers. -/
namespace NxTinygrad.Elementary
open IR NDArray

structure Primitives (K : Type) where
  literal : ℚ → K
  pi : K
  exp : K → K
  log : K → K
  atan : K → K
  pow : K → K → K
  floor : K → K

section code
variable {K : Type} [Field K] [LinearOrder K] (F : Primitives K)

def expm1 (t : K) : K :=
  let x2 := t * t
  let small := t + x2 * F.literal (1 / 2) + x2 * t * F.literal (1 / 6) + x2 * x2 * F.literal (1 / 24) +
    x2 * x2 * t * F.literal (1 / 120)
  if |t| < F.literal (1 / 100) then small else F.exp t - 1

def log1p (t : K) : K :=
  let x2 := t * t
  let small := t - x2 * F.literal (1 / 2) + x2 * t * F.literal (1 / 3) - x2 * x2 * F.literal (1 / 4) +
    x2 * x2 * t * F.literal (1 / 5)
  if |t| < F.literal (1 / 100) then small else F.log (t + 1)

def abs (t : K) : K := if t = 0 then 0 else |t|

def cbrt (t : K) : K :=
  let r := F.pow |t| (F.literal (1 / 3))
  if t < 0 then -r else r

def round (t : K) : K := (SignType.sign t : K) * F.floor (|t| + F.literal (1 / 2))

/-- `_atan2`. A quotient by zero is not a number, but is not read either. -/
def atan2 (y x : K) : K :=
  let base := F.atan (y / x)
  let adj := if x < 0 then if 0 ≤ y then F.pi else -F.pi else 0
  let onAxis := if 0 < y then F.pi * F.literal (1 / 2)
    else if y < 0 then -(F.pi * F.literal (1 / 2)) else 0
  if x = 0 then onAxis else base + adj

def unary : UnaryOp → Option (K → K)
  | .expm1 => some (expm1 F)
  | .log1p => some (log1p F)
  | .abs => some abs
  | .cbrt => some (cbrt F)
  | .round => some (round F)
  | _ => none

def applyUnary (op : UnaryOp) (t : NDArray K) : Option (NDArray K) := (unary F op).map t.map

def applyAtan2 (y x : NDArray K) : Option (NDArray K) := pointwise (atan2 F) y x

end code

noncomputable def reals : Primitives ℝ where
  literal q := q
  pi := Real.pi
  exp := Real.exp
  log := Real.log
  atan := Real.arctan
  pow := (· ^ ·)
  floor t := ⌊t⌋

theorem small_bound {t : ℝ} (small : |t| < 1 / 100) : |t| ^ 6 ≤ |t| / 10 ^ 10 := by
  have fifth : |t| ^ 5 ≤ (1 / 100) ^ 5 := pow_le_pow_left₀ (abs_nonneg t) small.le 5
  calc |t| ^ 6 = |t| * |t| ^ 5 := by ring
    _ ≤ |t| * (1 / 100) ^ 5 := mul_le_mul_of_nonneg_left fifth (abs_nonneg t)
    _ = |t| / 10 ^ 10 := by ring

theorem half_left {t y : ℝ} (small : |t| < 1 / 100) (near : |y - t| ≤ |t| ^ 2 * 2) : |t| / 2 ≤ |y| := by
  have square : |t| ^ 2 * 2 ≤ |t| / 2 := by
    calc |t| ^ 2 * 2 = |t| * (|t| * 2) := by ring
      _ ≤ |t| * (1 / 2) := mul_le_mul_of_nonneg_left (by linarith) (abs_nonneg t)
      _ = |t| / 2 := by ring
  have split : |t| ≤ |y| + |y - t| := by
    calc |t| = |y - (y - t)| := by rw [sub_sub_cancel]
      _ ≤ |y| + |y - t| := abs_sub y (y - t)
  linarith

theorem series_error_relative {t y : ℝ} (small : |t| < 1 / 100) (half : |t| / 2 ≤ |y|) {e : ℝ}
    (error : e ≤ |t| ^ 6 * (10 / 9)) :
    e ≤ |y| / 2 ^ 32 := by
  have sixth := small_bound small
  have nonneg := abs_nonneg t
  linarith

theorem exp_near {t : ℝ} (small : |t| < 1 / 100) :
    |t + t * t * (1 / 2) + t * t * t * (1 / 6) + t * t * (t * t) * (1 / 24) +
      t * t * (t * t) * t * (1 / 120) - (Real.exp t - 1)| ≤ |Real.exp t - 1| / 2 ^ 32 := by
  have one : |t| ≤ 1 := by linarith
  have half : |t| / 2 ≤ |Real.exp t - 1| := by
    apply half_left small
    have near := Real.exp_bound one (n := 2) (by norm_num)
    simp only [Finset.sum_range_succ, Finset.sum_range_zero] at near
    norm_num at near
    have same : Real.exp t - 1 - t = Real.exp t - (1 + t) := by ring
    rw [same, sq_abs]
    have nonneg := sq_nonneg t
    linarith
  apply series_error_relative small half
  have near := Real.exp_bound one (n := 6) (by norm_num)
  have sum : ∑ m ∈ Finset.range 6, t ^ m / (m.factorial : ℝ) = 1 + (t + t * t * (1 / 2) +
      t * t * t * (1 / 6) + t * t * (t * t) * (1 / 24) + t * t * (t * t) * t * (1 / 120)) := by
    simp only [Finset.sum_range_succ, Finset.sum_range_zero, Nat.factorial]
    push_cast
    ring
  have nonneg : 0 ≤ |t| ^ 6 := by positivity
  rw [sum] at near
  rw [abs_sub_comm]
  calc _ = |Real.exp t - (1 + _)| := by rw [sub_sub]
    _ ≤ _ := near
    _ ≤ _ := by
      norm_num [Nat.factorial]
      linarith

theorem log_near {t : ℝ} (small : |t| < 1 / 100) :
    |t - t * t * (1 / 2) + t * t * t * (1 / 3) - t * t * (t * t) * (1 / 4) +
      t * t * (t * t) * t * (1 / 5) - Real.log (1 + t)| ≤ |Real.log (1 + t)| / 2 ^ 32 := by
  have one : |-t| < 1 := by
    rw [abs_neg]
    linarith
  have room : 99 / 100 ≤ 1 - |t| := by linarith
  -- what `n` terms of the series leave
  have rest (n : ℕ) : |∑ i ∈ Finset.range n, (-t) ^ (i + 1) / (i + 1) + Real.log (1 + t)| ≤
      |t| ^ (n + 1) * (10 / 9) := by
    have near := Real.abs_log_sub_add_sum_range_le one n
    rw [sub_neg_eq_add, abs_neg] at near
    apply near.trans
    rw [div_le_iff₀ (by linarith)]
    have nonneg : 0 ≤ |t| ^ (n + 1) := by positivity
    nlinarith
  have half : |t| / 2 ≤ |Real.log (1 + t)| := by
    apply half_left small
    have near := rest 1
    have first : ∑ i ∈ Finset.range 1, (-t) ^ (i + 1) / ((i : ℝ) + 1) = -t := by simp
    rw [first, neg_add_eq_sub] at near
    have nonneg : 0 ≤ |t| ^ 2 := by positivity
    linarith
  apply series_error_relative small half
  have near := rest 5
  have sum : ∑ i ∈ Finset.range 5, (-t) ^ (i + 1) / ((i : ℝ) + 1) = -(t - t * t * (1 / 2) +
      t * t * t * (1 / 3) - t * t * (t * t) * (1 / 4) + t * t * (t * t) * t * (1 / 5)) := by
    simp only [Finset.sum_range_succ, Finset.sum_range_zero]
    push_cast
    ring
  rw [sum, neg_add_eq_sub, abs_sub_comm] at near
  exact near

theorem cbrt_cubed (t : ℝ) : cbrt reals t ^ 3 = t := by
  have root : (|t| ^ ((1 / 3 : ℚ) : ℝ)) ^ 3 = |t| := by
    rw [← Real.rpow_natCast, ← Real.rpow_mul (abs_nonneg t)]
    norm_num
  unfold cbrt
  simp only [reals]
  by_cases negative : t < 0
  · rw [if_pos negative, Odd.neg_pow (by decide), root, abs_of_neg negative, neg_neg]
  · rw [if_neg negative, root, abs_of_nonneg (not_lt.mp negative)]

def Rounds (x y : ℝ) : Prop :=
  ∃ n : ℤ, y = n ∧ |x - y| + |x - y| ≤ 1 ∧ (|x - y| + |x - y| = 1 → |x| < |y|)

theorem floor_rounds {x : ℝ} (nonneg : 0 ≤ x) : Rounds x ⌊x + 1 / 2⌋ := by
  have low := Int.floor_le (x + 1 / 2)
  have high := Int.lt_floor_add_one (x + 1 / 2)
  have natural : (0 : ℝ) ≤ ⌊x + 1 / 2⌋ := by
    exact_mod_cast Int.floor_nonneg.mpr (by linarith)
  have near : |x - ⌊x + 1 / 2⌋| ≤ 1 / 2 := by
    rw [abs_le]
    constructor <;> linarith
  refine ⟨_, rfl, ?_, ?_⟩
  · linarith
  · intro tie
    rw [abs_of_nonneg nonneg, abs_of_nonneg natural]
    rcases abs_cases (x - ⌊x + 1 / 2⌋) with ⟨same, _⟩ | ⟨same, _⟩
    · linarith
    · linarith

theorem Rounds.neg {x y : ℝ} (rounds : Rounds x y) : Rounds (-x) (-y) := by
  obtain ⟨n, rfl, near, away⟩ := rounds
  have same : -x - -(n : ℝ) = -(x - n) := by ring
  refine ⟨-n, by push_cast; rfl, ?_, ?_⟩
  · rw [same, abs_neg]
    exact near
  · rw [same, abs_neg, abs_neg, abs_neg]
    exact away

theorem round_rounds (t : ℝ) : Rounds t (round reals t) := by
  have half : reals.literal (1 / 2) = 1 / 2 := by
    show (((1 / 2 : ℚ)) : ℝ) = 1 / 2
    norm_num
  unfold round
  rw [half]
  rcases lt_trichotomy t 0 with negative | rfl | positive
  · rw [sign_neg negative, SignType.coe_neg_one, abs_of_neg negative, neg_one_mul]
    have rounds := (floor_rounds (neg_nonneg.mpr negative.le)).neg
    rwa [neg_neg] at rounds
  · rw [sign_zero, SignType.coe_zero, zero_mul]
    exact ⟨0, by simp, by norm_num, by norm_num⟩
  · rw [sign_pos positive, SignType.coe_one, one_mul, abs_of_pos positive]
    exact floor_rounds positive.le

theorem atan_arcsin {x : ℝ} (y : ℝ) (away : x ≠ 0) :
    Real.arctan (y / x) = Real.arcsin (y * |x| / (x * ‖(⟨x, y⟩ : ℂ)‖)) := by
  have norm : ‖(⟨x, y⟩ : ℂ)‖ = |x| * √(1 + (y / x) ^ 2) := by
    have square : x * x + y * y = x ^ 2 * (1 + (y / x) ^ 2) := by
      field_simp
    rw [Complex.norm_def, Complex.normSq_mk, square, Real.sqrt_mul (sq_nonneg x), Real.sqrt_sq_eq_abs]
  have size : |x| ≠ 0 := abs_ne_zero.mpr away
  rw [Real.arctan_eq_arcsin, norm]
  congr 1
  field_simp

theorem atan2_arg (y x : ℝ) : atan2 reals y x = Complex.arg ⟨x, y⟩ := by
  have half : reals.literal (1 / 2) = 1 / 2 := by
    show (((1 / 2 : ℚ)) : ℝ) = 1 / 2
    norm_num
  unfold atan2
  rw [half]
  simp only [reals]
  rcases lt_trichotomy x 0 with left | rfl | right
  · rw [if_neg left.ne, if_pos left, atan_arcsin y left.ne, abs_of_neg left]
    have same : y * -x / (x * ‖(⟨x, y⟩ : ℂ)‖) = (-(⟨x, y⟩ : ℂ)).im / ‖(⟨x, y⟩ : ℂ)‖ := by
      have away := left.ne
      rw [Complex.neg_im, mul_neg, mul_comm y x, neg_div, mul_div_mul_left _ _ away, neg_div]
    rw [same]
    by_cases above : 0 ≤ y
    · rw [if_pos above, Complex.arg_of_re_neg_of_im_nonneg left above]
    · rw [if_neg above, Complex.arg_of_re_neg_of_im_neg left (not_le.mp above), sub_eq_add_neg]
  · rw [if_pos rfl]
    rcases lt_trichotomy y 0 with below | rfl | above
    · have arg : Complex.arg ⟨0, y⟩ = -(Real.pi / 2) := Complex.arg_eq_neg_pi_div_two_iff.mpr ⟨rfl, below⟩
      rw [if_neg below.not_gt, if_pos below, arg, mul_one_div]
    · have origin : (⟨0, 0⟩ : ℂ) = 0 := rfl
      rw [if_neg (lt_irrefl 0), if_neg (lt_irrefl 0), origin, Complex.arg_zero]
    · have arg : Complex.arg ⟨0, y⟩ = Real.pi / 2 := Complex.arg_eq_pi_div_two_iff.mpr ⟨rfl, above⟩
      rw [if_pos above, arg, mul_one_div]
  · rw [if_neg right.ne', if_neg right.not_gt, add_zero, atan_arcsin y right.ne', abs_of_pos right,
      Complex.arg_of_re_nonneg right.le, mul_comm y x, mul_div_mul_left _ _ right.ne']

theorem expm1_near (t : ℝ) : |expm1 reals t - (Real.exp t - 1)| ≤ |Real.exp t - 1| / 2 ^ 32 := by
  unfold expm1
  simp only [reals]
  push_cast
  by_cases small : |t| < 1 / 100
  · rw [if_pos small]
    exact exp_near small
  · rw [if_neg small, sub_self, abs_zero]
    positivity

theorem log1p_near (t : ℝ) : |log1p reals t - Real.log (1 + t)| ≤ |Real.log (1 + t)| / 2 ^ 32 := by
  unfold log1p
  simp only [reals]
  push_cast
  by_cases small : |t| < 1 / 100
  · rw [if_pos small]
    exact log_near small
  · rw [if_neg small, add_comm t 1, sub_self, abs_zero]
    positivity

theorem abs_eq (t : ℝ) : abs t = |t| := by
  unfold abs
  split
  · rename_i zero
    rw [zero, abs_zero]
  · rfl

/-- What an entry `x` becomes, up to a relative error. -/
def Means (error : ℝ) : UnaryOp → ℝ → ℝ → Prop
  | .abs, x, y => y = |x|
  | .expm1, x, y => |y - (Real.exp x - 1)| ≤ |Real.exp x - 1| * error
  | .log1p, x, y => -1 < x → |y - Real.log (1 + x)| ≤ |Real.log (1 + x)| * error
  | .cbrt, x, y => y * y * y = x
  | .round, x, y => Rounds x y
  | _, _, _ => False

theorem unary_means {op : UnaryOp} {f : ℝ → ℝ} (known : unary reals op = some f) (x : ℝ) :
    Means (1 / 2 ^ 32) op x (f x) := by
  cases op <;> cases known
  · exact abs_eq x
  · have near := expm1_near x
    rwa [div_eq_mul_one_div] at near
  · intro _
    have near := log1p_near x
    rwa [div_eq_mul_one_div] at near
  · have cubed := cbrt_cubed x
    rwa [pow_three'] at cubed
  · exact round_rounds x

/-- The composed functions are what they are named after, entry by entry, with operands of `atan2` that broadcast.
    The short sums of `expm1` and `log1p` are off by less than f32 can tell. -/
theorem composed_functions (t u : NDArray ℝ) :
    (∀ op r, applyUnary reals op t = some r → r.shape = t.shape ∧ ∀ idx x, t.get? idx = some x →
      ∃ y, r.get? idx = some y ∧ Means (1 / 2 ^ 32) op x y) ∧
    ∀ shape, common t.shape u.shape = some shape → ∃ r, applyAtan2 reals t u = some r ∧ r.shape = shape ∧
      ∀ idx, Inside shape idx → ∃ y x, t.get? (project t.shape idx) = some y ∧
        u.get? (project u.shape idx) = some x ∧ r.get? idx = some (Complex.arg ⟨x, y⟩) := by
  constructor
  · intro op r applied
    obtain ⟨f, known, rfl⟩ := Option.map_eq_some_iff.mp applied
    refine ⟨rfl, ?_⟩
    intro idx x there
    exact ⟨f x, by rw [get?_map, there, Option.map_some], unary_means known x⟩
  · intro shape fits
    obtain ⟨r, made⟩ : ∃ r, applyAtan2 reals t u = some r := pointwise_common _ fits
    obtain ⟨fits', entries⟩ := pointwise_some made
    cases fits.symm.trans fits'
    refine ⟨r, made, rfl, ?_⟩
    intro idx there
    obtain ⟨left, right⟩ := project_inside fits there
    obtain ⟨y, first⟩ := Option.isSome_iff_exists.mp (get?_isSome.mpr left)
    obtain ⟨x, second⟩ := Option.isSome_iff_exists.mp (get?_isSome.mpr right)
    refine ⟨y, x, first, second, ?_⟩
    rw [entries idx there, first, second, Option.bind_some, Option.map_some, atan2_arg]

noncomputable def minusOne : NDArray ℝ := ⟨[1], [-1], rfl⟩

noncomputable def origin : NDArray ℝ := ⟨[1], [0], rfl⟩

theorem minusOne_composed :
    (∃ r y, applyUnary reals .cbrt minusOne = some r ∧ r.get? [0] = some y ∧ y * y * y = -1) ∧
    ∃ r, applyAtan2 reals origin minusOne = some r ∧ r.get? [0] = some Real.pi := by
  constructor
  · obtain ⟨_, entries⟩ := (composed_functions minusOne origin).1 .cbrt _ rfl
    obtain ⟨y, root, cubed⟩ := entries [0] (-1) rfl
    exact ⟨_, y, rfl, root, cubed⟩
  · obtain ⟨r, made, _, entries⟩ := (composed_functions origin minusOne).2 [1] rfl
    obtain ⟨y, x, zero, one, angle⟩ := entries [0] ⟨by decide, trivial⟩
    refine ⟨r, made, angle.trans (congrArg some ?_)⟩
    cases Option.some.inj zero
    cases Option.some.inj one
    have same : (⟨-1, 0⟩ : ℂ) = -1 := by
      apply Complex.ext <;> simp
    rw [same, Complex.arg_neg_one]

end NxTinygrad.Elementary
