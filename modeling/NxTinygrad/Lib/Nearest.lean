import Mathlib.Data.Rat.Floor
import Mathlib.Data.Int.Log
import Mathlib.Tactic.Linarith
import Mathlib.Tactic.Ring
import Mathlib.Tactic.FieldSimp
import Mathlib.Tactic.Positivity
import Mathlib.Tactic.LinearCombination
import Mathlib.RingTheory.Coprime.Lemmas

/- Rounding to `p` significant bits, to the nearest and on a tie to the even one. Exponents have no
   bounds. -/
namespace Nearest

def integer (y : ℚ) : ℤ :=
  if 2 * (y - ⌊y⌋) < 1 then ⌊y⌋
  else if 1 < 2 * (y - ⌊y⌋) then ⌊y⌋ + 1
  else if ⌊y⌋ % 2 = 0 then ⌊y⌋
  else ⌊y⌋ + 1

def unit (p : ℕ) (x : ℚ) : ℚ := 2 ^ (Int.log 2 |x| + 1 - p)

def round (p : ℕ) (x : ℚ) : ℚ := integer (x / unit p x) * unit p x

def Fits (p : ℕ) (x : ℚ) : Prop := ∃ n e : ℤ, |n| < 2 ^ p ∧ x = n * 2 ^ e

variable {p : ℕ} {x y : ℚ} {n e j : ℤ}

theorem integer_near (y : ℚ) : 2 * y - 1 ≤ 2 * integer y ∧ 2 * (integer y : ℚ) ≤ 2 * y + 1 := by
  have low := Int.floor_le y
  have high := Int.lt_floor_add_one y
  unfold integer
  split
  · exact ⟨by linarith, by linarith⟩
  · split
    · push_cast
      exact ⟨by linarith, by linarith⟩
    · split
      · exact ⟨by linarith, by linarith⟩
      · push_cast
        exact ⟨by linarith, by linarith⟩

theorem le_integer (above : (n : ℚ) - 1 / 2 < y) : n ≤ integer y := by
  have near := (integer_near y).1
  have less : (n : ℚ) < (integer y + 1 : ℤ) := by
    push_cast
    linarith
  have := Int.cast_lt.mp less
  omega

theorem integer_lt (below : y < (n : ℚ) - 1 / 2) : integer y < n := by
  have near := (integer_near y).2
  have less : (integer y : ℚ) < n := by linarith
  exact Int.cast_lt.mp less

theorem integer_le (below : y < (n : ℚ) + 1 / 2) : integer y ≤ n := by
  have near := (integer_near y).2
  have less : (integer y : ℚ) < (n + 1 : ℤ) := by
    push_cast
    linarith
  have := Int.cast_lt.mp less
  omega

theorem integer_int (n : ℤ) : integer n = n := by simp [integer]

theorem integer_neg (y : ℚ) : integer (-y) = -integer y := by
  rcases eq_or_ne (⌊y⌋ : ℚ) y with whole | broken
  · rw [← whole, ← Int.cast_neg, integer_int, integer_int]
  · have low := lt_of_le_of_ne (Int.floor_le y) broken
    have high := Int.lt_floor_add_one y
    have floor : ⌊-y⌋ = -⌊y⌋ - 1 := by
      rw [Int.floor_eq_iff]
      push_cast
      exact ⟨by linarith, by linarith⟩
    have part : 2 * (-y - ((-⌊y⌋ - 1 : ℤ) : ℚ)) = 2 - 2 * (y - ⌊y⌋) := by
      push_cast
      ring
    unfold integer
    rw [floor, part]
    split_ifs <;> first | omega | (exfalso; linarith)

theorem log_eq (low : (2 : ℚ) ^ j ≤ x) (high : x < 2 ^ (j + 1)) : Int.log 2 x = j := by
  have pos : 0 < x := lt_of_lt_of_le (zpow_pos two_pos j) low
  have ge := (Int.zpow_le_iff_le_log one_lt_two pos).mp (by exact_mod_cast low)
  have le := (Int.lt_zpow_iff_log_lt one_lt_two pos).mp (by exact_mod_cast high)
  omega

theorem exists_binade (pos : 0 < x) : ∃ j : ℤ, (2 : ℚ) ^ j ≤ x ∧ x < 2 ^ (j + 1) := by
  refine ⟨Int.log 2 x, ?_, ?_⟩
  · exact_mod_cast Int.zpow_log_le_self one_lt_two pos
  · exact_mod_cast Int.lt_zpow_succ_log_self one_lt_two x

theorem round_eq (low : (2 : ℚ) ^ j ≤ x) (high : x < 2 ^ (j + 1)) :
    round p x = integer (x / 2 ^ (j + 1 - p)) * 2 ^ (j + 1 - p) := by
  have pos : 0 < x := lt_of_lt_of_le (zpow_pos two_pos j) low
  rw [round, unit, abs_of_pos pos, log_eq low high]

theorem round_neg (x : ℚ) : round p (-x) = -round p x := by
  rw [round, round, unit, unit, abs_neg, neg_div, integer_neg, Int.cast_neg, neg_mul]

theorem round_zero : round p 0 = 0 := by
  rw [round, zero_div]
  simp [integer]

theorem top_place (p : ℕ) (j : ℤ) : ((2 ^ p : ℤ) : ℚ) * 2 ^ (j + 1 - p) = 2 ^ (j + 1) := by
  rw [Int.cast_pow, Int.cast_ofNat, ← zpow_natCast, ← zpow_add₀ two_ne_zero]
  congr 1
  ring

section bits
variable (some_bit : 0 < p)
include some_bit

theorem bottom_place (j : ℤ) : ((2 ^ (p - 1) : ℤ) : ℚ) * 2 ^ (j + 1 - p) = 2 ^ j := by
  rw [Int.cast_pow, Int.cast_ofNat, ← zpow_natCast, ← zpow_add₀ two_ne_zero]
  congr 1
  omega

theorem scaled (low : (2 : ℚ) ^ j ≤ x) (high : x < 2 ^ (j + 1)) :
    ((2 ^ (p - 1) : ℤ) : ℚ) ≤ x / 2 ^ (j + 1 - p) ∧ x / 2 ^ (j + 1 - p) < ((2 ^ p : ℤ) : ℚ) := by
  rw [le_div_iff₀ (zpow_pos two_pos _), div_lt_iff₀ (zpow_pos two_pos _),
    bottom_place some_bit, top_place]
  exact ⟨low, high⟩

theorem integer_scaled (low : (2 : ℚ) ^ j ≤ x) (high : x < 2 ^ (j + 1)) :
    2 ^ (p - 1) ≤ integer (x / 2 ^ (j + 1 - p)) ∧ integer (x / 2 ^ (j + 1 - p)) ≤ 2 ^ p := by
  obtain ⟨least, less⟩ := scaled some_bit low high
  exact ⟨le_integer (by linarith), integer_le (by linarith)⟩

theorem round_bounds (low : (2 : ℚ) ^ j ≤ x) (high : x < 2 ^ (j + 1)) :
    2 ^ j ≤ round p x ∧ round p x ≤ 2 ^ (j + 1) := by
  obtain ⟨least, most⟩ := integer_scaled some_bit low high
  have place : (0 : ℚ) ≤ 2 ^ (j + 1 - p) := (zpow_pos two_pos _).le
  rw [round_eq low high]
  constructor
  · rw [← bottom_place some_bit j]
    exact mul_le_mul_of_nonneg_right (Int.cast_le.mpr least) place
  · rw [← top_place p j]
    exact mul_le_mul_of_nonneg_right (Int.cast_le.mpr most) place

theorem round_pos (pos : 0 < x) : 0 < round p x := by
  obtain ⟨j, low, high⟩ := exists_binade pos
  exact lt_of_lt_of_le (zpow_pos two_pos j) (round_bounds some_bit low high).1

end bits

theorem Fits.neg (fits : Fits p x) : Fits p (-x) := by
  obtain ⟨n, e, small, rfl⟩ := fits
  exact ⟨-n, e, by rwa [abs_neg], by push_cast; ring⟩

theorem fits_top (e : ℤ) (some_bit : 0 < p) : Fits p ((2 ^ p : ℤ) * 2 ^ e) := by
  refine ⟨2 ^ (p - 1), e + 1, ?_, ?_⟩
  · rw [abs_of_pos (by positivity)]
    exact pow_lt_pow_right₀ one_lt_two (by omega)
  · obtain ⟨q, rfl⟩ : ∃ q, p = q + 1 := ⟨p - 1, by omega⟩
    rw [Nat.add_sub_cancel, zpow_add_one₀ two_ne_zero, pow_succ]
    push_cast
    ring

theorem by_sign {P : ℚ → Prop} (zero : P 0) (pos : ∀ x, 0 < x → P x) (neg : ∀ x, P x → P (-x)) (x : ℚ) :
    P x := by
  rcases lt_trichotomy x 0 with less | rfl | more
  · rw [← neg_neg x]
    exact neg _ (pos _ (neg_pos.mpr less))
  · exact zero
  · exact pos x more

theorem round_fits (some_bit : 0 < p) (x : ℚ) : Fits p (round p x) := by
  induction x using by_sign with
  | zero =>
    rw [round_zero]
    exact ⟨0, 0, by simp, by simp⟩
  | pos x pos =>
    obtain ⟨j, low, high⟩ := exists_binade pos
    obtain ⟨least, most⟩ := integer_scaled some_bit low high
    rw [round_eq low high]
    rcases lt_or_eq_of_le most with small | top
    · have nonneg : 0 ≤ integer (x / 2 ^ (j + 1 - p)) := le_trans (by positivity) least
      exact ⟨_, _, by rwa [abs_of_nonneg nonneg], rfl⟩
    · rw [top]
      exact fits_top _ some_bit
  | neg x ih =>
    rw [round_neg]
    exact ih.neg

theorem round_of_fits (fits : Fits p x) : round p x = x := by
  induction x using by_sign with
  | zero => exact round_zero
  | pos x pos =>
    obtain ⟨j, low, high⟩ := exists_binade pos
    obtain ⟨n, e, small, same⟩ := fits
    have bound : (n : ℚ) < 2 ^ (p : ℤ) := by
      rw [zpow_natCast]
      exact_mod_cast lt_of_le_of_lt (le_abs_self n) small
    have below : (2 : ℚ) ^ j < 2 ^ (p + e) := by
      rw [zpow_add₀ two_ne_zero]
      refine lt_of_le_of_lt low ?_
      rw [same]
      exact mul_lt_mul_of_pos_right bound (zpow_pos two_pos e)
    have less := (zpow_lt_zpow_iff_right₀ (one_lt_two : (1 : ℚ) < 2)).mp below
    obtain ⟨k, shift⟩ : ∃ k : ℕ, e = k + (j + 1 - p) := ⟨(e - (j + 1 - p)).toNat, by omega⟩
    have whole : x / 2 ^ (j + 1 - p) = ((n * 2 ^ k : ℤ) : ℚ) := by
      rw [same, shift, zpow_add₀ two_ne_zero, ← mul_assoc,
        mul_div_cancel_right₀ _ (zpow_pos two_pos _).ne', zpow_natCast]
      push_cast
      rfl
    rw [round_eq low high, whole, integer_int, ← whole, div_mul_cancel₀ _ (zpow_pos two_pos _).ne']
  | neg x ih =>
    have back := fits.neg
    rw [neg_neg] at back
    rw [round_neg, ih back]

section threshold
variable {M : ℤ} (some_bit : 0 < p) (least : 2 ^ (p - 1) < M) (most : M ≤ 2 ^ p)
include some_bit least most

theorem le_round (above : ((M : ℚ) - 1 / 2) * 2 ^ e < x) : (M : ℚ) * 2 ^ e ≤ round p x := by
  have unit_pos : (0 : ℚ) < 2 ^ e := zpow_pos two_pos e
  have index : e + p - 1 + 1 - p = e := by ring
  have bottom := bottom_place some_bit (e + p - 1)
  have top := top_place p (e + p - 1)
  rw [index] at bottom top
  have least' : ((2 ^ (p - 1) + 1 : ℤ) : ℚ) ≤ M := Int.cast_le.mpr least
  push_cast at least'
  have low : (2 : ℚ) ^ (e + p - 1) ≤ x := by
    rw [← bottom]
    refine le_trans (mul_le_mul_of_nonneg_right ?_ unit_pos.le) above.le
    push_cast
    linarith
  rcases lt_or_ge x (2 ^ (e + p - 1 + 1)) with high | beyond
  · rw [round_eq low high, index]
    refine mul_le_mul_of_nonneg_right (Int.cast_le.mpr (le_integer ?_)) unit_pos.le
    rwa [lt_div_iff₀ unit_pos]
  · obtain ⟨j, low', high'⟩ := exists_binade (lt_of_lt_of_le (zpow_pos two_pos _) low)
    have later := (zpow_lt_zpow_iff_right₀ (one_lt_two : (1 : ℚ) < 2)).mp (lt_of_le_of_lt beyond high')
    calc (M : ℚ) * 2 ^ e ≤ ((2 ^ p : ℤ) : ℚ) * 2 ^ e :=
          mul_le_mul_of_nonneg_right (Int.cast_le.mpr most) unit_pos.le
      _ = 2 ^ (e + p - 1 + 1) := top
      _ ≤ 2 ^ j := zpow_le_zpow_right₀ one_le_two (by omega)
      _ ≤ round p x := (round_bounds some_bit low' high').1

theorem round_lt (pos : 0 < x) (below : x < ((M : ℚ) - 1 / 2) * 2 ^ e) :
    round p x < (M : ℚ) * 2 ^ e := by
  have unit_pos : (0 : ℚ) < 2 ^ e := zpow_pos two_pos e
  have index : e + p - 1 + 1 - p = e := by ring
  have bottom := bottom_place some_bit (e + p - 1)
  have top := top_place p (e + p - 1)
  rw [index] at bottom top
  have most' : (M : ℚ) ≤ ((2 ^ p : ℤ) : ℚ) := Int.cast_le.mpr most
  have high : x < 2 ^ (e + p - 1 + 1) := by
    rw [← top]
    refine lt_of_lt_of_le below (mul_le_mul_of_nonneg_right ?_ unit_pos.le)
    linarith
  rcases le_or_gt (2 ^ (e + p - 1)) x with low | before
  · rw [round_eq low high, index]
    refine mul_lt_mul_of_pos_right (Int.cast_lt.mpr (integer_lt ?_)) unit_pos
    rwa [div_lt_iff₀ unit_pos]
  · obtain ⟨j, low', high'⟩ := exists_binade pos
    have earlier := (zpow_lt_zpow_iff_right₀ (one_lt_two : (1 : ℚ) < 2)).mp (lt_of_le_of_lt low' before)
    calc round p x ≤ 2 ^ (j + 1) := (round_bounds some_bit low' high').2
      _ ≤ 2 ^ (e + p - 1) := zpow_le_zpow_right₀ one_le_two (by omega)
      _ = ((2 ^ (p - 1) : ℤ) : ℚ) * 2 ^ e := bottom.symm
      _ < M * 2 ^ e := mul_lt_mul_of_pos_right (Int.cast_lt.mpr least) unit_pos

omit some_bit most in
theorem no_midpoint {u v : ℚ} (fits : Fits p u) (fits' : Fits p v) (some_u : 0 < u) (some_v : 0 < v) :
    u / v ≠ ((M : ℚ) - 1 / 2) * 2 ^ e := by
  intro same
  obtain ⟨n, s, small, rfl⟩ := fits
  obtain ⟨k, t, _, rfl⟩ := fits'
  have n_pos : 0 < n := by exact_mod_cast pos_of_mul_pos_left some_u (zpow_pos two_pos s).le
  rw [div_eq_iff some_v.ne'] at same
  -- both sides as integers, with enough factors of 2
  obtain ⟨c, hc⟩ : ∃ c : ℕ, (c : ℤ) = |s| + |e - 1 + t| + s := ⟨(|s| + |e - 1 + t| + s).toNat, by
    have := neg_abs_le s
    have := abs_nonneg (e - 1 + t)
    omega⟩
  obtain ⟨d, hd⟩ : ∃ d : ℕ, (d : ℤ) = |s| + |e - 1 + t| + (e - 1 + t) :=
    ⟨(|s| + |e - 1 + t| + (e - 1 + t)).toNat, by
      have := neg_abs_le (e - 1 + t)
      have := abs_nonneg s
      omega⟩
  have whole : ((n * 2 ^ c : ℤ) : ℚ) = (((2 * M - 1) * k * 2 ^ d : ℤ) : ℚ) := by
    push_cast
    rw [← zpow_natCast, ← zpow_natCast, hc, hd, zpow_add₀ two_ne_zero _ s,
      zpow_add₀ two_ne_zero _ (e - 1 + t),
      zpow_add₀ two_ne_zero (e - 1) t, zpow_sub_one₀ two_ne_zero]
    linear_combination 2 ^ (|s| + |e - 1 + t|) * same
  have whole := Int.cast_injective whole
  have coprime : IsCoprime (2 * M - 1) ((2 : ℤ) ^ c) := IsCoprime.pow_right ⟨-1, M, by ring⟩
  have divides : 2 * M - 1 ∣ n :=
    coprime.dvd_of_dvd_mul_right ⟨k * 2 ^ d, by rw [whole]; ring⟩
  have bound := Int.le_of_dvd n_pos divides
  have small' := lt_of_le_of_lt (le_abs_self n) small
  have double : (2 : ℤ) ^ p ≤ 2 * 2 ^ (p - 1) := by
    rw [← pow_succ']
    exact pow_le_pow_right₀ one_le_two (by omega)
  omega

end threshold

theorem integer_eq_iff {y : ℚ} {n : ℤ} :
    integer y = n ↔ 2 * |y - n| < 1 ∨ 2 * |y - n| = 1 ∧ 2 ∣ n := by
  have low := Int.floor_le y
  have high := Int.lt_floor_add_one y
  constructor
  · rintro rfl
    unfold integer
    split_ifs with less more even
    · left
      rw [abs_of_nonneg (by linarith)]
      exact less
    · left
      push_cast
      rw [abs_of_neg (by linarith)]
      linarith
    · right
      rw [abs_of_nonneg (by linarith)]
      exact ⟨by linarith, Int.dvd_of_emod_eq_zero even⟩
    · right
      push_cast
      rw [abs_of_nonpos (by linarith)]
      exact ⟨by linarith, by omega⟩
  · rintro (near | ⟨tie, even⟩)
    · obtain ⟨above, below⟩ := abs_lt.mp (by linarith : |y - n| < 1 / 2)
      exact le_antisymm (integer_le (by linarith)) (le_integer (by linarith))
    · rcases le_total (n : ℚ) y with ge | le
      · rw [abs_of_nonneg (by linarith)] at tie
        have floor : ⌊y⌋ = n := Int.floor_eq_iff.mpr ⟨ge, by linarith⟩
        unfold integer
        rw [floor, if_neg (by linarith), if_neg (by linarith), if_pos (by omega)]
      · rw [abs_of_nonpos (by linarith)] at tie
        have floor : ⌊y⌋ = n - 1 := by
          rw [Int.floor_eq_iff]
          push_cast
          exact ⟨by linarith, by linarith⟩
        unfold integer
        rw [floor, if_neg (by push_cast; linarith), if_neg (by push_cast; linarith), if_neg (by omega)]
        ring

/-- The offsets `δ` from `n * 2 ^ e` that rounding takes back: below a power of two the numbers are
    twice as close. -/
structure Absorbs (p : ℕ) (n e : ℤ) (δ : ℚ) : Prop where
  near : 2 * |δ| < 2 ^ e ∨ 2 * |δ| = 2 ^ e ∧ 2 ∣ n
  below : |n| = 2 ^ (p - 1) → n * δ < 0 → 4 * |δ| ≤ 2 ^ e

theorem Absorbs.neg {δ : ℚ} (absorbs : Absorbs p n e δ) : Absorbs p (-n) e (-δ) :=
  ⟨by rw [abs_neg, dvd_neg]; exact absorbs.near,
    fun top less => by
      rw [abs_neg] at top ⊢
      exact absorbs.below top (by push_cast at less; linarith)⟩

theorem round_nonpos (some_bit : 0 < p) (nonpos : x ≤ 0) : round p x ≤ 0 := by
  rcases lt_or_eq_of_le nonpos with less | rfl
  · have opposite := round_pos (p := p) some_bit (neg_pos.mpr less)
    rw [round_neg] at opposite
    linarith
  · exact round_zero.le

theorem round_le_power (some_bit : 0 < p) (below : x < 2 ^ j) : round p x ≤ 2 ^ j := by
  rcases le_or_gt x 0 with nonpos | pos
  · exact le_trans (round_nonpos some_bit nonpos) (zpow_pos two_pos j).le
  · obtain ⟨i, low, high⟩ := exists_binade pos
    have earlier := (zpow_lt_zpow_iff_right₀ (one_lt_two : (1 : ℚ) < 2)).mp (lt_of_le_of_lt low below)
    exact le_trans (round_bounds some_bit low high).2 (zpow_le_zpow_right₀ one_le_two (by omega))

theorem power_le_round (some_bit : 0 < p) (above : 2 ^ j ≤ x) : 2 ^ j ≤ round p x := by
  obtain ⟨i, low, high⟩ := exists_binade (lt_of_lt_of_le (zpow_pos two_pos j) above)
  have later := (zpow_lt_zpow_iff_right₀ (one_lt_two : (1 : ℚ) < 2)).mp (lt_of_le_of_lt above high)
  exact le_trans (zpow_le_zpow_right₀ one_le_two (by omega)) (round_bounds some_bit low high).1

section absorbs
variable {δ : ℚ} (some_bit : 0 < p)
include some_bit

theorem round_power (less : δ < 0) : round p (2 ^ j + δ) = 2 ^ j ↔ 4 * |δ| ≤ 2 ^ (j + 1 - p) := by
  have half : (2 : ℚ) ^ (j + 1 - p) = 2 * 2 ^ (j - p) := by
    rw [show j + 1 - p = j - p + 1 by ring, zpow_add_one₀ two_ne_zero, mul_comm]
  have place : (0 : ℚ) < 2 ^ (j - p) := zpow_pos two_pos _
  have top := top_place p (j - 1)
  rw [show j - 1 + 1 - p = j - p by ring, show j - 1 + 1 = j by ring] at top
  have double : (2 : ℚ) ^ j = 2 * 2 ^ (j - 1) := by
    rw [zpow_sub_one₀ two_ne_zero]
    ring
  have even : (2 : ℤ) ∣ 2 ^ p := dvd_pow_self 2 some_bit.ne'
  have most : (1 : ℤ) ≤ 2 ^ (p - 1) := one_le_pow₀ one_le_two
  have bits : ((2 ^ p : ℤ) : ℚ) = 2 * ((2 ^ (p - 1) : ℤ) : ℚ) := by
    rw [← Nat.sub_add_cancel (Nat.succ_le_of_lt some_bit), Nat.add_sub_cancel, pow_succ]
    push_cast
    ring
  have most' : (1 : ℚ) ≤ ((2 ^ (p - 1) : ℤ) : ℚ) := by exact_mod_cast most
  rw [abs_of_neg less]
  rcases lt_or_ge (2 ^ j + δ) (2 ^ (j - 1)) with before | low
  · have short : round p (2 ^ j + δ) < 2 ^ j := by
      refine lt_of_le_of_lt (round_le_power some_bit before) ?_
      rw [double]
      linarith [zpow_pos (two_pos : (0 : ℚ) < 2) (j - 1)]
    refine iff_of_false short.ne fun near => ?_
    have far : (2 : ℚ) ^ (j - p) ≤ 2 ^ (j - 1) := zpow_le_zpow_right₀ one_le_two (by omega)
    rw [half] at near
    linarith
  · have high : 2 ^ j + δ < 2 ^ (j - 1 + 1) := by
      rw [sub_add_cancel]
      linarith
    have scale : (2 ^ j + δ) / 2 ^ (j - p) - ((2 ^ p : ℤ) : ℚ) = δ / 2 ^ (j - p) := by
      rw [← top]
      field_simp
      ring
    have size : |δ / 2 ^ (j - p)| = -δ / 2 ^ (j - p) := by rw [abs_div, abs_of_pos place, abs_of_neg less]
    have unfolded : round p (2 ^ j + δ) = integer ((2 ^ j + δ) / 2 ^ (j - p)) * 2 ^ (j - p) := by
      rw [round_eq low high, show j - 1 + 1 - (p : ℤ) = j - p by ring]
    have value : round p (2 ^ j + δ) = 2 ^ j ↔ integer ((2 ^ j + δ) / 2 ^ (j - p)) = 2 ^ p := by
      rw [unfolded, ← top, mul_left_inj' place.ne', Int.cast_inj, top]
    rw [value, integer_eq_iff, scale, size, ← mul_div_assoc, div_lt_one place, div_eq_one_iff_eq place.ne',
      half]
    constructor
    · rintro (near | ⟨tie, _⟩) <;> linarith
    · intro near
      rcases lt_or_eq_of_le (by linarith : 2 * -δ ≤ 2 ^ (j - p)) with less | tie
      · exact .inl less
      · exact .inr ⟨tie, even⟩

theorem round_absorbs_pos (least : 2 ^ (p - 1) ≤ n) (most : n < 2 ^ p) :
    round p (n * 2 ^ e + δ) = n * 2 ^ e ↔ Absorbs p n e δ := by
  have place : (0 : ℚ) < 2 ^ e := zpow_pos two_pos e
  have index : e + p - 1 + 1 - p = e := by ring
  have bottom := bottom_place some_bit (e + p - 1)
  have top := top_place p (e + p - 1)
  rw [index] at bottom top
  have n_pos : (0 : ℚ) < n := by exact_mod_cast lt_of_lt_of_le (by positivity) least
  have least' : ((2 ^ (p - 1) : ℤ) : ℚ) ≤ n := Int.cast_le.mpr least
  have most' : (n : ℚ) + 1 ≤ ((2 ^ p : ℤ) : ℚ) := by exact_mod_cast most
  have first : (2 : ℚ) ^ (e + p - 1) ≤ n * 2 ^ e := by
    rw [← bottom]
    exact mul_le_mul_of_nonneg_right least' place.le
  have last : (n : ℚ) * 2 ^ e + 2 ^ e ≤ 2 ^ (e + p - 1 + 1) := by
    rw [← top]
    calc (n : ℚ) * 2 ^ e + 2 ^ e = (n + 1) * 2 ^ e := by ring
      _ ≤ ((2 ^ p : ℤ) : ℚ) * 2 ^ e := mul_le_mul_of_nonneg_right most' place.le
  rcases lt_or_ge (n * 2 ^ e + δ) (2 ^ (e + p - 1 + 1)) with high | beyond
  · rcases le_or_gt (2 ^ (e + p - 1)) (n * 2 ^ e + δ) with low | before
    · -- in the binade of `n * 2 ^ e`
      have scale : ((n : ℚ) * 2 ^ e + δ) / 2 ^ e - n = δ / 2 ^ e := by field_simp; ring
      have size : |δ / 2 ^ e| = |δ| / 2 ^ e := by rw [abs_div, abs_of_pos place]
      rw [round_eq low high, index, mul_left_inj' place.ne', Int.cast_inj, integer_eq_iff, scale, size,
        ← mul_div_assoc, div_lt_one place, div_eq_one_iff_eq place.ne']
      refine ⟨fun near => ⟨near, fun least_n less => ?_⟩, Absorbs.near⟩
      exfalso
      rw [abs_of_pos (by exact_mod_cast n_pos)] at least_n
      rw [← bottom, least_n] at low
      nlinarith
    · have less : δ < 0 := by linarith
      rcases lt_or_eq_of_le least with more | same
      · -- the binade below is too far away
        have more' : ((2 ^ (p - 1) : ℤ) : ℚ) + 1 ≤ n := by exact_mod_cast more
        have apart : (2 : ℚ) ^ (e + p - 1) + 2 ^ e ≤ n * 2 ^ e := by
          rw [← bottom]
          calc ((2 ^ (p - 1) : ℤ) : ℚ) * 2 ^ e + 2 ^ e = (((2 ^ (p - 1) : ℤ) : ℚ) + 1) * 2 ^ e := by ring
            _ ≤ n * 2 ^ e := mul_le_mul_of_nonneg_right more' place.le
        have short := round_le_power some_bit before
        refine iff_of_false (by linarith) fun absorbs => ?_
        have near := absorbs.near
        rw [abs_of_neg less] at near
        rcases near with near | ⟨near, _⟩ <;> linarith
      · have power : (n : ℚ) * 2 ^ e = 2 ^ (e + p - 1) := by rw [← bottom, same]
        rw [power, round_power some_bit less, index]
        constructor
        · intro near
          refine ⟨.inl ?_, fun _ _ => near⟩
          have := abs_pos.mpr less.ne
          linarith
        · intro absorbs
          refine absorbs.below ?_ (mul_neg_of_pos_of_neg n_pos less)
          rw [← same, abs_of_pos (by positivity)]
  · have more := power_le_round some_bit beyond
    refine iff_of_false (by linarith) fun absorbs => ?_
    have near := absorbs.near
    rw [abs_of_pos (by linarith)] at near
    rcases near with near | ⟨near, _⟩ <;> linarith

theorem round_absorbs (least : 2 ^ (p - 1) ≤ |n|) (most : |n| < 2 ^ p) :
    round p (n * 2 ^ e + δ) = n * 2 ^ e ↔ Absorbs p n e δ := by
  rcases le_or_gt 0 n with nonneg | neg
  · rw [abs_of_nonneg nonneg] at least most
    exact round_absorbs_pos some_bit least most
  · rw [abs_of_neg neg] at least most
    have opposite := round_absorbs_pos (e := e) (δ := -δ) some_bit least most
    have flip : (((-n : ℤ) : ℚ) * 2 ^ e + -δ) = -(n * 2 ^ e + δ) := by push_cast; ring
    have back : Absorbs p (-n) e (-δ) ↔ Absorbs p n e δ :=
      ⟨fun absorbs => by simpa using absorbs.neg, Absorbs.neg⟩
    rw [← back, ← opposite, flip, round_neg]
    push_cast
    rw [neg_mul, neg_inj]

end absorbs

theorem round_near (pos : 0 < x) : |round p x - x| * 2 ^ p ≤ x := by
  obtain ⟨j, low, high⟩ := exists_binade pos
  have place : (0 : ℚ) < 2 ^ (j + 1 - p) := zpow_pos two_pos _
  have near := integer_near (x / 2 ^ (j + 1 - p))
  have whole : x / 2 ^ (j + 1 - p) * 2 ^ (j + 1 - p) = x := div_mul_cancel₀ _ place.ne'
  have weight : (2 : ℚ) ^ (j + 1 - p) * 2 ^ p = 2 * 2 ^ j := by
    rw [← zpow_natCast, ← zpow_add₀ two_ne_zero, sub_add_cancel, zpow_add_one₀ two_ne_zero, mul_comm]
  rw [round_eq low high]
  have error : |(integer (x / 2 ^ (j + 1 - p)) : ℚ) * 2 ^ (j + 1 - p) - x| ≤ 2 ^ (j + 1 - p) / 2 := by
    rw [abs_le]
    constructor <;> nlinarith
  calc _ ≤ 2 ^ (j + 1 - p) / 2 * 2 ^ p := mul_le_mul_of_nonneg_right error (by positivity)
    _ = 2 ^ j := by linarith
    _ ≤ x := low

theorem fits_sub (fits : Fits p x) (fits' : Fits p y) (x_pos : 0 < x) (y_pos : 0 < y) (most : x ≤ 2 * y)
    (most' : y ≤ 2 * x) : Fits p (x - y) := by
  have ordered {x y : ℚ} (fits : Fits p x) (fits' : Fits p y) (x_pos : 0 < x) (y_pos : 0 < y)
      (less : x - y ≤ y) (le : y ≤ x) : Fits p (x - y) := by
    obtain ⟨n, e, small, rfl⟩ := fits
    obtain ⟨m, f, small', rfl⟩ := fits'
    have bound {z : ℚ} {k g : ℤ} (small : |k| < 2 ^ p) (value : z = k * 2 ^ g) {i : ℤ}
        (whole : (n : ℚ) * 2 ^ e - m * 2 ^ f = i * 2 ^ g) (le : (n : ℚ) * 2 ^ e - m * 2 ^ f ≤ z) :
        Fits p ((n : ℚ) * 2 ^ e - m * 2 ^ f) := by
      refine ⟨i, g, ?_, whole⟩
      have i_nonneg : (0 : ℚ) ≤ i := by
        by_contra neg
        have := mul_neg_of_neg_of_pos (not_le.mp neg) (zpow_pos (two_pos : (0 : ℚ) < 2) g)
        linarith
      rw [abs_of_nonneg (by exact_mod_cast i_nonneg)]
      rw [whole, value] at le
      have := le_of_mul_le_mul_right le (zpow_pos two_pos g)
      exact lt_of_le_of_lt (by exact_mod_cast this) (lt_of_le_of_lt (le_abs_self k) small)
    rcases le_total e f with first | second
    · obtain ⟨k, shift⟩ : ∃ k : ℕ, f = k + e := ⟨(f - e).toNat, by omega⟩
      refine bound (z := n * 2 ^ e) (i := n - m * 2 ^ k) small rfl ?_ (by linarith)
      rw [shift, zpow_add₀ two_ne_zero, zpow_natCast]
      push_cast
      ring
    · obtain ⟨k, shift⟩ : ∃ k : ℕ, e = k + f := ⟨(e - f).toNat, by omega⟩
      refine bound (i := n * 2 ^ k - m) small' rfl ?_ less
      rw [shift, zpow_add₀ two_ne_zero, zpow_natCast]
      push_cast
      ring
  rcases le_total y x with le | ge
  · exact ordered fits fits' x_pos y_pos (by linarith) le
  · have opposite := (ordered fits' fits y_pos x_pos (by linarith) ge).neg
    rwa [neg_sub] at opposite

end Nearest
