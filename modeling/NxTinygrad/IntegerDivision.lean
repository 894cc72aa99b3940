import NxTinygrad.Graph
import NxTinygrad.Lib.Nearest

/- `_quotient` and `_remainder` of operations.py on integers, which tinygrad divides in float32. With
   operands of at most 64 bits every number below is 0 or between 2^-65 and 2^66 in size, where
   float32 is rounding to 24 bits. -/
namespace NxTinygrad.IntegerDivision
open IR Nearest

def float32 (x : ℚ) : ℚ := Nearest.round 24 x

def divide (a b : ℤ) : ℚ := float32 (float32 a / float32 b)

def trunc (x : ℚ) : ℤ := if 0 ≤ x then ⌊x⌋ else ⌈x⌉

def quotient (a b : ℤ) : ℚ := trunc (divide a b)

def remainder (a b : ℤ) : ℚ := float32 (float32 a - float32 (float32 b * trunc (divide a b)))

/-- `apply`: the result is cast to the dtype of the node. -/
def apply (cast : Dtype → ℚ → ℤ) (d : Dtype) (op : ℤ → ℤ → ℚ) (a b : ℤ) : ℤ := cast d (op a b)

def Holds : Dtype → ℤ → Prop
  | .s8, z => -2 ^ 7 ≤ z ∧ z < 2 ^ 7
  | .s16, z => -2 ^ 15 ≤ z ∧ z < 2 ^ 15
  | .s32, z => -2 ^ 31 ≤ z ∧ z < 2 ^ 31
  | .s64, z => -2 ^ 63 ≤ z ∧ z < 2 ^ 63
  | .u8, z => 0 ≤ z ∧ z < 2 ^ 8
  | .u16, z => 0 ≤ z ∧ z < 2 ^ 16
  | .u32, z => 0 ≤ z ∧ z < 2 ^ 32
  | .u64, z => 0 ≤ z ∧ z < 2 ^ 64
  | _, _ => False

def Faithful (cast : Dtype → ℚ → ℤ) : Prop := ∀ d (z : ℤ), Holds d z → cast d z = z

def Exact (d : Dtype) (a b : ℤ) : Prop := ∀ cast, Faithful cast →
  apply cast d quotient a b = a.tdiv b ∧ apply cast d remainder a b = a - b * a.tdiv b

/-- The midpoint of `m` and the number of 24 bits before it. -/
def before (m : ℕ) : ℚ := m - 2 ^ ((Nat.clog 2 m : ℤ) - 25)

def after (q : ℕ) : ℕ := q + 2 ^ (Nat.log 2 q - 23)

/-- `q` has 24 bits, and the quotient of the rounded operands is one that rounds to `q` or to
    something up to the integer after it. -/
structure QuotientKept (a b : ℚ) (q : ℕ) : Prop where
  bits : 2 ^ (Nat.log 2 q - 23) ∣ q
  low : before q * |float32 b| < |float32 a|
  high : |float32 a| < before (after q) * |float32 b|

def whole (z : ℤ) : ℤ := ⌊float32 z⌋

def weight (y : ℤ) : ℤ := 2 ^ (Nat.log 2 y.natAbs - 23)

/-- `y` has 24 bits and is the nearest such number to `y + δ`; below a power of two they are twice as
    close, and on a tie the last bit of `y` is 0. -/
structure Absorbed (y δ : ℤ) : Prop where
  bits : weight y ∣ y
  near : 2 * |δ| < weight y ∨ 2 * |δ| = weight y ∧ 2 * weight y ∣ y
  below : y.natAbs = 2 ^ Nat.log 2 y.natAbs → y * δ < 0 → 4 * |δ| ≤ weight y

/-- The product that has to be subtracted is `b` times the quotient and what rounding added to `a`; the
    product of the rounded `b` is that far away from it. -/
structure Kept (a b : ℤ) : Prop where
  quotient : QuotientKept a b (a.tdiv b).natAbs
  remainder : Absorbed (b * a.tdiv b + (whole a - a)) (a.tdiv b * (whole b - b) - (whole a - a))

theorem normal {n i : ℕ} (some_n : 0 < n) (small : n ≤ 2 ^ 24) :
    ∃ M e : ℤ, 2 ^ (24 - 1) < M ∧ M ≤ 2 ^ 24 ∧ ((n * 2 ^ i : ℕ) : ℚ) = M * 2 ^ e ∧
      before (n * 2 ^ i) = ((M : ℚ) - 1 / 2) * 2 ^ e := by
  have pos : 0 < n * 2 ^ i := Nat.mul_pos some_n (by positivity)
  generalize k_eq : Nat.clog 2 (n * 2 ^ i) = k
  have top : n * 2 ^ i ≤ 2 ^ k := k_eq ▸ Nat.le_pow_clog one_lt_two _
  have bottom : 2 ^ k < 2 * (n * 2 ^ i) := by
    rcases Nat.lt_or_ge 1 (n * 2 ^ i) with two | one
    · have less := Nat.pow_pred_clog_lt_self one_lt_two two
      have some_k := Nat.clog_pos one_lt_two two
      rw [k_eq] at less some_k
      obtain ⟨j, rfl⟩ : ∃ j, k = j + 1 := ⟨k - 1, by omega⟩
      rw [Nat.pow_succ]
      simp only [Nat.pred_eq_sub_one, Nat.add_sub_cancel] at less
      omega
    · have same : n * 2 ^ i = 1 := by omega
      rw [same, Nat.clog_one_right] at k_eq
      rw [← k_eq, same]
      omega
  obtain ⟨M, whole⟩ : ∃ M : ℕ, n * 2 ^ i * 2 ^ 24 = M * 2 ^ k := by
    rcases Nat.le_total k 24 with le | ge
    · refine ⟨n * 2 ^ i * 2 ^ (24 - k), ?_⟩
      rw [Nat.mul_assoc (n * 2 ^ i) _ (2 ^ k), ← Nat.pow_add, Nat.sub_add_cancel le]
    · have bound : 2 ^ k < 2 ^ (25 + i) := by
        calc 2 ^ k < 2 * (n * 2 ^ i) := bottom
          _ ≤ 2 * (2 ^ 24 * 2 ^ i) := by gcongr
          _ = 2 ^ (25 + i) := by rw [Nat.pow_add]; ring
      have := (Nat.pow_lt_pow_iff_right one_lt_two).mp bound
      refine ⟨n * 2 ^ (i + 24 - k), ?_⟩
      rw [Nat.mul_assoc, Nat.mul_assoc, ← Nat.pow_add, ← Nat.pow_add, Nat.sub_add_cancel (by omega)]
  have place : (0 : ℚ) < 2 ^ k := by positivity
  have shift : (2 : ℚ) ^ ((k : ℤ) - 24) = 2 ^ k / 2 ^ 24 := by
    rw [zpow_sub₀ two_ne_zero]
    norm_cast
  have whole' : ((n * 2 ^ i : ℕ) : ℚ) * 2 ^ 24 = M * 2 ^ k := by exact_mod_cast whole
  have value : ((n * 2 ^ i : ℕ) : ℚ) = M * 2 ^ ((k : ℤ) - 24) := by
    rw [shift]
    field_simp
    linarith
  refine ⟨M, k - 24, ?_, ?_, value, ?_⟩
  · have : 2 ^ 23 * 2 ^ k < M * 2 ^ k := by
      rw [← whole]
      omega
    exact_mod_cast Nat.lt_of_mul_lt_mul_right this
  · have : M * 2 ^ k ≤ 2 ^ 24 * 2 ^ k := by
      rw [← whole]
      omega
    exact_mod_cast Nat.le_of_mul_le_mul_right this (by positivity)
  · have half : (2 : ℚ) ^ ((k : ℤ) - 25) = 1 / 2 * 2 ^ ((k : ℤ) - 24) := by
      rw [show (k : ℤ) - 25 = k - 24 - 1 by ring, zpow_sub_one₀ two_ne_zero]
      ring
    rw [before, k_eq, value, half]
    push_cast
    ring

theorem fits_multiple {y : ℚ} {j : ℕ} (fits : Fits 24 y) (large : (2 : ℚ) ^ j ≤ |y|) (beyond : 23 ≤ j) :
    ∃ n : ℤ, y = n * 2 ^ (j - 23) := by
  obtain ⟨n, e, small, rfl⟩ := fits
  have bound : |(n : ℚ)| < 2 ^ (24 : ℤ) := by exact_mod_cast small
  have less : (2 : ℚ) ^ (j : ℤ) < 2 ^ (24 + e) := by
    rw [zpow_natCast, zpow_add₀ two_ne_zero]
    refine lt_of_le_of_lt large ?_
    rw [abs_mul, abs_of_pos (zpow_pos (two_pos : (0 : ℚ) < 2) e)]
    exact mul_lt_mul_of_pos_right bound (zpow_pos two_pos e)
  have less := (zpow_lt_zpow_iff_right₀ (one_lt_two : (1 : ℚ) < 2)).mp less
  obtain ⟨k, shift⟩ : ∃ k : ℕ, e = k + (j - 23 : ℕ) := ⟨(e - (j - 23 : ℕ)).toNat, by omega⟩
  refine ⟨n * 2 ^ k, ?_⟩
  rw [shift, zpow_add₀ two_ne_zero, zpow_natCast, zpow_natCast]
  push_cast
  ring

theorem le_float32_iff {u v : ℚ} {n i : ℕ} (fits : Fits 24 u) (fits' : Fits 24 v) (some_u : 0 < u)
    (some_v : 0 < v) (some_n : 0 < n) (small : n ≤ 2 ^ 24) :
    ((n * 2 ^ i : ℕ) : ℚ) ≤ float32 (u / v) ↔ before (n * 2 ^ i) < u / v := by
  obtain ⟨M, e, least, most, value, midpoint⟩ := normal (i := i) some_n small
  rw [value, midpoint, float32]
  constructor
  · intro reached
    by_contra short
    have apart := no_midpoint (M := M) (e := e) least fits fits' some_u some_v
    have below := lt_of_le_of_ne (not_lt.mp short) apart
    exact absurd reached (not_le.mpr (round_lt (by decide) least most (div_pos some_u some_v) below))
  · exact le_round (by decide) least most

theorem after_eq (q : ℕ) (bits : 2 ^ (Nat.log 2 q - 23) ∣ q) :
    ∃ Q, Q < 2 ^ 24 ∧ q = Q * 2 ^ (Nat.log 2 q - 23) ∧ after q = (Q + 1) * 2 ^ (Nat.log 2 q - 23) := by
  obtain ⟨Q, value⟩ := bits
  rw [Nat.mul_comm] at value
  refine ⟨Q, ?_, value, by rw [after, Nat.succ_mul, ← value]⟩
  have high : q < 2 ^ (Nat.log 2 q + 1) := Nat.lt_pow_succ_log_self one_lt_two q
  have bound : Q * 2 ^ (Nat.log 2 q - 23) < 2 ^ 24 * 2 ^ (Nat.log 2 q - 23) := by
    rw [← value, ← Nat.pow_add]
    exact lt_of_lt_of_le high (Nat.pow_le_pow_right two_pos (by omega))
  exact Nat.lt_of_mul_lt_mul_right bound

theorem before_zero : before 0 < 0 := by
  rw [before, Nat.cast_zero, zero_sub]
  exact neg_neg_of_pos (zpow_pos two_pos _)

theorem floor_iff {u v : ℚ} (fits : Fits 24 u) (fits' : Fits 24 v) (some_u : 0 < u)
    (some_v : 0 < v) (q : ℕ) :
    ⌊float32 (u / v)⌋ = q ↔ 2 ^ (Nat.log 2 q - 23) ∣ q ∧ before q < u / v ∧
    u / v < before (after q) := by
  have quotient_pos := div_pos some_u some_v
  have y_pos : 0 < float32 (u / v) := round_pos (by decide) quotient_pos
  have y_fits : Fits 24 (float32 (u / v)) := round_fits (by decide) _
  have lower (bits : 2 ^ (Nat.log 2 q - 23) ∣ q) : (q : ℚ) ≤ float32 (u / v) ↔ before q < u / v := by
    rcases Nat.eq_zero_or_pos q with rfl | some_q
    · exact iff_of_true (by exact_mod_cast y_pos.le) (before_zero.trans quotient_pos)
    · obtain ⟨Q, small, value, _⟩ := after_eq q bits
      have some_Q : 0 < Q := by
        rcases Nat.eq_zero_or_pos Q with rfl | pos
        · omega
        · exact pos
      have step := le_float32_iff (i := Nat.log 2 q - 23) fits fits' some_u some_v some_Q small.le
      rwa [← value] at step
  have upper (bits : 2 ^ (Nat.log 2 q - 23) ∣ q) :
      (after q : ℚ) ≤ float32 (u / v) ↔ before (after q) < u / v := by
    obtain ⟨Q, small, _, next⟩ := after_eq q bits
    rw [next]
    exact le_float32_iff fits fits' some_u some_v (Nat.succ_pos Q) small
  rw [Int.floor_eq_iff, Int.cast_natCast]
  constructor
  · rintro ⟨low, high⟩
    have bits : 2 ^ (Nat.log 2 q - 23) ∣ q := by
      rcases Nat.lt_or_ge (Nat.log 2 q) 24 with few | many
      · simp [show Nat.log 2 q - 23 = 0 by omega]
      · have some_q : q ≠ 0 := by
          rintro rfl
          simp at many
        have large : (2 : ℚ) ^ Nat.log 2 q ≤ |float32 (u / v)| := by
          rw [abs_of_pos y_pos]
          exact le_trans (by exact_mod_cast Nat.pow_log_le_self 2 some_q) low
        obtain ⟨n, value⟩ := fits_multiple y_fits large (by omega)
        have same : (q : ℤ) = n * 2 ^ (Nat.log 2 q - 23) := by
          rw [value] at low high
          have le : (q : ℤ) ≤ n * 2 ^ (Nat.log 2 q - 23) := by exact_mod_cast low
          have lt : n * 2 ^ (Nat.log 2 q - 23) < (q : ℤ) + 1 := by exact_mod_cast high
          omega
        exact Int.natCast_dvd_natCast.mp ⟨n, by push_cast; rw [same]; ring⟩
    refine ⟨bits, (lower bits).mp low, ?_⟩
    have short : ¬ (after q : ℚ) ≤ float32 (u / v) := by
      have next : (q : ℚ) + 1 ≤ after q := by
        have one : 1 ≤ 2 ^ (Nat.log 2 q - 23) := Nat.one_le_two_pow
        rw [after]
        exact_mod_cast Nat.add_le_add_left one q
      linarith
    have apart : u / v ≠ before (after q) := by
      obtain ⟨Q, small, _, next⟩ := after_eq q bits
      obtain ⟨M, e, least, _, _, midpoint⟩ := normal (i := Nat.log 2 q - 23) (Nat.succ_pos Q) small
      rw [next, midpoint]
      exact no_midpoint least fits fits' some_u some_v
    exact lt_of_le_of_ne (not_lt.mp (mt (upper bits).mpr short)) apart
  · rintro ⟨bits, above, below⟩
    have low := (lower bits).mpr above
    have high : float32 (u / v) < after q := not_le.mp (mt (upper bits).mp (not_lt.mpr below.le))
    refine ⟨low, ?_⟩
    rcases Nat.lt_or_ge (Nat.log 2 q) 24 with few | many
    · have next : after q = q + 1 := by simp [after, show Nat.log 2 q - 23 = 0 by omega]
      rw [next] at high
      exact_mod_cast high
    · -- the numbers of 24 bits are at least as far apart as `q` and `after q`
      have some_q : q ≠ 0 := by
        rintro rfl
        simp at many
      have large : (2 : ℚ) ^ Nat.log 2 q ≤ |float32 (u / v)| := by
        rw [abs_of_pos y_pos]
        exact le_trans (by exact_mod_cast Nat.pow_log_le_self 2 some_q) low
      obtain ⟨n, value⟩ := fits_multiple y_fits large (by omega)
      obtain ⟨Q, _, whole, next⟩ := after_eq q bits
      have place : (0 : ℚ) < 2 ^ (Nat.log 2 q - 23) := by positivity
      have le : (n : ℚ) < (Q + 1 : ℕ) := by
        rw [value, next] at high
        push_cast at high ⊢
        exact lt_of_mul_lt_mul_right high place.le
      have le : n ≤ Q := by
        have : n < (Q + 1 : ℕ) := by exact_mod_cast le
        omega
      have most : float32 (u / v) ≤ q := by
        have cast : (q : ℚ) = Q * 2 ^ (Nat.log 2 q - 23) := by
          exact_mod_cast congrArg (Nat.cast (R := ℚ)) whole
        rw [value, cast]
        exact mul_le_mul_of_nonneg_right (by exact_mod_cast le) place.le
      linarith

theorem float32_neg (x : ℚ) : float32 (-x) = -float32 x := round_neg x

theorem float32_zero : float32 0 = 0 := round_zero

theorem trunc_neg (x : ℚ) : trunc (-x) = -trunc x := by
  unfold trunc
  rcases lt_trichotomy x 0 with less | rfl | more
  · rw [if_pos (by linarith), if_neg (by linarith), Int.floor_neg]
  · simp
  · rw [if_neg (by linarith), if_pos more.le, Int.ceil_neg]

theorem divide_neg_left (a b : ℤ) : divide (-a) b = -divide a b := by
  rw [divide, divide, Int.cast_neg, float32_neg, neg_div, float32_neg]

theorem divide_neg_right (a b : ℤ) : divide a (-b) = -divide a b := by
  rw [divide, divide, Int.cast_neg, float32_neg, div_neg, float32_neg]

theorem quotientKept_neg_left (a b : ℚ) (q : ℕ) : QuotientKept (-a) b q ↔ QuotientKept a b q := by
  have same : |float32 (-a)| = |float32 a| := by rw [float32_neg, abs_neg]
  exact ⟨fun ⟨bits, low, high⟩ => ⟨bits, same ▸ low, same ▸ high⟩,
    fun ⟨bits, low, high⟩ => ⟨bits, same.symm ▸ low, same.symm ▸ high⟩⟩

theorem quotientKept_neg_right (a b : ℚ) (q : ℕ) : QuotientKept a (-b) q ↔ QuotientKept a b q := by
  have same : |float32 (-b)| = |float32 b| := by rw [float32_neg, abs_neg]
  exact ⟨fun ⟨bits, low, high⟩ => ⟨bits, same ▸ low, same ▸ high⟩,
    fun ⟨bits, low, high⟩ => ⟨bits, same.symm ▸ low, same.symm ▸ high⟩⟩

theorem trunc_divide_nat (a b : ℕ) (some_b : 0 < b) :
    trunc (divide a b) = (a / b : ℕ) ↔ QuotientKept a b (a / b) := by
  have b_pos : 0 < float32 b := round_pos (by decide) (by exact_mod_cast some_b)
  rw [divide, Int.cast_natCast, Int.cast_natCast]
  rcases Nat.eq_zero_or_pos a with rfl | some_a
  · have window : QuotientKept ((0 : ℕ) : ℚ) b (0 / b) := by
      rw [Nat.zero_div, Nat.cast_zero]
      have first : before (after 0) = 1 - 2 ^ (-25 : ℤ) := by simp [before, after]
      refine ⟨by simp, ?_, ?_⟩ <;> rw [float32_zero, abs_zero, abs_of_pos b_pos]
      · exact mul_neg_of_neg_of_pos before_zero b_pos
      · rw [first]
        exact mul_pos (by norm_num) b_pos
    refine iff_of_true ?_ window
    rw [Nat.cast_zero, float32_zero, zero_div, float32_zero, Nat.zero_div]
    rfl
  · have a_pos : 0 < float32 a := round_pos (by decide) (by exact_mod_cast some_a)
    have y_pos : 0 < float32 (float32 a / float32 b) := round_pos (by decide) (div_pos a_pos b_pos)
    have fits (x : ℚ) : Fits 24 (float32 x) := round_fits (by decide) x
    rw [trunc, if_pos y_pos.le, floor_iff (fits a) (fits b) a_pos b_pos, lt_div_iff₀ b_pos,
      div_lt_iff₀ b_pos]
    constructor
    · rintro ⟨bits, low, high⟩
      exact ⟨bits, by rwa [abs_of_pos a_pos, abs_of_pos b_pos], by rwa
        [abs_of_pos a_pos, abs_of_pos b_pos]⟩
    · rintro ⟨bits, low, high⟩
      rw [abs_of_pos a_pos, abs_of_pos b_pos] at low high
      exact ⟨bits, low, high⟩

theorem trunc_divide (a b : ℤ) (some_b : b ≠ 0) :
    trunc (divide a b) = a.tdiv b ↔ QuotientKept a b (a.tdiv b).natAbs := by
  have nat_case (a b : ℕ) (some_b : (b : ℤ) ≠ 0) :
      trunc (divide a b) = (a : ℤ).tdiv b ↔ QuotientKept (a : ℤ) (b : ℤ) ((a : ℤ).tdiv b).natAbs := by
    have pos : 0 < b := Nat.pos_of_ne_zero (by exact_mod_cast some_b)
    exact trunc_divide_nat a b pos
  have right_case (a : ℕ) (b : ℤ) (some_b : b ≠ 0) :
      trunc (divide a b) = (a : ℤ).tdiv b ↔ QuotientKept (a : ℤ) b ((a : ℤ).tdiv b).natAbs := by
    obtain ⟨n, rfl | rfl⟩ := b.eq_nat_or_neg
    · exact nat_case a n some_b
    · rw [divide_neg_right, trunc_neg, Int.tdiv_neg, neg_inj, Int.natAbs_neg, Int.cast_neg (n : ℤ),
        quotientKept_neg_right]
      exact nat_case a n (neg_ne_zero.mp some_b)
  obtain ⟨n, rfl | rfl⟩ := a.eq_nat_or_neg
  · exact right_case n b some_b
  · rw [divide_neg_left, trunc_neg, Int.neg_tdiv, neg_inj, Int.natAbs_neg, Int.cast_neg (n : ℤ),
      quotientKept_neg_left]
    exact right_case n b some_b

theorem fits_small {z : ℤ} (small : |z| ≤ 2 ^ 24) : Fits 24 z := by
  rcases lt_or_eq_of_le small with less | top
  · exact ⟨z, 0, less, by simp⟩
  · have most : Fits 24 ((2 ^ 24 : ℤ) : ℚ) := by simpa using fits_top 0 (by decide : 0 < 24)
    rcases (abs_eq (by positivity)).mp top with rfl | rfl
    · exact most
    · simpa using most.neg

theorem float32_small {z : ℤ} (small : |z| ≤ 2 ^ 24) : float32 z = z := round_of_fits (fits_small small)

theorem float32_large {x : ℚ} (large : 2 ^ 24 ≤ |x|) : 2 ^ 24 ≤ |float32 x| := by
  have positive (x : ℚ) (large : 2 ^ 24 ≤ x) : 2 ^ 24 ≤ |float32 x| := by
    have pos : 0 < x := lt_of_lt_of_le (by positivity) large
    obtain ⟨j, low, high⟩ := exists_binade pos
    have less : (2 : ℚ) ^ (24 : ℤ) < 2 ^ (j + 1) := lt_of_le_of_lt (by exact_mod_cast large) high
    have less := (zpow_lt_zpow_iff_right₀ (one_lt_two : (1 : ℚ) < 2)).mp less
    calc (2 : ℚ) ^ 24 = 2 ^ (24 : ℤ) := by norm_cast
      _ ≤ 2 ^ j := zpow_le_zpow_right₀ one_le_two (by omega)
      _ ≤ float32 x := (round_bounds (by decide) low high).1
      _ ≤ |float32 x| := le_abs_self _
  rcases le_total 0 x with nonneg | nonpos
  · rw [abs_of_nonneg nonneg] at large
    exact positive x large
  · rw [abs_of_nonpos nonpos] at large
    have opposite := positive (-x) large
    rwa [float32_neg, abs_neg] at opposite

theorem float32_integer (z : ℤ) : ∃ n : ℤ, float32 z = n := by
  rcases lt_or_ge |z| (2 ^ 24) with small | large
  · exact ⟨z, float32_small small.le⟩
  · have large : (2 : ℚ) ^ 24 ≤ |(z : ℚ)| := by exact_mod_cast large
    obtain ⟨n, value⟩ := fits_multiple (round_fits (by decide) (z : ℚ))
      (float32_large large) (by decide)
    exact ⟨n * 2 ^ (24 - 23), by rw [float32, value]; push_cast; rfl⟩

theorem whole_eq (z : ℤ) : (whole z : ℚ) = float32 z := by
  obtain ⟨n, value⟩ := float32_integer z
  rw [whole, value, Int.floor_intCast]

theorem log_small {y : ℤ} (small : |y| < 2 ^ 24) : Nat.log 2 y.natAbs ≤ 23 := by
  rw [Int.abs_eq_natAbs] at small
  exact Nat.le_of_lt_succ (Nat.log_lt_of_lt_pow' (by decide) (by exact_mod_cast small))

theorem absorbed_small {y δ : ℤ} (small : |y| < 2 ^ 24) :
    float32 ((y + δ : ℤ) : ℚ) = y ↔ Absorbed y δ := by
  have one : weight y = 1 := by rw [weight, Nat.sub_eq_zero_of_le (log_small small), pow_zero]
  have none : Absorbed y δ ↔ δ = 0 := by
    constructor
    · rintro ⟨_, near, _⟩
      rw [one] at near
      rcases near with near | ⟨near, _⟩ <;> · have := abs_nonneg δ; exact abs_eq_zero.mp (by omega)
    · rintro rfl
      exact ⟨by rw [one]; exact one_dvd y, .inl (by simp [one]), fun _ _ => by simp [one]⟩
  rw [none]
  constructor
  · intro same
    rcases le_or_gt |y + δ| (2 ^ 24) with short | long
    · rw [float32_small short, Int.cast_inj] at same
      omega
    · have large : (2 : ℚ) ^ 24 ≤ |((y + δ : ℤ) : ℚ)| := by exact_mod_cast long.le
      have reached := float32_large large
      rw [same] at reached
      have : (2 : ℤ) ^ 24 ≤ |y| := by exact_mod_cast reached
      omega
  · rintro rfl
    rw [add_zero, float32_small small.le]

theorem absorbed_scaled {n δ : ℤ} {i : ℕ} (least : 2 ^ 23 ≤ |n|) (most : |n| < 2 ^ 24) :
    float32 ((n * 2 ^ i + δ : ℤ) : ℚ) = (n * 2 ^ i : ℤ) ↔ Absorbed (n * 2 ^ i) δ := by
  have size : (n * 2 ^ i).natAbs = n.natAbs * 2 ^ i := by rw [Int.natAbs_mul, Int.natAbs_pow]; rfl
  have natural : 2 ^ 23 ≤ n.natAbs ∧ n.natAbs < 2 ^ 24 := by
    rw [Int.abs_eq_natAbs] at least most
    exact ⟨by exact_mod_cast least, by exact_mod_cast most⟩
  have log : Nat.log 2 (n * 2 ^ i).natAbs = 23 + i := by
    rw [Nat.log_eq_iff (.inl (by omega)), size]
    constructor
    · rw [Nat.pow_add]
      exact Nat.mul_le_mul_right _ natural.1
    · rw [show 23 + i + 1 = 24 + i by ring, Nat.pow_add]
      exact Nat.mul_lt_mul_of_pos_right natural.2 (by positivity)
  have unit : weight (n * 2 ^ i) = 2 ^ i := by rw [weight, log, Nat.add_sub_cancel_left]
  have place : (0 : ℤ) < 2 ^ i := by positivity
  have value : ((n * 2 ^ i : ℤ) : ℚ) = n * 2 ^ (i : ℤ) := by
    rw [zpow_natCast]
    push_cast
    rfl
  have same : Absorbs 24 n i δ ↔ Absorbed (n * 2 ^ i) δ := by
    have even : 2 * 2 ^ i ∣ n * 2 ^ i ↔ 2 ∣ n := mul_dvd_mul_iff_right place.ne'
    have power : (n * 2 ^ i).natAbs = 2 ^ (23 + i) ↔ |n| = 2 ^ (24 - 1) := by
      rw [size, Nat.pow_add, Nat.mul_left_inj (by positivity), Int.abs_eq_natAbs]
      exact_mod_cast Iff.rfl
    have sign : n * 2 ^ i * δ < 0 ↔ n * δ < 0 := by
      rw [show n * 2 ^ i * δ = n * δ * 2 ^ i by ring]
      exact ⟨fun less => neg_of_mul_neg_left less place.le, fun less => mul_neg_of_neg_of_pos less place⟩
    constructor
    · rintro ⟨near, below⟩
      rw [zpow_natCast] at near below
      refine ⟨by rw [unit]; exact Dvd.intro_left n rfl, ?_, fun top less => ?_⟩
      · rw [unit, even]
        exact_mod_cast near
      · rw [log, power] at top
        rw [unit]
        exact_mod_cast below top (by exact_mod_cast sign.mp less)
    · rintro ⟨_, near, below⟩
      rw [unit, even] at near
      rw [unit, log, power, sign] at below
      refine ⟨by rw [zpow_natCast]; exact_mod_cast near, fun top less => ?_⟩
      rw [zpow_natCast]
      exact_mod_cast below top (by exact_mod_cast less)
  rw [← same, Int.cast_add, value]
  exact round_absorbs (by decide) least most

theorem absorbed_iff (y δ : ℤ) : float32 ((y + δ : ℤ) : ℚ) = y ↔ Absorbed y δ := by
  rcases lt_or_ge |y| (2 ^ 24) with small | large
  · exact absorbed_small small
  have natural : 2 ^ 24 ≤ y.natAbs := by
    rw [Int.abs_eq_natAbs] at large
    exact_mod_cast large
  obtain ⟨i, log⟩ : ∃ i, Nat.log 2 y.natAbs = 23 + i := by
    have : 24 ≤ Nat.log 2 y.natAbs := Nat.le_log_of_pow_le one_lt_two natural
    exact ⟨Nat.log 2 y.natAbs - 23, by omega⟩
  have low : 2 ^ (23 + i) ≤ y.natAbs := log ▸ Nat.pow_log_le_self 2 (by omega)
  have high : y.natAbs < 2 ^ (24 + i) := by
    have := Nat.lt_pow_succ_log_self one_lt_two y.natAbs
    rw [log] at this
    rwa [show (23 + i).succ = 24 + i by omega] at this
  have unit : weight y = 2 ^ i := by rw [weight, log, Nat.add_sub_cancel_left]
  by_cases bits : weight y ∣ y
  · obtain ⟨n, value⟩ := bits
    rw [unit, mul_comm] at value
    have size : |y| = |n| * 2 ^ i := by rw [value, abs_mul, abs_of_pos (by positivity : (0 : ℤ) < 2 ^ i)]
    have place : (0 : ℤ) < 2 ^ i := by positivity
    have least : 2 ^ 23 * 2 ^ i ≤ |n| * 2 ^ i := by
      rw [← size, Int.abs_eq_natAbs, ← pow_add]
      exact_mod_cast low
    have most : |n| * 2 ^ i < 2 ^ 24 * 2 ^ i := by
      rw [← size, Int.abs_eq_natAbs, ← pow_add]
      exact_mod_cast high
    have scaled := absorbed_scaled (n := n) (δ := δ) (i := i) (le_of_mul_le_mul_right least place)
      (lt_of_mul_lt_mul_right most place.le)
    rwa [← value] at scaled
  · refine iff_of_false (fun same => bits ?_) (mt Absorbed.bits bits)
    have large : (2 : ℚ) ^ (23 + i) ≤ |(y : ℚ)| := by
      rw [← Int.cast_abs, Int.abs_eq_natAbs]
      exact_mod_cast low
    have fits : Fits 24 (y : ℚ) := same ▸ round_fits (by decide) _
    obtain ⟨n, value⟩ := fits_multiple fits large (by omega)
    rw [Nat.add_sub_cancel_left] at value
    rw [unit]
    exact Dvd.intro_left n (by exact_mod_cast value.symm)

theorem before_lt (m : ℕ) : before m < m := sub_lt_self _ (zpow_pos two_pos _)

theorem le_before {q : ℕ} (some_q : 0 < q) : 3 / 4 * (q : ℚ) ≤ before q := by
  have place : (2 : ℚ) ^ ((Nat.clog 2 q : ℤ) - 25) = 2 ^ Nat.clog 2 q / 2 ^ 25 := by
    rw [zpow_sub₀ two_ne_zero]
    norm_cast
  have less : 2 ^ Nat.clog 2 q ≤ 2 * q := by
    rcases Nat.lt_or_ge 1 q with two | one
    · have below := Nat.pow_pred_clog_lt_self one_lt_two two
      have some_k := Nat.clog_pos one_lt_two two
      obtain ⟨j, exponent⟩ : ∃ j, Nat.clog 2 q = j + 1 := ⟨Nat.clog 2 q - 1, by omega⟩
      rw [exponent, Nat.pred_succ] at below
      rw [exponent, Nat.pow_succ]
      omega
    · rw [show q = 1 by omega, Nat.clog_one_right]
      decide
  have less : (2 : ℚ) ^ Nat.clog 2 q ≤ 2 * q := by exact_mod_cast less
  rw [before, place]
  linarith

theorem after_le {q : ℕ} (two : 2 ≤ q) : (after q : ℚ) ≤ 3 / 2 * q := by
  have step : 2 * 2 ^ (Nat.log 2 q - 23) ≤ q := by
    rcases Nat.lt_or_ge (Nat.log 2 q) 24 with few | many
    · rwa [show Nat.log 2 q - 23 = 0 by omega, pow_zero, Nat.mul_one]
    · calc 2 * 2 ^ (Nat.log 2 q - 23) = 2 ^ (Nat.log 2 q - 23 + 1) := by ring
        _ ≤ 2 ^ Nat.log 2 q := Nat.pow_le_pow_right two_pos (by omega)
        _ ≤ q := Nat.pow_log_le_self 2 (by omega)
  have step : (2 : ℚ) * 2 ^ (Nat.log 2 q - 23) ≤ q := by exact_mod_cast step
  rw [after]
  push_cast
  linarith

theorem difference_nat {a b : ℕ} (some_b : 0 < b) (kept : QuotientKept a b (a / b)) :
    Fits 24 (float32 a - float32 (float32 b * (a / b : ℕ))) := by
  have fits (x : ℚ) : Fits 24 (float32 x) := round_fits (by decide) x
  have b_pos : 0 < float32 b := round_pos (by decide) (by exact_mod_cast some_b)
  rcases Nat.eq_zero_or_pos (a / b) with zero | some_q
  · rw [zero, Nat.cast_zero, mul_zero, float32_zero, sub_zero]
    exact fits a
  have a_pos : 0 < float32 a := round_pos (by decide) (by
    exact_mod_cast lt_of_lt_of_le some_b ((Nat.one_le_div_iff some_b).mp some_q))
  obtain ⟨_, low, high⟩ := kept
  rw [abs_of_pos a_pos, abs_of_pos b_pos] at low high
  generalize a / b = q at some_q low high
  have q_pos : (0 : ℚ) < q := by exact_mod_cast some_q
  have product : 0 < float32 b * q := mul_pos b_pos q_pos
  have near := round_near (p := 24) product
  have small : |float32 (float32 b * q) - float32 b * q| ≤ 1 / 4 * (float32 b * q) := by
    change |float32 (float32 b * q) - float32 b * q| * 2 ^ 24 ≤ _ at near
    linarith [abs_nonneg (float32 (float32 b * q) - float32 b * q)]
  obtain ⟨above, below⟩ := abs_le.mp small
  refine fits_sub (fits a) (fits _) a_pos (round_pos (by decide) product) ?_ ?_
  · rcases Nat.lt_or_ge 1 q with two | one
    · have most := mul_le_mul_of_nonneg_right ((before_lt (after q)).le.trans (after_le two)) b_pos.le
      linarith
    · obtain rfl : q = 1 := by omega
      have same : float32 (float32 b * (1 : ℕ)) = float32 b := by
        rw [Nat.cast_one, mul_one]
        exact round_of_fits (fits b)
      have two : after 1 = 2 := by decide
      have most := mul_lt_mul_of_pos_right (before_lt (after 1)) b_pos
      rw [two] at most high
      push_cast at most
      rw [same]
      linarith
  · have least := mul_le_mul_of_nonneg_right (le_before some_q) b_pos.le
    linarith

theorem difference_fits {a b : ℤ} (some_b : b ≠ 0) (kept : QuotientKept a b (a.tdiv b).natAbs) :
    Fits 24 (float32 a - float32 (float32 b * a.tdiv b)) := by
  have right_case (a : ℕ) (b : ℤ) (some_b : b ≠ 0) (kept : QuotientKept (a : ℤ) b ((a : ℤ).tdiv b).natAbs) :
      Fits 24 (float32 (a : ℤ) - float32 (float32 b * (a : ℤ).tdiv b)) := by
    obtain ⟨n, rfl | rfl⟩ := b.eq_nat_or_neg
    · exact difference_nat (Nat.pos_of_ne_zero (by exact_mod_cast some_b)) kept
    · rw [Int.tdiv_neg, Int.natAbs_neg, Int.cast_neg, quotientKept_neg_right] at kept
      rw [Int.tdiv_neg, Int.cast_neg, Int.cast_neg, float32_neg, neg_mul_neg]
      exact difference_nat (Nat.pos_of_ne_zero (by simpa using some_b)) kept
  obtain ⟨n, rfl | rfl⟩ := a.eq_nat_or_neg
  · exact right_case n b some_b kept
  · rw [Int.neg_tdiv, Int.natAbs_neg, Int.cast_neg, quotientKept_neg_left] at kept
    rw [Int.neg_tdiv, Int.cast_neg, Int.cast_neg, float32_neg, mul_neg, float32_neg, ← neg_add',
      ← sub_eq_add_neg]
    exact (right_case n b some_b kept).neg

theorem remainder_iff {a b : ℤ} (some_b : b ≠ 0) (kept : QuotientKept a b (a.tdiv b).natAbs) :
    remainder a b = (a - b * a.tdiv b : ℤ) ↔
      Absorbed (b * a.tdiv b + (whole a - a)) (a.tdiv b * (whole b - b) - (whole a - a)) := by
  have product : float32 b * a.tdiv b =
      ((b * a.tdiv b + (whole a - a) + (a.tdiv b * (whole b - b) - (whole a - a)) : ℤ) : ℚ) := by
    rw [← whole_eq, ← Int.cast_mul]
    congr 1
    ring
  rw [remainder, (trunc_divide a b some_b).mpr kept, float32, round_of_fits (difference_fits some_b kept),
    ← absorbed_iff, ← product, ← whole_eq a]
  push_cast
  constructor <;> intro same <;> linarith

theorem holds_between {d : Dtype} {a r : ℤ} (holds : Holds d a)
    (between : 0 ≤ r ∧ r ≤ a ∨ a ≤ r ∧ r ≤ 0) :
    Holds d r := by
  cases d <;> simp only [Holds] at holds ⊢ <;> omega

theorem holds_remainder {d : Dtype} {a b : ℤ} (holds : Holds d a) : Holds d (a - b * a.tdiv b) := by
  rw [← Int.tmod_def]
  have size := Int.natAbs_tmod a b
  have less := Nat.mod_le a.natAbs b.natAbs
  refine holds_between holds ?_
  rcases Int.le_total 0 a with nonneg | nonpos
  · have := Int.tmod_nonneg b nonneg
    omega
  · have := Int.tmod_nonneg b (Int.neg_nonneg.mpr nonpos)
    rw [Int.neg_tmod] at this
    omega

theorem cast_iff {d : Dtype} {x : ℚ} {v : ℤ} (holds : Holds d v) :
    (∀ cast, Faithful cast → cast d x = v) ↔ x = v := by
  constructor
  · intro all
    by_contra other
    classical
    let far : Dtype → ℚ → ℤ := fun d' y => if Holds d' ⌊y⌋ ∧ y = ⌊y⌋ then ⌊y⌋ else v + 1
    have faithful : Faithful far := by
      intro d' z within
      simp [far, within]
    have cast := all far faithful
    simp only [far] at cast
    split at cast
    · rename_i whole
      rw [cast] at whole
      exact other whole.2
    · omega
  · rintro rfl cast faithful
    exact faithful d v holds

/-- The operands for which both operations are exact. -/
theorem exact_iff {d : Dtype} {a b : ℤ} (holds : Holds d a) (some_b : b ≠ 0)
    (fits : Holds d (a.tdiv b)) :
    Exact d a b ↔ Kept a b := by
  have both : Exact d a b ↔ quotient a b = a.tdiv b ∧ remainder a b = (a - b * a.tdiv b : ℤ) := by
    rw [← cast_iff fits, ← cast_iff (holds_remainder holds)]
    exact ⟨fun all => ⟨fun cast faithful => (all cast faithful).1, fun cast faithful =>
      (all cast faithful).2⟩,
      fun each cast faithful => ⟨each.1 cast faithful, each.2 cast faithful⟩⟩
  rw [both, quotient, Int.cast_inj]
  constructor
  · rintro ⟨right, rest⟩
    have window := (trunc_divide a b some_b).mp right
    exact ⟨window, (remainder_iff some_b window).mp rest⟩
  · rintro ⟨window, rest⟩
    exact ⟨(trunc_divide a b some_b).mpr window, (remainder_iff some_b window).mpr rest⟩

theorem exact_seven : Exact .s32 7 (-2) ↔ Kept 7 (-2) :=
  exact_iff ⟨by decide, by decide⟩ (by decide) ⟨by decide, by decide⟩

/-- The first integer that float32 does not have. -/
theorem odd_operand_lost : quotient 16777217 1 = 16777216 ∧ ¬ Exact .s32 16777217 1 := by
  have rounded : quotient 16777217 1 = (16777216 : ℤ) := by decide +kernel
  refine ⟨by rw [rounded]; norm_num, fun exact => ?_⟩
  have value := (exact (fun _ y => ⌊y⌋) fun d z _ => Int.floor_intCast z).1
  rw [apply, rounded, Int.floor_intCast] at value
  exact absurd value (by decide)

theorem window_small {n m : ℕ} (some_n : 0 < n) (some_m : 0 < m) (small_n : n ≤ 2 ^ 24)
    (small_m : m ≤ 2 ^ 24) :
    2 ^ (Nat.log 2 (n / m) - 23) ∣ n / m ∧ before (n / m) * m < n ∧
    (n : ℚ) < before (after (n / m)) * m := by
  have m_pos : (0 : ℚ) < m := by exact_mod_cast some_m
  have n_pos : (0 : ℚ) < n := by exact_mod_cast some_n
  have part : n / m * m ≤ n := Nat.div_mul_le_self n m
  have next : n < (n / m + 1) * m := by rw [Nat.mul_comm]; exact Nat.lt_mul_div_succ n some_m
  have most : n / m ≤ 2 ^ 24 := le_trans (Nat.div_le_self n m) small_n
  generalize n / m = q at part next most
  have bits : 2 ^ (Nat.log 2 q - 23) ∣ q := by
    rcases lt_or_eq_of_le most with less | top
    · have few : Nat.log 2 q < 24 := Nat.log_lt_of_lt_pow' (by decide) less
      simp [show Nat.log 2 q - 23 = 0 by omega]
    · rw [top, Nat.log_pow one_lt_two]
      decide
  have reach : (n : ℚ) ≤ before (after q) * m := by
    rcases lt_or_eq_of_le most with less | top
    · have few : Nat.log 2 q < 24 := Nat.log_lt_of_lt_pow' (by decide) less
      have step : after q = q + 1 := by simp [after, show Nat.log 2 q - 23 = 0 by omega]
      have gap : m * 2 ^ Nat.clog 2 (q + 1) ≤ 2 ^ 25 := by
        rcases Nat.eq_zero_or_pos q with rfl | some_q
        · rw [Nat.zero_add, Nat.clog_one_right]
          omega
        · have less := Nat.pow_pred_clog_lt_self one_lt_two (by omega : 1 < q + 1)
          have some_k := Nat.clog_pos one_lt_two (by omega : 2 ≤ q + 1)
          obtain ⟨j, exponent⟩ : ∃ j, Nat.clog 2 (q + 1) = j + 1 := ⟨Nat.clog 2 (q + 1) - 1, by omega⟩
          rw [exponent, Nat.pred_succ] at less
          have within : m * 2 ^ j ≤ q * m := by
            rw [Nat.mul_comm]
            exact Nat.mul_le_mul_right m (by omega)
          rw [exponent, Nat.pow_succ, ← Nat.mul_assoc]
          omega
      have gap : (m : ℚ) * 2 ^ ((Nat.clog 2 (q + 1) : ℤ) - 25) ≤ 1 := by
        rw [zpow_sub₀ two_ne_zero, zpow_natCast, ← mul_div_assoc, div_le_one (by positivity)]
        exact_mod_cast gap
      have next : (n : ℚ) + 1 ≤ (q + 1) * m := by exact_mod_cast next
      rw [step, before, sub_mul]
      push_cast
      linarith
    · have log : Nat.log 2 q = 24 := by rw [top, Nat.log_pow one_lt_two]
      have step : after q = 16777218 := by
        rw [after, log, top]
        norm_num
      have clog : Nat.clog 2 16777218 = 25 := by decide +kernel
      have one : (1 : ℚ) ≤ m := by exact_mod_cast some_m
      have bound : (n : ℚ) ≤ 16777216 := by exact_mod_cast small_n
      rw [step, before, clog]
      norm_num
      linarith
  refine ⟨bits, ?_, ?_⟩
  · have below : before q < q := sub_lt_self _ (zpow_pos two_pos _)
    calc before q * m < q * m := mul_lt_mul_of_pos_right below m_pos
      _ ≤ n := by exact_mod_cast part
  · have apart : (n : ℚ) / m ≠ before (after q) := by
      obtain ⟨Q, small, _, step⟩ := after_eq q bits
      obtain ⟨M, e, least, _, _, midpoint⟩ := normal (i := Nat.log 2 q - 23) (Nat.succ_pos Q) small
      have fits (k : ℕ) (bound : k ≤ 2 ^ 24) : Fits 24 (k : ℚ) := by
        have := fits_small (z := k) (by rw [abs_of_nonneg (by positivity)]; exact_mod_cast bound)
        exact_mod_cast this
      rw [step, midpoint]
      exact no_midpoint least (fits n small_n) (fits m small_m) n_pos m_pos
    rw [← div_lt_iff₀ m_pos]
    exact lt_of_le_of_ne ((div_le_iff₀ m_pos).mpr reach) apart

theorem kept_small {a b : ℤ} (some_b : b ≠ 0) (small_a : |a| ≤ 2 ^ 24) (small_b : |b| ≤ 2 ^ 24) :
    Kept a b := by
  have a_eq := float32_small small_a
  have b_eq := float32_small small_b
  have size : |b * a.tdiv b| ≤ |a| := by
    rw [Int.abs_eq_natAbs, Int.abs_eq_natAbs, Int.natAbs_mul, Int.natAbs_tdiv]
    exact_mod_cast Nat.mul_div_le a.natAbs b.natAbs
  have whole_small {z : ℤ} (small : |z| ≤ 2 ^ 24) : whole z - z = 0 := by
    rw [whole, float32_small small, Int.floor_intCast, sub_self]
  have remainder : Absorbed (b * a.tdiv b + (whole a - a)) (a.tdiv b * (whole b - b) - (whole a - a)) := by
    rw [whole_small small_a, whole_small small_b, mul_zero, sub_zero, add_zero, ← absorbed_iff, add_zero]
    exact float32_small (le_trans size small_a)
  refine ⟨?_, remainder⟩
  have value (z : ℤ) : |(z : ℚ)| = (z.natAbs : ℚ) := by
    rw [← Int.cast_abs, Int.abs_eq_natAbs, Int.cast_natCast]
  rw [Int.abs_eq_natAbs] at small_a small_b
  have small_n : a.natAbs ≤ 2 ^ 24 := by exact_mod_cast small_a
  have small_m : b.natAbs ≤ 2 ^ 24 := by exact_mod_cast small_b
  have some_m : 0 < b.natAbs := Int.natAbs_pos.mpr some_b
  have window : 2 ^ (Nat.log 2 (a.natAbs / b.natAbs) - 23) ∣ a.natAbs / b.natAbs ∧
      before (a.natAbs / b.natAbs) * b.natAbs < a.natAbs ∧
      (a.natAbs : ℚ) < before (after (a.natAbs / b.natAbs)) * b.natAbs := by
    rcases Nat.eq_zero_or_pos a.natAbs with zero | some_n
    · have first : before (after 0) = 1 - 2 ^ (-25 : ℤ) := by simp [before, after]
      have m_pos : (0 : ℚ) < b.natAbs := by exact_mod_cast some_m
      rw [zero, Nat.zero_div, Nat.cast_zero, first]
      exact ⟨by simp, mul_neg_of_neg_of_pos before_zero m_pos, mul_pos (by norm_num) m_pos⟩
    · exact window_small some_n some_m small_n small_m
  rw [Int.natAbs_tdiv]
  obtain ⟨bits, low, high⟩ := window
  refine ⟨bits, ?_, ?_⟩
  · rwa [a_eq, b_eq, value, value]
  · rwa [a_eq, b_eq, value, value]

end NxTinygrad.IntegerDivision
