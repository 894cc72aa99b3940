import NxTinygrad.Graph
import NxTinygrad.Lib.NDArray
import Mathlib.Order.Nat
import Mathlib.Data.Nat.Find

/- `_bit_reduce` of operations.py: leading zeros and set bits of integers of a fixed width. -/
namespace NxTinygrad.BitCounts
open IR NDArray

def bitWidth : Dtype → Option Nat
  | .u8 | .s8 => some 8
  | .u16 | .s16 => some 16
  | .u32 | .s32 => some 32
  | .u64 | .s64 => some 64
  | _ => none

def isSigned : Dtype → Bool
  | .s8 | .s16 | .s32 | .s64 => true
  | _ => false

section source
variable {w : Nat}

/-- `x >> s`: arithmetic on signed integers, logical on unsigned ones. -/
def shiftRight (signed : Bool) (x : BitVec w) (s : Nat) : BitVec w :=
  if signed then x.sshiftRight s else x >>> s

def smear (signed : Bool) (width shift : Nat) (pos : 0 < shift) (smeared : BitVec w) : BitVec w :=
  if shift < width then
    smear signed width (shift * 2) (Nat.mul_pos pos Nat.two_pos)
      (smeared ||| shiftRight signed smeared shift)
  else smeared
termination_by width - shift

def total (signed : Bool) (width : Nat) (highest : BitVec w) : BitVec w :=
  (List.range' 1 (width - 1)).foldl (fun total i => total + (shiftRight signed highest i &&& 1))
    (highest &&& 1)

def bitCount (op : UnaryOp) (signed : Bool) (width : Nat) (x : BitVec w) : BitVec w :=
  let highest := if op = .countLeadingZeros then smear signed width 1 Nat.one_pos x else x
  let total := total signed width highest
  if op = .countLeadingZeros then BitVec.ofNat w width - total else total

def bitReduce (op : UnaryOp) (dtype : Dtype) (t : NDArray (BitVec w)) :
    Option (NDArray (BitVec w)) := do
  let width ← bitWidth dtype
  some (t.map (bitCount op (isSigned dtype) width))

end source

section spec
variable {w : Nat}

def value (signed : Bool) (x : BitVec w) : Int := if signed then x.toInt else x.toNat

structure Highest (x : BitVec w) (p : Nat) : Prop where
  set : x.getLsbD p = true
  above : ∀ i, p < i → x.getLsbD i = false

def setBits (x : BitVec w) : Nat := (List.range w).countP x.getLsbD

/-- The bits are those of the number `n`. It is also their value, except that a signed integer of one or
    two bits cannot be its own width. -/
def Counts (signed : Bool) (x : BitVec w) (n : Nat) : Prop :=
  x.toNat = n ∧ (signed = false ∨ 3 ≤ w → value signed x = n)

end spec

section bits
variable {w : Nat} {signed : Bool} {x y : BitVec w}

def bit (signed : Bool) (x : BitVec w) (m : Nat) : Bool :=
  if m < w then x.getLsbD m else signed && x.msb

theorem bit_low {m : Nat} (low : m < w) : bit signed x m = x.getLsbD m := if_pos low

theorem bit_or (m : Nat) : bit signed (x ||| y) m = (bit signed x m || bit signed y m) := by
  unfold bit
  split
  · exact BitVec.getLsbD_or
  · rw [BitVec.msb_or, Bool.and_or_distrib_left]

theorem bit_shift (s m : Nat) : bit signed (shiftRight signed x s) m = bit signed x (m + s) := by
  unfold bit shiftRight
  cases signed with
  | false =>
    by_cases low : m < w
    · rw [if_pos low, if_neg Bool.false_ne_true, BitVec.getLsbD_ushiftRight, Nat.add_comm]
      split
      · rfl
      · next high => exact BitVec.getLsbD_of_ge x _ (Nat.le_of_not_lt high)
    · rw [if_neg low, if_neg (show ¬ m + s < w by omega)]
      rfl
  | true =>
    rw [if_pos rfl]
    by_cases low : m < w
    · rw [if_pos low, BitVec.getLsbD_sshiftRight, Nat.add_comm m s]
      simp [low]
    · rw [if_neg low, if_neg (show ¬ m + s < w by omega), BitVec.msb_sshiftRight]

theorem smear_bits (width shift : Nat) (pos : 0 < shift) (start : BitVec w)
    (inv : ∀ m, bit signed x m = true ↔ ∃ d < shift, bit signed start (m + d) = true) :
    ∃ reach, width ≤ reach ∧ ∀ m, bit signed (smear signed width shift pos x) m = true ↔
      ∃ d < reach, bit signed start (m + d) = true := by
  fun_induction smear signed width shift pos x with
  | case1 shift pos x more ih =>
    refine ih fun m => ?_
    rw [bit_or, bit_shift, Bool.or_eq_true, inv, inv]
    constructor
    · rintro (⟨d, low, set⟩ | ⟨d, low, set⟩)
      · exact ⟨d, by omega, set⟩
      · exact ⟨shift + d, by omega, by rwa [← Nat.add_assoc]⟩
    · rintro ⟨d, low, set⟩
      by_cases near : d < shift
      · exact .inl ⟨d, near, set⟩
      · refine .inr ⟨d - shift, by omega, ?_⟩
        rwa [Nat.add_assoc, Nat.add_sub_cancel' (Nat.le_of_not_lt near)]
  | case2 shift pos x done => exact ⟨shift, Nat.le_of_not_lt done, inv⟩

theorem smear_set (x : BitVec w) {i : Nat} (low : i < w) :
    (smear signed w 1 Nat.one_pos x).getLsbD i = true ↔ ∃ j, i ≤ j ∧ x.getLsbD j = true := by
  obtain ⟨reach, far, set⟩ := @smear_bits w signed x w 1 Nat.one_pos x fun m => by simp
  rw [← @bit_low w signed _ i low, set]
  constructor
  · rintro ⟨d, -, here⟩
    by_cases inside : i + d < w
    · exact ⟨i + d, Nat.le_add_right i d, by rwa [bit_low inside] at here⟩
    · -- a copy of the sign, which is the bit at the top
      rw [bit, if_neg inside] at here
      have sign := (Bool.and_eq_true_iff.mp here).2
      rw [BitVec.msb_eq_getLsbD_last] at sign
      exact ⟨w - 1, by omega, sign⟩
  · rintro ⟨j, above, here⟩
    have inside : j < w := BitVec.lt_of_getLsbD here
    refine ⟨j - i, by omega, ?_⟩
    rwa [Nat.add_sub_cancel' above, bit_low inside]

end bits

section sums
variable {w : Nat} {signed : Bool}

theorem low_bit (some_bit : 0 < w) (x : BitVec w) : (x &&& 1).toNat = if x.getLsbD 0 then 1 else 0 := by
  rw [BitVec.toNat_and]
  have one : (1 : BitVec w).toNat = 1 := BitVec.toNat_one some_bit
  rw [one, Nat.and_one_is_mod, BitVec.getLsbD, Nat.testBit_zero]
  rcases Nat.mod_two_eq_zero_or_one x.toNat with zero | one <;> simp [*]

theorem shifted_bit {i : Nat} (low : i < w) (x : BitVec w) :
    (shiftRight signed x i &&& 1).toNat = if x.getLsbD i then 1 else 0 := by
  have some_bit : 0 < w := by omega
  have moved := @bit_shift w signed x i 0
  rw [bit_low some_bit, Nat.zero_add, bit_low low] at moved
  rw [low_bit some_bit, moved]

theorem count_le (p : Nat → Bool) (n : Nat) : (List.range n).countP p ≤ n := by
  have le := @List.countP_le_length _ p (List.range n)
  rwa [List.length_range] at le

theorem total_bits (x : BitVec w) : (total signed w x).toNat = setBits x := by
  rcases Nat.eq_zero_or_pos w with rfl | some_bit
  · have zero := (total signed 0 x).isLt
    rw [setBits, List.range_zero, List.countP_nil]
    omega
  · have loop : ∀ n, n < w →
        ((List.range' 1 n).foldl (fun total i => total + (shiftRight signed x i &&& 1))
        (x &&& 1)).toNat = (List.range (n + 1)).countP x.getLsbD := by
      intro n bound
      induction n with
      | zero =>
        rw [List.range'_zero, List.foldl_nil, low_bit some_bit]
        simp [List.range_succ]
      | succ n ih =>
        have before := ih (Nat.lt_of_succ_lt bound)
        have next := @shifted_bit w signed (1 + n) (by omega) x
        have small := count_le x.getLsbD (n + 1)
        have fits : n + 2 < 2 ^ w := Nat.lt_of_le_of_lt (show n + 2 ≤ w by omega) Nat.lt_two_pow_self
        rw [List.range'_1_concat, List.foldl_append, List.foldl_cons, List.foldl_nil,
          List.range_succ (n := n + 1), List.countP_append, List.countP_singleton]
        rw [BitVec.toNat_add_of_lt, before, next, Nat.add_comm 1 n]
        rw [before, next]
        split <;> omega
    have all := loop (w - 1) (by omega)
    rwa [Nat.sub_add_cancel some_bit] at all

theorem count_upto {n p : Nat} (low : p < n) :
    (List.range n).countP (fun i => decide (i ≤ p)) = p + 1 := by
  induction n with
  | zero => cases low
  | succ n ih =>
    rw [List.range_succ, List.countP_append, List.countP_singleton]
    by_cases last : p < n
    · rw [ih last, if_neg (by simpa using last)]
    · have all : (List.range n).countP (fun i => decide (i ≤ p)) = (List.range n).length :=
        List.countP_eq_length.mpr fun i mem => decide_eq_true (by have := List.mem_range.mp mem; omega)
      rw [all, List.length_range, if_pos (decide_eq_true (by omega))]
      omega

end sums

section result
variable {w : Nat} {signed : Bool} {x : BitVec w}

theorem counts_of {v : BitVec w} {n : Nat} (nat : v.toNat = n) (bound : n ≤ w) : Counts signed v n := by
  refine ⟨nat, fun readable => ?_⟩
  unfold value
  split
  · next negative =>
    have wide : 3 ≤ w := readable.resolve_left fun positive => by simp [positive] at negative
    -- a positive integer of the type, as 2 w < 2 ^ w
    have room : ∀ k, 2 * (3 + k) < 2 ^ (3 + k) := by
      intro k
      induction k with
      | zero => decide
      | succ k ih =>
        rw [← Nat.add_assoc, Nat.pow_succ]
        omega
    have here := room (w - 3)
    rw [Nat.add_sub_cancel' wide] at here
    rw [BitVec.toInt_eq_toNat_of_lt (by omega), nat]
  · rw [nat]

theorem population_count (signed : Bool) (x : BitVec w) :
    Counts signed (bitCount .populationCount signed w x) (setBits x) :=
  counts_of (total_bits x) (count_le _ w)

theorem leading_zeros (signed : Bool) (x : BitVec w) :
    (bitCount .countLeadingZeros signed w x).toNat = w - setBits (smear signed w 1 Nat.one_pos x) := by
  have sum := @total_bits w signed (smear signed w 1 Nat.one_pos x)
  have width : (BitVec.ofNat w w).toNat = w := by
    rw [BitVec.toNat_ofNat]
    exact Nat.mod_eq_of_lt Nat.lt_two_pow_self
  have small := count_le (smear signed w 1 Nat.one_pos x).getLsbD w
  have le : total signed w (smear signed w 1 Nat.one_pos x) ≤ BitVec.ofNat w w := by
    rw [BitVec.le_def, sum, width]
    exact small
  rw [bitCount, if_pos rfl, if_pos rfl, BitVec.toNat_sub_of_le le, width, sum]

theorem leading_zeros_highest {p : Nat} (highest : Highest x p) :
    Counts signed (bitCount .countLeadingZeros signed w x) (w - p - 1) := by
  have low : p < w := BitVec.lt_of_getLsbD highest.set
  refine counts_of ?_ (by omega)
  have same : setBits (smear signed w 1 Nat.one_pos x) = (List.range w).countP fun i =>
      decide (i ≤ p) := by
    refine List.countP_congr fun i mem => ?_
    rw [smear_set x (List.mem_range.mp mem), decide_eq_true_iff]
    constructor
    · rintro ⟨j, above, set⟩
      by_contra beyond
      rw [highest.above j (by omega)] at set
      cases set
    · exact fun below => ⟨p, below, highest.set⟩
  rw [leading_zeros, same, count_upto low]
  omega

theorem leading_zeros_zero (signed : Bool) :
    Counts signed (bitCount .countLeadingZeros signed w (0 : BitVec w)) w := by
  refine counts_of ?_ le_rfl
  have none : setBits (smear signed w 1 Nat.one_pos (0 : BitVec w)) = 0 := by
    refine List.countP_eq_zero.mpr fun i mem set => ?_
    obtain ⟨j, -, there⟩ := (smear_set _ (List.mem_range.mp mem)).mp set
    simp at there
  rw [leading_zeros, none, Nat.sub_zero]

theorem highest_exists (some_bit : x ≠ 0) : ∃ p, Highest x p := by
  have set : ∃ i, i < w ∧ x.getLsbD i = true := by
    by_contra none
    refine some_bit (BitVec.eq_of_getLsbD_eq fun i low => ?_)
    have clear : x.getLsbD i ≠ true := fun set => none ⟨i, low, set⟩
    simp [clear]
  obtain ⟨i, low, here⟩ := set
  refine ⟨Nat.findGreatest (fun i => x.getLsbD i = true) w, ?_, fun j above => ?_⟩
  · exact @Nat.findGreatest_spec _ (fun i => x.getLsbD i = true) _ _ low.le here
  · by_cases inside : j ≤ w
    · exact Bool.eq_false_iff.mpr (Nat.findGreatest_is_greatest above inside)
    · exact BitVec.getLsbD_of_ge x j (by omega)

/-- Both operations, on integers of any width. -/
theorem bits_counted (w : Nat) (signed : Bool) (x : BitVec w) :
    (x ≠ 0 → ∃ p, Highest x p ∧ Counts signed (bitCount .countLeadingZeros signed w x) (w - p - 1)) ∧
      (x = 0 → Counts signed (bitCount .countLeadingZeros signed w x) w) ∧
      Counts signed (bitCount .populationCount signed w x) (setBits x) := by
  refine ⟨fun some_bit => ?_, fun zero => zero ▸ leading_zeros_zero signed, population_count signed x⟩
  obtain ⟨p, highest⟩ := highest_exists some_bit
  exact ⟨p, highest, leading_zeros_highest highest⟩

theorem wide_enough {dtype : Dtype} (width : bitWidth dtype = some w) : 3 ≤ w := by
  cases dtype <;> simp [bitWidth] at width <;> omega

theorem bitReduce_counts {dtype : Dtype} (width : bitWidth dtype = some w) (t : NDArray (BitVec w)) :
    ∃ zeros ones, bitReduce .countLeadingZeros dtype t = some zeros ∧ zeros.shape = t.shape ∧
      bitReduce .populationCount dtype t = some ones ∧ ones.shape = t.shape ∧
      ∀ idx x, t.get? idx = some x →
        (∃ v, ones.get? idx = some v ∧ value (isSigned dtype) v = setBits x) ∧
        ∃ v, zeros.get? idx = some v ∧ (x = 0 → value (isSigned dtype) v = w) ∧
          ∀ p, Highest x p → value (isSigned dtype) v = (w - p - 1 : Nat) := by
  have readable := wide_enough width
  refine ⟨_, _, bind_step width _, rfl, bind_step width _, rfl, fun idx x here => ?_⟩
  have counted (op : UnaryOp) : (t.map (bitCount op (isSigned dtype) w)).get? idx =
      some (bitCount op (isSigned dtype) w x) := by rw [get?_map, here, Option.map_some]
  refine ⟨⟨_, counted _, (population_count _ x).2 (.inr readable)⟩, _, counted _, ?_,
    fun p highest => ?_⟩
  · rintro rfl
    exact (leading_zeros_zero _).2 (.inr readable)
  · exact (leading_zeros_highest highest).2 (.inr readable)

end result

end NxTinygrad.BitCounts
