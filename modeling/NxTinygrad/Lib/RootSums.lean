import Mathlib.Algebra.BigOperators.Ring.Finset
import Mathlib.Algebra.Field.GeomSum
import Mathlib.RingTheory.RootsOfUnity.PrimitiveRoots

/- Sums of the powers of a primitive root of unity, and the inverse of the discrete Fourier
   transform. -/
namespace RootSums

variable {F : Type} [Field F] {n : Nat} {w : F}

theorem powers_zero {z : F} (root : z ^ n = 1) (other : z ≠ 1) : ∑ k ∈ Finset.range n, z ^ k = 0 := by
  have product := geom_sum_mul z n
  rw [root, sub_self] at product
  exact (mul_eq_zero.mp product).resolve_right (sub_ne_zero.mpr other)

theorem powers_sum (prim : IsPrimitiveRoot w n) {m j : Nat} (low : m < n) (low' : j < n) :
    ∑ k ∈ Finset.range n, w ^ (k * m) * w⁻¹ ^ (j * k) = if m = j then (n : F) else 0 := by
  have unit : w ≠ 0 := prim.ne_zero (by omega)
  have power (k : Nat) : w ^ (k * m) * w⁻¹ ^ (j * k) = (w ^ m * w⁻¹ ^ j) ^ k := by
    rw [mul_pow, ← pow_mul, ← pow_mul, Nat.mul_comm k m]
  simp only [power]
  split
  · rename_i same
    subst same
    simp [unit]
  · rename_i apart
    refine powers_zero ?_ fun one => apart ?_
    · rw [mul_pow, ← pow_mul, ← pow_mul, Nat.mul_comm m, Nat.mul_comm j, pow_mul, pow_mul, inv_pow,
        prim.pow_eq_one]
      simp
    · rw [inv_pow, ← div_eq_mul_inv, div_eq_one_iff_eq (pow_ne_zero j unit)] at one
      exact prim.pow_inj low low' one

theorem transform_back (prim : IsPrimitiveRoot w n) (size : (n : F) ≠ 0) (x : Nat → F) {j : Nat}
    (low : j < n) :
    (∑ k ∈ Finset.range n, (∑ m ∈ Finset.range n, x m * w ^ (k * m)) * w⁻¹ ^ (j * k)) *
    (1 / n) = x j := by
  have swapped : ∑ k ∈ Finset.range n, (∑ m ∈ Finset.range n, x m * w ^ (k * m)) * w⁻¹ ^ (j * k) =
      ∑ m ∈ Finset.range n, x m * ∑ k ∈ Finset.range n, w ^ (k * m) * w⁻¹ ^ (j * k) := by
    simp only [Finset.sum_mul, Finset.mul_sum, mul_assoc]
    exact Finset.sum_comm
  have one : ∑ m ∈ Finset.range n, x m * ∑ k ∈ Finset.range n,
      w ^ (k * m) * w⁻¹ ^ (j * k) = x j * n := by
    rw [Finset.sum_eq_single j]
    · rw [powers_sum prim low low, if_pos rfl]
    · intro m mem apart
      rw [powers_sum prim (Finset.mem_range.mp mem) low, if_neg apart, mul_zero]
    · intro out
      exact absurd (Finset.mem_range.mpr low) out
  rw [swapped, one, mul_assoc, mul_one_div_cancel size, mul_one]

end RootSums
