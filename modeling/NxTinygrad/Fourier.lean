import NxTinygrad.ComplexPairs
import NxTinygrad.Lib.RootSums
import Mathlib.Analysis.SpecialFunctions.Trigonometric.Basic
import Mathlib.RingTheory.RootsOfUnity.Complex

/- `_dft` of operations.py: the transform along an axis as two real matrix products. -/
namespace NxTinygrad.Fourier
open NDArray Reductions ComplexPairs

section code
variable {K : Type} [Field K]

def matmul (x w : NDArray K) : Option (NDArray K) :=
  match w.shape with
  | [m, p] =>
      if x.shape.getLast? = some m then
        some (tabulate (x.shape.dropLast ++ [p]) fun idx =>
          ∑ j ∈ Finset.range m, x.entry (idx.dropLast ++ [j]) * w.entry [j, idx.getLastD 0])
      else none
  | _ => none

def theta (pi : K) (n : Nat) : NDArray K :=
  tabulate [n, n] fun idx => 2 * pi / n * (idx.getD 0 0 * idx.getD 1 0 : Nat)

/-- The contraction of `_dft` with the matrices `wr` and `wi`. -/
def contractWith (wr wi t : NDArray K) (n axis : Nat) (inverse : Bool) : Option (NDArray K) := do
  let xr ← re t
  let xi ← im t
  let rank := xr.shape.length
  let perm := (List.range rank).filter (· ≠ axis) ++ [axis]
  let xr ← xr.permute perm
  let xi ← xi.permute perm
  let wrT ← wr.permute [1, 0]
  let wiT ← wi.permute [1, 0]
  let yr ← pointwise (· - ·) (← matmul xr wrT) (← matmul xi wiT)
  let yi ← pointwise (· + ·) (← matmul xr wiT) (← matmul xi wrT)
  let scale (y : NDArray K) := if inverse then y.map (· * (1 / (n : K))) else y
  let yr ← (scale yr).permute (NDArray.inverse perm rank)
  let yi ← (scale yi).permute (NDArray.inverse perm rank)
  cxt yr yi

def lastOrder (rank axis : Nat) : List Nat := (List.range rank).filter (· ≠ axis) ++ [axis]

section steps
variable {n axis : Nat} {inverse : Bool} {wr wi t xr xi xr' xi' wrT wiT : NDArray K}

theorem contract_steps {a b c d yr yi out out' : NDArray K} (real : re t = some xr)
    (imaginary : im t = some xi)
    (moved : xr.permute (lastOrder xr.shape.length axis) = some xr')
    (moved' : xi.permute (lastOrder xr.shape.length axis) = some xi')
    (turned : wr.permute [1, 0] = some wrT) (turned' : wi.permute [1, 0] = some wiT)
    (first : matmul xr' wrT = some a) (second : matmul xi' wiT = some b)
    (third : matmul xr' wiT = some c)
    (fourth : matmul xi' wrT = some d) (less : pointwise (· - ·) a b = some yr)
    (more : pointwise (· + ·) c d = some yi)
    (back : (if inverse then yr.map (· * (1 / (n : K))) else yr).permute
      (NDArray.inverse (lastOrder xr.shape.length axis) xr.shape.length) = some out)
    (back' : (if inverse then yi.map (· * (1 / (n : K))) else yi).permute
      (NDArray.inverse (lastOrder xr.shape.length axis) xr.shape.length) = some out') :
    contractWith wr wi t n axis inverse = cxt out out' := by
  unfold lastOrder at *
  rw [contractWith, bind_step real, bind_step imaginary]
  dsimp only
  rw [bind_step moved, bind_step moved', bind_step turned, bind_step turned', bind_step first,
    bind_step second,
    bind_step less, bind_step third, bind_step fourth, bind_step more, bind_step back, bind_step back']

theorem contract_raises (real : re t = some xr) (imaginary : im t = some xi)
    (moved : xr.permute (lastOrder xr.shape.length axis) = some xr')
    (moved' : xi.permute (lastOrder xr.shape.length axis) = some xi')
    (turned : wr.permute [1, 0] = some wrT) (turned' : wi.permute [1, 0] = some wiT)
    (first : matmul xr' wrT = none) : contractWith wr wi t n axis inverse = none := by
  unfold lastOrder at *
  rw [contractWith, bind_step real, bind_step imaginary]
  dsimp only
  rw [bind_step moved, bind_step moved', bind_step turned, bind_step turned', first]
  rfl

end steps

def dft (T : Functions K) (t : NDArray K) (n axis : Nat) (inverse : Bool) : Option (NDArray K) :=
  let wr := (theta T.pi n).map T.cos
  let wi := (if inverse then theta T.pi n else (theta T.pi n).map (- ·)).map T.sin
  contractWith wr wi t n axis inverse

end code

noncomputable def exact : Functions ℝ := ⟨Real.pi, Real.sqrt, Real.exp, Real.cos, Real.sin⟩

noncomputable def root (inverse : Bool) (n : Nat) : ℂ :=
  Complex.exp ((2 * Real.pi * (if inverse then 1 else -1) / n : ℝ) * Complex.I)

noncomputable def factor (inverse : Bool) (n : Nat) : ℂ := if inverse then 1 / n else 1

/-- The transform along `axis`, of the entries up to `n` or all of them. -/
noncomputable def transform (inverse : Bool) (n axis : Nat) (z : NDArray ℂ) : NDArray ℂ :=
  tabulate (z.shape.set axis n) fun idx =>
    (∑ m ∈ Finset.range (min n (z.shape.getD axis 0)),
      z.entry (idx.set axis m) * root inverse n ^ (idx.getD axis 0 * m)) * factor inverse n

theorem root_pow (inverse : Bool) (n j : Nat) : root inverse n ^ j = ⟨Real.cos (2 * Real.pi / n * j),
    Real.sin (if inverse then 2 * Real.pi / n * j else -(2 * Real.pi / n * j))⟩ := by
  have power : root inverse n ^ j =
      Complex.exp ((2 * Real.pi * (if inverse then 1 else -1) * j / n : ℝ) * Complex.I) := by
    rw [root, ← Complex.exp_nat_mul]
    congr 1
    push_cast
    ring
  have turned (q : ℝ) : 2 * Real.pi * q * j / n = 2 * Real.pi / n * j * q := by ring
  rw [power, turned]
  apply Complex.ext
  · rw [Complex.exp_ofReal_mul_I_re]
    cases inverse
    · rw [if_neg Bool.false_ne_true, mul_neg, mul_one, Real.cos_neg]
    · rw [if_pos rfl, mul_one]
  · rw [Complex.exp_ofReal_mul_I_im]
    cases inverse
    · rw [if_neg Bool.false_ne_true, if_neg Bool.false_ne_true, mul_neg, mul_one]
    · rw [if_pos rfl, if_pos rfl, mul_one]

theorem root_inverse (n : Nat) : root true n = (root false n)⁻¹ := by
  rw [root, root, ← Complex.exp_neg]
  congr 1
  simp only [if_true, Bool.false_eq_true, if_false]
  push_cast
  ring

theorem root_primitive {n : Nat} (pos : 0 < n) : IsPrimitiveRoot (root false n) n := by
  have prim := Complex.isPrimitiveRoot_exp n pos.ne'
  have same : Complex.exp (2 * Real.pi * Complex.I / n) = root true n := by
    rw [root]
    congr 1
    simp only [if_true]
    push_cast
    ring
  rw [same, root_inverse] at prim
  exact IsPrimitiveRoot.inv_iff.mp prim

noncomputable def powers (inverse : Bool) (n : Nat) : NDArray ℂ :=
  tabulate [n, n] fun idx => root inverse n ^ (idx.getD 0 0 * idx.getD 1 0)

section parts
variable {inverse : Bool} {n axis : Nat} {z x y out : NDArray ℂ} {t : NDArray ℝ}

theorem cosines (inverse : Bool) (n : Nat) :
    (theta exact.pi n).map exact.cos = (powers inverse n).map Complex.re := by
  rw [theta, powers, map_tabulate, map_tabulate]
  refine congrArg _ (funext fun idx => ?_)
  rw [root_pow]
  rfl

theorem sines (inverse : Bool) (n : Nat) : (if inverse then theta exact.pi n else
    (theta exact.pi n).map (- ·)).map exact.sin = (powers inverse n).map Complex.im := by
  cases inverse
  · rw [if_neg Bool.false_ne_true, theta, powers, map_tabulate, map_tabulate, map_tabulate]
    refine congrArg _ (funext fun idx => ?_)
    rw [root_pow, if_neg Bool.false_ne_true]
    rfl
  · rw [if_pos rfl, theta, powers, map_tabulate, map_tabulate]
    refine congrArg _ (funext fun idx => ?_)
    rw [root_pow, if_pos rfl]
    rfl

theorem powers_transposed (inverse : Bool) (n : Nat) :
    (powers inverse n).permute [1, 0] = some (powers inverse n) := by
  have order : [1, 0].Perm (List.range (powers inverse n).shape.length) := by
    change [1, 0].Perm (List.range 2)
    decide
  rw [permute, if_pos order]
  refine build_eq.mpr ⟨rfl, fun idx inside => ?_⟩
  obtain ⟨a, b, rfl⟩ : ∃ a b, idx = [a, b] := List.length_eq_two.mp inside.length
  have turned : Inside [n, n] [b, a] := ⟨inside.2.1, inside.1, trivial⟩
  have here : (powers inverse n).get? [a, b] = some (root inverse n ^ (a * b)) := get?_tabulate inside
  have there : (powers inverse n).get? [b, a] = some (root inverse n ^ (b * a)) := get?_tabulate turned
  rw [here, Nat.mul_comm, ← there]
  rfl

theorem matmul_eq {K : Type} [Field K] {x w : NDArray K} {m p : Nat} (dims : w.shape = [m, p])
    (last : x.shape.getLast? = some m) :
      matmul x w = some (tabulate (x.shape.dropLast ++ [p]) fun idx =>
      ∑ j ∈ Finset.range m, x.entry (idx.dropLast ++ [j]) * w.entry [j, idx.getLastD 0]) := by
  unfold matmul
  rw [dims]
  exact if_pos last

theorem matmul_raises {K : Type} [Field K] {x w : NDArray K} {m p : Nat} (dims : w.shape = [m, p])
    (other : x.shape.getLast? ≠ some m) : matmul x w = none := by
  unfold matmul
  rw [dims]
  exact if_neg other

noncomputable def product (inverse : Bool) (n : Nat) (x : NDArray ℂ) : NDArray ℂ :=
  tabulate (x.shape.dropLast ++ [n]) fun idx => ∑ j ∈ Finset.range n,
    x.entry (idx.dropLast ++ [j]) * (powers inverse n).entry [j, idx.getLastD 0]

theorem matmul_parts (last : x.shape.getLast? = some n) (f g : ℂ → ℝ) (hf : f 0 = 0) (hg : g 0 = 0) :
    matmul (x.map f) ((powers inverse n).map g) = some (tabulate (x.shape.dropLast ++ [n]) fun idx =>
      ∑ j ∈ Finset.range n, f (x.entry (idx.dropLast ++ [j])) *
        g ((powers inverse n).entry [j, idx.getLastD 0])) := by
  have dims : ((powers inverse n).map g).shape = [n, n] := rfl
  rw [matmul_eq dims last]
  simp only [entry_map hf, entry_map hg]
  rfl

theorem product_re (last : x.shape.getLast? = some n) : ∃ y y',
    matmul (x.map Complex.re) ((powers inverse n).map Complex.re) = some y ∧
      matmul (x.map Complex.im) ((powers inverse n).map Complex.im) = some y' ∧
      pointwise (· - ·) y y' = some ((product inverse n x).map Complex.re) := by
  refine ⟨_, _, matmul_parts last _ _ Complex.zero_re Complex.zero_re,
    matmul_parts last _ _ Complex.zero_im Complex.zero_im, ?_⟩
  simp only [pointwise_tabulate, product, map_tabulate, Complex.re_sum, Complex.mul_re,
    Finset.sum_sub_distrib]

theorem product_im (last : x.shape.getLast? = some n) : ∃ y y',
    matmul (x.map Complex.re) ((powers inverse n).map Complex.im) = some y ∧
      matmul (x.map Complex.im) ((powers inverse n).map Complex.re) = some y' ∧
      pointwise (· + ·) y y' = some ((product inverse n x).map Complex.im) := by
  refine ⟨_, _, matmul_parts last _ _ Complex.zero_re Complex.zero_im,
    matmul_parts last _ _ Complex.zero_im Complex.zero_re, ?_⟩
  simp only [pointwise_tabulate, product, map_tabulate, Complex.im_sum, Complex.mul_im,
    Finset.sum_add_distrib]

theorem scaled (f : ℂ → ℝ) (real : ∀ (c : ℂ) (r : ℝ), f (c * r) = f c * r) (y : NDArray ℂ) :
    (if inverse then (y.map f).map (· * (1 / (n : ℝ))) else y.map f) =
      (y.map (· * factor inverse n)).map f := by
  have part (r : ℝ) (c : ℂ) (same : c = r) : (y.map f).map (· * r) = (y.map (· * c)).map f := by
    subst same
    simp only [map, List.map_map, Function.comp_def, real]
  cases inverse
  · have one := part 1 1 (by simp)
    rw [if_neg Bool.false_ne_true, factor, if_neg Bool.false_ne_true, ← one]
    simp [map]
  · rw [if_pos rfl, factor, if_pos rfl]
    exact part (1 / n) (1 / n) (by simp)

theorem dft_eq (held : Holds t z) (moved : z.permute (lastOrder z.shape.length axis) = some x)
    (last : x.shape.getLast? = some n)
    (back : ((product inverse n x).map (· * factor inverse n)).permute
      (NDArray.inverse (lastOrder z.shape.length axis) z.shape.length) = some out) :
    dft exact t n axis inverse = cxt (out.map Complex.re) (out.map Complex.im) := by
  obtain ⟨rr, ii, first, second, real⟩ := @product_re inverse n x last
  obtain ⟨ri, ir, third, fourth, imaginary⟩ := @product_im inverse n x last
  have moved' (f : ℂ → ℝ) : (z.map f).permute (lastOrder z.shape.length axis) = some (x.map f) := by
    rw [permute_map, moved]
    rfl
  have turned (f : ℂ → ℝ) :
      ((powers inverse n).map f).permute [1, 0] = some ((powers inverse n).map f) := by
    rw [permute_map, powers_transposed]
    rfl
  have back' (f : ℂ → ℝ) (real : ∀ (c : ℂ) (r : ℝ), f (c * r) = f c * r) :
      (if inverse then ((product inverse n x).map f).map (· * (1 / (n : ℝ))) else
      (product inverse n x).map f).permute
        (NDArray.inverse (lastOrder z.shape.length axis) z.shape.length) = some (out.map f) := by
    rw [scaled f real, permute_map, back]
    rfl
  rw [dft, cosines inverse, sines]
  exact contract_steps (re_ok held) (im_ok held) (moved' _) (moved' _) (turned _)
    (turned _) first second third
    fourth real imaginary (back' _ fun c r => by simp) (back' _ fun c r => by simp)

theorem lastOrder_perm {rank : Nat} (low : axis < rank) :
    (lastOrder rank axis).Perm (List.range rank) := by
  have fresh : axis ∉ (List.range rank).filter (· ≠ axis) := by simp
  refine (List.perm_ext_iff_of_nodup ?_ List.nodup_range).mpr fun a => ?_
  · exact List.nodup_append.mpr ⟨List.nodup_range.filter _, List.nodup_singleton _,
      fun a mem b mem' same =>
      fresh (by rwa [same, List.mem_singleton.mp mem'] at mem)⟩
  · by_cases here : a = axis <;> simp [lastOrder, here, low]

theorem arrange_lastOrder {idx : List Nat} {rank i : Nat} (there : idx[axis]? = some i) :
    arrange (lastOrder rank axis) idx = arrange ((List.range rank).filter (· ≠ axis)) idx ++ [i] := by
  rw [lastOrder, arrange, List.filterMap_append, arrange]
  simp [there]

theorem arrange_set {idx : List Nat} {rank i : Nat} :
    arrange ((List.range rank).filter (· ≠ axis)) (idx.set axis i) =
      arrange ((List.range rank).filter (· ≠ axis)) idx := by
  refine List.filterMap_congr fun a mem => ?_
  have apart : a ≠ axis := by simpa using (List.mem_filter.mp mem).2
  exact List.getElem?_set_ne (Ne.symm apart)

theorem getD_get {idx : List Nat} (low : axis < idx.length) : idx[axis]? = some (idx.getD axis 0) := by
  rw [List.getD_eq_getElem?_getD, List.getElem?_eq_getElem low]
  rfl

theorem moved_ok (low : axis < z.shape.length) :
    ∃ x, z.permute (lastOrder z.shape.length axis) = some x ∧
    x.shape = arrange ((List.range z.shape.length).filter (· ≠ axis)) z.shape ++ [z.shape.getD axis 0] ∧
      ∀ idx, Inside z.shape idx → x.get? (arrange (lastOrder z.shape.length axis) idx) =
      z.get? idx := by
  obtain ⟨x, made, dims, entries⟩ := permute_ok (lastOrder_perm low)
  rw [arrange_lastOrder (getD_get low)] at dims
  exact ⟨x, made, dims, entries⟩

theorem dft_raises (held : Holds t z) (low : axis < z.shape.length) (other : z.shape.getD axis 0 ≠ n) :
    dft exact t n axis inverse = none := by
  obtain ⟨x, made, last, -⟩ := @moved_ok axis z low
  have wrong : (x.map Complex.re).shape.getLast? ≠ some n := by
    change x.shape.getLast? ≠ some n
    rw [last, List.getLast?_concat]
    simpa using other
  have moved (f : ℂ → ℝ) : (z.map f).permute (lastOrder z.shape.length axis) = some (x.map f) := by
    rw [permute_map, made]
    rfl
  have turned (f : ℂ → ℝ) :
      ((powers inverse n).map f).permute [1, 0] = some ((powers inverse n).map f) := by
    rw [permute_map, powers_transposed]
    rfl
  rw [dft, cosines inverse, sines]
  exact contract_raises (re_ok held) (im_ok held) (moved _) (moved _) (turned _) (turned _)
    (matmul_raises rfl wrong)

theorem dft_ok (held : Holds t z) (low : axis < z.shape.length) (size : z.shape.getD axis 0 = n) :
    ∃ r, dft exact t n axis inverse = some r ∧ Holds r (transform inverse n axis z) := by
  obtain ⟨x, made, last, entries⟩ := moved_ok low
  rw [size] at last
  have ends : x.shape.getLast? = some n := by rw [last, List.getLast?_concat]
  have whole : arrange (lastOrder z.shape.length axis) z.shape =
      arrange ((List.range z.shape.length).filter (· ≠ axis)) z.shape ++ [n] := by
    rw [arrange_lastOrder (getD_get low), size]
  have dims : ((product inverse n x).map (· * factor inverse n)).shape =
      arrange (lastOrder z.shape.length axis) z.shape := by
    change x.shape.dropLast ++ [n] = _
    rw [whole, last, List.dropLast_concat]
  obtain ⟨out, back, shape, values⟩ := permute_back (lastOrder_perm low) dims
  obtain ⟨r, paired, holds⟩ := cxt_ok out
  have same : transform inverse n axis z = out := by
    have kept : z.shape.set axis n = z.shape := by
      rw [← size, List.getD_eq_getElem?_getD, List.getElem?_eq_getElem low]
      exact List.set_getElem_self low
    have shape' : (transform inverse n axis z).shape = z.shape := kept
    refine ext_get (by rw [shape', shape]) fun idx inside => ?_
    rw [shape'] at inside
    have inside' : Inside (z.shape.set axis n) idx := kept.symm ▸ inside
    have there := getD_get (inside.length.symm ▸ low : axis < idx.length)
    have place := inside_arrange (lastOrder_perm low) rfl inside
    rw [whole, arrange_lastOrder there] at place
    have place' : Inside (x.shape.dropLast ++ [n])
        (arrange ((List.range z.shape.length).filter (· ≠ axis)) idx ++ [idx.getD axis 0]) := by
      rwa [last, List.dropLast_concat]
    rw [values idx inside, arrange_lastOrder there, get?_map, product, get?_tabulate place', transform,
      get?_tabulate inside', size, Nat.min_self]
    refine congrArg (fun s => some (s * factor inverse n)) (Finset.sum_congr rfl fun j mem => ?_)
    have small := Finset.mem_range.mp mem
    have low' : idx.getD axis 0 < n :=
      (inside_get.mp inside').2 axis _ _ there (List.getElem?_set_self low)
    have cell : Inside [n, n] [j, idx.getD axis 0] := ⟨small, low', trivial⟩
    have moved : Inside z.shape (idx.set axis j) := by
      refine inside_set inside' rfl ?_
      rwa [size]
    have here : (idx.set axis j)[axis]? = some j := List.getElem?_set_self (inside.length.symm ▸ low)
    have read := entries _ moved
    rw [arrange_lastOrder here, arrange_set] at read
    rw [List.dropLast_concat, entry, entry, read, List.getLastD_concat, powers, entry,
      get?_tabulate cell, Nat.mul_comm]
    rfl
  exact ⟨r, (dft_eq held made ends back).trans paired, same ▸ holds⟩

theorem transform_back (low : axis < z.shape.length) (size : z.shape.getD axis 0 = n) :
    transform true n axis (transform false n axis z) = z := by
  have kept : z.shape.set axis n = z.shape := by
    rw [← size, List.getD_eq_getElem?_getD, List.getElem?_eq_getElem low]
    exact List.set_getElem_self low
  have dims : (transform false n axis z).shape = z.shape := kept
  have dims' : (transform true n axis (transform false n axis z)).shape = z.shape := by
    change (transform false n axis z).shape.set axis n = z.shape
    rw [dims, kept]
  refine ext_get dims' fun idx inside => ?_
  rw [dims'] at inside
  have there := getD_get (inside.length.symm ▸ low : axis < idx.length)
  have low' : idx.getD axis 0 < n := by
    refine (inside_get.mp inside).2 axis _ _ there ?_
    rw [← size]
    exact getD_get low
  have pos : 0 < n := by omega
  have moved (k : Nat) (small : k < n) : Inside (z.shape.set axis n) (idx.set axis k) := by
    rw [kept]
    refine inside_set (n := n) (kept.symm ▸ inside) rfl ?_
    rwa [size]
  have forward (k : Nat) (small : k < n) : (transform false n axis z).entry (idx.set axis k) =
      ∑ m ∈ Finset.range n, z.entry (idx.set axis m) * root false n ^ (k * m) := by
    have self : (idx.set axis k).getD axis 0 = k := getD_set (inside.length.symm ▸ low)
    rw [entry, transform, get?_tabulate (moved k small), Option.getD_some, size, Nat.min_self,
      self, factor, if_neg Bool.false_ne_true, mul_one]
    simp only [List.set_set]
  have whole : Inside ((transform false n axis z).shape.set axis n) idx := by
    rw [dims, kept]
    exact inside
  have back := RootSums.transform_back (root_primitive pos) (Nat.cast_ne_zero.mpr pos.ne')
    (fun m => z.entry (idx.set axis m)) low'
  have self : idx.set axis (idx.getD axis 0) = idx := by
    have low'' : axis < idx.length := inside.length.symm ▸ low
    rw [List.getD_eq_getElem?_getD, List.getElem?_eq_getElem low'']
    exact List.set_getElem_self low''
  rw [self] at back
  rw [get?_entry inside, ← back, transform, get?_tabulate whole, dims, size, Nat.min_self,
    factor, if_pos rfl, root_inverse]
  refine congrArg (fun s => some (s * (1 / (n : ℂ)))) (Finset.sum_congr rfl fun k mem => ?_)
  rw [forward k (Finset.mem_range.mp mem)]

end parts

end NxTinygrad.Fourier
