import Mathlib
import NxTinygrad.Contraction
import NxTinygrad.Fourier
import NxTinygrad.Lib.Views

/- `_apply_complex` of operations.py: the complex operations on pairs of reals. Attributes are those
   of the logical shape. -/
namespace NxTinygrad.ComplexOps
open IR NDArray Reductions ComplexPairs NxTinygrad.Fourier Contraction

inductive Op where
  | add | subtract | negate | multiply | divide | conjugate | exp | real | imag | abs | asType
  | reshape | squeeze
  | transpose (axes : List Nat)
  | reverse (axes : List Nat)
  | broadcast (shape axes : List Nat)
  | slice (starts : List StartSpec) (lengths strides : List Nat)
  | concatenate (axis : Nat)
  | sum (axes : List Int) (keep : Bool)
  | dot (ca cb ba bb : List Nat)
  | fft (inverse : Bool) (length axis : Nat)
  | select
  deriving DecidableEq, Repr

section tensors
variable {α : Type}

def flip (t : NDArray α) (axes : List Nat) : Option (NDArray α) :=
  if axes.Nodup ∧ ∀ a ∈ axes, a < t.shape.length then
    look t (t.shape.mapIdx fun a d => if a ∈ axes then .flip d else .all d) none
  else none

def setSizes : List Nat → List (Nat × Nat) → Option (List Nat)
  | inter, [] => some inter
  | inter, (dim, size) :: rest =>
      if dim < inter.length then setSizes (inter.set dim size) rest else none

def bound (d : Nat) (s : Int) : Nat := if s < 0 then (s + d).toNat else min s.toNat d

def sliceWindow (d : Nat) (s : Int) (l stride : Nat) : Window :=
  ⟨(bound d (s + l) - bound d s + stride - 1) / stride, fun i => some (bound d s + stride * i)⟩

def static : StartSpec → Option Int
  | .static n => some n
  | _ => none

def getItem (t : NDArray α) (slices : List (Int × Nat × Nat)) : Option (NDArray α) :=
  if slices.length ≤ t.shape.length then
    look t (List.zipWith (fun d (s : Int × Nat × Nat) => sliceWindow d s.1 s.2.1 s.2.2)
      t.shape slices ++
      (t.shape.drop slices.length).map .all) none
  else none

/-- Axes of a reduction; a tensor without axes takes 0 and -1. -/
def resolveAxes (rank : Nat) (axes : List Int) : Option (List Nat) :=
  if rank = 0 then if axes.all fun a => a == 0 || a == -1 then some [] else none
  else axes.mapM fun (a : Int) =>
    if -rank ≤ a ∧ a < rank then some (if a < 0 then a + rank else a).toNat else none

def sumDims [AddCommMonoid α] (t : NDArray α) (axes : List Int) (keep : Bool) : Option (NDArray α) :=
  (resolveAxes t.shape.length axes).map fun axes => sumAxes axes keep t

def whereElse (cond : NDArray Bool) (a b : NDArray α) : Option (NDArray α) := do
  let p ← pointwise Prod.mk a b
  pointwise (fun c (p : α × α) => if c then p.1 else p.2) cond p

end tensors

section code
variable {K : Type} [Field K]

def multiply (a b : NDArray K) : Option (NDArray K) := do
  let ar ← re a
  let ai ← im a
  let br ← re b
  let bi ← im b
  let x ← pointwise (· - ·) (← pointwise (· * ·) ar br) (← pointwise (· * ·) ai bi)
  let y ← pointwise (· + ·) (← pointwise (· * ·) ar bi) (← pointwise (· * ·) ai br)
  cxt x y

def divide (a b : NDArray K) : Option (NDArray K) := do
  let ar ← re a
  let ai ← im a
  let br ← re b
  let bi ← im b
  let d ← pointwise (· + ·) (← pointwise (· * ·) br br) (← pointwise (· * ·) bi bi)
  let x ← pointwise (· + ·) (← pointwise (· * ·) ar br) (← pointwise (· * ·) ai bi)
  let y ← pointwise (· - ·) (← pointwise (· * ·) ai br) (← pointwise (· * ·) ar bi)
  cxt (← pointwise (· / ·) x d) (← pointwise (· / ·) y d)

def conjugate (a : NDArray K) : Option (NDArray K) := do
  cxt (← re a) ((← im a).map (- ·))

def exp (F : Functions K) (a : NDArray K) : Option (NDArray K) := do
  let e := (← re a).map F.exp
  let y ← im a
  cxt (← pointwise (· * ·) e (y.map F.cos)) (← pointwise (· * ·) e (y.map F.sin))

def abs (F : Functions K) (a : NDArray K) : Option (NDArray K) := do
  let x ← re a
  let y ← im a
  let square ← pointwise (· + ·) (← pointwise (· * ·) x x) (← pointwise (· * ·) y y)
  some (square.map F.sqrt)

def broadcast (a : NDArray K) (out axes : List Nat) : Option (NDArray K) :=
  if axes.length ≤ a.shape.length then do
    let inter ← setSizes (List.replicate out.length 1 ++ [2]) (axes.zip a.shape)
    (← a.reshape inter).expand (out ++ [2])
  else none

def slice (a : NDArray K) (starts : List StartSpec) (lengths strides : List Nat) :
    Option (NDArray K) := do
  let starts ← starts.mapM static
  getItem a (starts.zip (lengths.zip strides))

def sum (a : NDArray K) (axes : List Int) (keep : Bool) : Option (NDArray K) := do
  let x ← sumDims (← re a) axes keep
  let y ← sumDims (← im a) axes keep
  cxt x y

def dot (a b : NDArray K) (ca cb ba bb : List Nat) : Option (NDArray K) := do
  let ar ← re a
  let ai ← im a
  let br ← re b
  let bi ← im b
  let x ← pointwise (· - ·) (← einsumDot ar br ca cb ba bb) (← einsumDot ai bi ca cb ba bb)
  let y ← pointwise (· + ·) (← einsumDot ar bi ca cb ba bb) (← einsumDot ai br ca cb ba bb)
  cxt x y

variable [DecidableEq K]

def select (cond a b : Value K) : Option (NDArray K) := do
  let c ← cond.real?
  let c := c.map fun x => decide (x ≠ 0)
  let a ← promote a
  let b ← promote b
  whereElse (← c.reshape (c.shape ++ [1])) a b

/-- The operations of one operand with a pair as result. -/
def unary (F : Functions K) (shape : List Nat) : Op → NDArray K → Option (NDArray K)
  | .negate, a => some (a.map (- ·))
  | .conjugate, a => conjugate a
  | .exp, a => exp F a
  | .asType, a => some a
  | .reshape, a | .squeeze, a => a.reshape (shape ++ [2])
  | .transpose axes, a => a.permute (axes ++ [shape.length])
  | .reverse axes, a => flip a axes
  | .broadcast out axes, a => broadcast a out axes
  | .slice starts lengths strides, a => slice a starts lengths strides
  | .sum axes keep, a => sum a axes keep
  | .fft inverse length axis, a => dft F a length axis inverse
  | _, _ => none

def binary : Op → NDArray K → NDArray K → Option (NDArray K)
  | .add, a, b => pointwise (· + ·) a b
  | .subtract, a, b => pointwise (· - ·) a b
  | .multiply, a, b => multiply a b
  | .divide, a, b => divide a b
  | .dot ca cb ba bb, a, b => dot a b ca cb ba bb
  | _, _, _ => none

def applyComplex (F : Functions K) (op : Op) (shape : List Nat) (ins : List (Value K)) :
    Option (Value K) :=
  match op, ins with
  | .real, v :: _ => ((promote v).bind re).map .real
  | .imag, v :: _ => ((promote v).bind im).map .real
  | .abs, v :: _ => ((promote v).bind (abs F)).map .real
  | .concatenate axis, ins => ((ins.mapM promote).bind fun parts => cat parts axis).map .cx
  | .select, c :: v :: w :: _ => (select c v w).map .cx
  | .add, v :: w :: _ | .subtract, v :: w :: _ | .multiply, v :: w :: _ | .divide, v :: w :: _
  | .dot _ _ _ _, v :: w :: _ =>
      ((promote v).bind fun a => (promote w).bind fun b => binary op a b).map .cx
  | _, v :: _ => ((promote v).bind (unary F shape op)).map .cx
  | _, [] => none

end code

/-- What `pr` takes from the entries of `z`, along a last axis of size `d`. -/
def Spread {α β : Type} (d : Nat) (pr : Nat → β → α) (t : NDArray α) (z : NDArray β) : Prop :=
  t.shape = z.shape ++ [d] ∧
    ∀ idx c, Inside z.shape idx → c < d → t.get? (idx ++ [c]) = (z.get? idx).map (pr c)

section spread
variable {α α' α'' β β' β'' : Type} {d d' e : Nat}

theorem pointwise_spread {pr : Nat → β → α} {pr' : Nat → β' → α'} {pr'' : Nat → β'' → α''}
    {f : β → β' → β''}
    {g : α → α' → α''} {t : NDArray α} {s : NDArray α'} {z : NDArray β} {w : NDArray β'}
    {u : NDArray β''}
    (last : alignDim d d' = some e) (parts : ∀ c x y, pr'' c (f x y) =
      g (pr (if d = 1 then 0 else c) x) (pr' (if d' = 1 then 0 else c) y))
    (held : Spread d pr t z) (held' : Spread d' pr' s w) (made : pointwise f z w = some u) :
    ∃ r, pointwise g t s = some r ∧ Spread e pr'' r u := by
  obtain ⟨fits, entries⟩ := pointwise_some made
  have low := common_length fits
  have fits' : common t.shape s.shape = some (u.shape ++ [e]) := by
    rw [held.1, held'.1, common_append last, fits]
    rfl
  obtain ⟨r, made'⟩ := pointwise_common g fits'
  obtain ⟨dims, values⟩ := (pointwise_eq fits').mp made'
  obtain ⟨one, one'⟩ := alignDim_fits last
  refine ⟨r, made', dims, fun idx c inside small => ?_⟩
  have len := inside.length
  obtain ⟨left, right⟩ := project_inside fits inside
  have here : project t.shape (idx ++ [c]) = project z.shape idx ++ [if d = 1 then 0 else c] := by
    rw [held.1, project_append (by omega)]
  have here' : project s.shape (idx ++ [c]) = project w.shape idx ++ [if d' = 1 then 0 else c] := by
    rw [held'.1, project_append (by omega)]
  rw [values _ (inside_last inside small), here, here', held.2 _ _ left (by split <;> omega),
    held'.2 _ _ right (by split <;> omega), entries idx inside]
  cases z.get? (project z.shape idx) with
  | none => rfl
  | some x =>
    cases w.get? (project w.shape idx) with
    | none => rfl
    | some y => exact congrArg some (parts c x y).symm

end spread

section elements
variable {t s : NDArray ℝ} {z w u : NDArray ℂ}

theorem pointwise_holds {f : ℂ → ℂ → ℂ} {g : ℝ → ℝ → ℝ}
    (parts : ∀ c x y, part c (f x y) = g (part c x) (part c y))
    (held : Holds t z) (held' : Holds s w) (made : pointwise f z w = some u) :
    ∃ r, pointwise g t s = some r ∧ Holds r u :=
  @pointwise_spread _ _ _ _ _ _ 2 2 2 part part part f g t s z w u rfl parts held held' made

theorem map_holds {f : ℂ → ℂ} {g : ℝ → ℝ} (parts : ∀ c x, part c (f x) = g (part c x))
    (held : Holds t z) :
    Holds (t.map g) (z.map f) := by
  refine ⟨held.1, fun idx c inside small => ?_⟩
  rw [get?_map, get?_map, held.2 idx c inside small, Option.map_map, Option.map_map]
  congr 1
  funext x
  exact (parts c x).symm

theorem part_add (c : Nat) (x y : ℂ) : part c (x + y) = part c x + part c y := by
  unfold part
  split <;> rfl

theorem part_sub (c : Nat) (x y : ℂ) : part c (x - y) = part c x - part c y := by
  unfold part
  split <;> rfl

theorem part_neg (c : Nat) (x : ℂ) : part c (-x) = -part c x := by
  unfold part
  split <;> rfl

theorem parts_made {f : ℂ → ℂ → ℂ} (made : pointwise f z w = some u) :
    pointwise (fun x y => (f x y).re) z w = some (u.map Complex.re) ∧
      pointwise (fun x y => (f x y).im) z w = some (u.map Complex.im) := by
  rw [← map_pointwise f Complex.re, ← map_pointwise f Complex.im, made]
  exact ⟨rfl, rfl⟩

theorem some_pointwise {f : ℂ → ℂ → ℂ} (made : pointwise f z w = some u) (g : ℂ → ℂ → ℝ) :
    ∃ r, pointwise g z w = some r := pointwise_common g (pointwise_some made).1

theorem multiply_holds (held : Holds t z) (held' : Holds s w) (made : pointwise (· * ·) z w = some u) :
    ∃ r, multiply t s = some r ∧ Holds r u := by
  obtain ⟨r, paired, holds⟩ := cxt_ok u
  obtain ⟨rr, first⟩ := some_pointwise made fun x y => x.re * y.re
  obtain ⟨ii, second⟩ := some_pointwise made fun x y => x.im * y.im
  obtain ⟨ri, third⟩ := some_pointwise made fun x y => x.re * y.im
  obtain ⟨ir, fourth⟩ := some_pointwise made fun x y => x.im * y.re
  have real := (pointwise_both (· - ·) first second).trans (parts_made made).1
  have imaginary := (pointwise_both (· + ·) third fourth).trans (parts_made made).2
  refine ⟨r, ?_, holds⟩
  unfold multiply
  rw [bind_step (re_ok held), bind_step (im_ok held), bind_step (re_ok held'), bind_step (im_ok held'),
    pointwise_map, pointwise_map, pointwise_map, pointwise_map, bind_step first, bind_step second,
    bind_step real, bind_step third, bind_step fourth, bind_step imaginary, paired]

theorem pointwise_self {α β : Type} (f : α → α → β) (t : NDArray α) :
    pointwise f t t = some (t.map fun x => f x x) := by
  refine (pointwise_eq (common_self t.shape)).mpr ⟨rfl, fun idx inside => ?_⟩
  rw [project_self inside, get?_map]
  cases t.get? idx <;> rfl

theorem pointwise_right {α β β' γ : Type} (f : α → β' → γ) (h : β → β') (t : NDArray α)
    (t' : NDArray β) :
    pointwise f t (t'.map h) = pointwise (fun x y => f x (h y)) t t' := by
  have same : t.map id = t := by simp [map]
  have turned := pointwise_map f id h t t'
  rwa [same] at turned

theorem divide_holds (held : Holds t z) (held' : Holds s w) (made : pointwise (· / ·) z w = some u) :
    ∃ r, divide t s = some r ∧ Holds r u := by
  obtain ⟨r, paired, holds⟩ := cxt_ok u
  obtain ⟨rr, first⟩ := some_pointwise made fun x y => x.re * y.re
  obtain ⟨ii, second⟩ := some_pointwise made fun x y => x.im * y.im
  obtain ⟨ir, third⟩ := some_pointwise made fun x y => x.im * y.re
  obtain ⟨ri, fourth⟩ := some_pointwise made fun x y => x.re * y.im
  obtain ⟨x, more⟩ := some_pointwise made fun x y => x.re * y.re + x.im * y.im
  obtain ⟨y, less⟩ := some_pointwise made fun x y => x.im * y.re - x.re * y.im
  have sum := (pointwise_both (· + ·) first second).trans more
  have difference := (pointwise_both (· - ·) third fourth).trans less
  have square : pointwise (· + ·) (w.map fun y => y.re * y.re) (w.map fun y => y.im * y.im) =
      some (w.map fun y => y.re * y.re + y.im * y.im) := by
    rw [pointwise_map, pointwise_self]
  have real : pointwise (· / ·) x (w.map fun y => y.re * y.re + y.im * y.im) =
      some (u.map Complex.re) := by
    rw [pointwise_right, pointwise_again _ more, ← (parts_made made).1]
    congr 1
    funext x y
    rw [Complex.div_re, Complex.normSq_apply, add_div]
  have imaginary : pointwise (· / ·) y (w.map fun y => y.re * y.re + y.im * y.im) =
      some (u.map Complex.im) := by
    rw [pointwise_right, pointwise_again _ less, ← (parts_made made).2]
    congr 1
    funext x y
    rw [Complex.div_im, Complex.normSq_apply, sub_div]
  refine ⟨r, ?_, holds⟩
  unfold divide
  rw [bind_step (re_ok held), bind_step (im_ok held), bind_step (re_ok held'), bind_step (im_ok held'),
    pointwise_map, pointwise_map, pointwise_map, pointwise_map, pointwise_map, pointwise_map,
    bind_step (pointwise_self _ w), bind_step (pointwise_self _ w), bind_step square, bind_step first,
    bind_step second, bind_step sum, bind_step third, bind_step fourth, bind_step difference,
    bind_step real, bind_step imaginary, paired]

theorem conjugate_holds (held : Holds t z) :
    ∃ r, conjugate t = some r ∧ Holds r (z.map (starRingEnd ℂ)) := by
  obtain ⟨r, paired, holds⟩ := cxt_ok (z.map (starRingEnd ℂ))
  refine ⟨r, ?_, holds⟩
  unfold conjugate
  rw [bind_step (re_ok held), bind_step (im_ok held), ← paired]
  simp only [map, List.map_map, Function.comp_def, Complex.conj_re, Complex.conj_im]

theorem map_map {α β γ : Type} (t : NDArray α) (f : α → β) (g : β → γ) :
    (t.map f).map g = t.map fun x => g (f x) := by
  simp [map, Function.comp_def]

theorem exp_holds (held : Holds t z) : ∃ r, exp exact t = some r ∧ Holds r (z.map Complex.exp) := by
  obtain ⟨r, paired, holds⟩ := cxt_ok (z.map Complex.exp)
  have real : pointwise (· * ·) ((z.map Complex.re).map exact.exp) ((z.map Complex.im).map exact.cos) =
      some ((z.map Complex.exp).map Complex.re) := by
    rw [map_map, map_map, map_map, pointwise_map, pointwise_self]
    simp only [Complex.exp_re]
    rfl
  have imaginary : pointwise (· * ·) ((z.map Complex.re).map exact.exp)
      ((z.map Complex.im).map exact.sin) =
      some ((z.map Complex.exp).map Complex.im) := by
    rw [map_map, map_map, map_map, pointwise_map, pointwise_self]
    simp only [Complex.exp_im]
    rfl
  refine ⟨r, ?_, holds⟩
  unfold exp
  rw [bind_step (re_ok held)]
  dsimp only
  rw [bind_step (im_ok held), bind_step real, bind_step imaginary, paired]

theorem abs_ok (held : Holds t z) : abs exact t = some (z.map fun x => ‖x‖) := by
  have square : pointwise (· + ·) (z.map fun y => y.re * y.re) (z.map fun y => y.im * y.im) =
      some (z.map fun y => y.re * y.re + y.im * y.im) := by
    rw [pointwise_map, pointwise_self]
  unfold abs
  rw [bind_step (re_ok held), bind_step (im_ok held), pointwise_map, pointwise_map,
    bind_step (pointwise_self _ z), bind_step (pointwise_self _ z), bind_step square, map_map]
  simp only [Complex.norm_def, Complex.normSq_apply]
  rfl

end elements

section moved
variable {t r : NDArray ℝ} {z u : NDArray ℂ} {axes : List Nat}

theorem moved_holds (held : Holds t z) (dims : r.shape = u.shape ++ [2])
    (moved : ∀ idx, Inside u.shape idx →
    ∃ src, Inside z.shape src ∧ u.get? idx = z.get? src ∧ ∀ c, c < 2 →
    r.get? (idx ++ [c]) = t.get? (src ++ [c])) :
    Holds r u := by
  refine ⟨dims, fun idx c inside small => ?_⟩
  obtain ⟨src, there, same, parts⟩ := moved idx inside
  rw [parts c small, held.2 src c there small, same]

theorem same_offset {shape shape' idx : List Nat} (same : shape'.prod = shape.prod)
    (inside : Inside shape idx) :
    ∃ src, Inside shape' src ∧ offset shape' src = offset shape idx := by
  have low : offset shape idx < (indices shape').length := by
    rw [indices_length, same]
    exact offset_lt inside
  have there : (indices shape')[offset shape idx]? = some (indices shape')[offset shape idx] :=
    List.getElem?_eq_getElem low
  exact ⟨_, mem_indices.mp (List.mem_of_getElem? there), offset_of_get there⟩

theorem reshape_holds {shape : List Nat} (held : Holds t z) (made : z.reshape shape = some u) :
    ∃ r, t.reshape (shape ++ [2]) = some r ∧ Holds r u := by
  have same : z.shape.prod = shape.prod := by
    by_contra other
    rw [reshape, dif_neg other] at made
    cases made
  have same' : t.shape.prod = (shape ++ [2]).prod := by
    rw [held.1, List.prod_append, List.prod_append, same]
  obtain ⟨r, made'⟩ := reshape_ok same'
  have dims := reshape_shape made
  refine ⟨r, made', moved_holds held (by rw [reshape_shape made', dims]) fun idx inside => ?_⟩
  rw [dims] at inside
  obtain ⟨src, there, place⟩ := same_offset same inside
  refine ⟨src, there, get?_reshape made there inside place, fun c small => ?_⟩
  refine get?_reshape made' (held.1 ▸ inside_last there small) (inside_last inside small) ?_
  rw [held.1, offset_append there.length, offset_append inside.length, place]

theorem arrange_last {idx : List Nat} {rank c : Nat} (low : ∀ a ∈ axes, a < rank)
    (len : idx.length = rank) :
    arrange (axes ++ [rank]) (idx ++ [c]) = arrange axes idx ++ [c] := by
  have front : axes.filterMap ((idx ++ [c])[·]?) = axes.filterMap (idx[·]?) :=
    List.filterMap_congr fun a mem => List.getElem?_append_left (len.symm ▸ low a mem)
  rw [arrange, List.filterMap_append, front, arrange]
  simp [← len]

theorem permute_holds (held : Holds t z) (made : z.permute axes = some u) :
    ∃ r, t.permute (axes ++ [u.shape.length]) = some r ∧ Holds r u := by
  have order : axes.Perm (List.range z.shape.length) := by
    by_contra other
    rw [permute, if_neg other] at made
    cases made
  have low : ∀ a ∈ axes, a < z.shape.length := fun a mem => axis_low order mem
  obtain ⟨u', made', dims, entries⟩ := permute_ok order
  obtain rfl : u = u' := Option.some_inj.mp (made.symm.trans made')
  have rank : u.shape.length = z.shape.length := by rw [dims, arrange_length order rfl]
  have order' : (axes ++ [z.shape.length]).Perm (List.range t.shape.length) := by
    rw [held.1, List.length_append, List.length_singleton, List.range_succ]
    exact order.append_right _
  obtain ⟨r, made'', dims', entries'⟩ := permute_ok order'
  rw [rank]
  refine ⟨r, made'', moved_holds held ?_ fun idx inside => ?_⟩
  · rw [dims', held.1, arrange_last low rfl, dims]
  · rw [dims] at inside
    have len := inside.length.trans (arrange_length order rfl)
    have there := inside_restore order rfl inside
    have back := arrange_restore order len
    refine ⟨_, there, ?_, fun c small => ?_⟩
    · rw [← entries _ there, back]
    · rw [← entries' _ (held.1 ▸ inside_last there small), arrange_last low there.length, back]

theorem look_holds {windows : List Window} (held : Holds t z) (made : look z windows none = some u) :
    ∃ r, look t (windows ++ [.all 2]) none = some r ∧ Holds r u := by
  have dims := look_shape made
  have sizes : (windows ++ [Window.all 2]).map Window.size = windows.map Window.size ++ [2] := by
    simp [Window.all]
  have found (idx : List Nat) (inside : Inside (windows.map Window.size) idx) :
      ∃ src, place windows idx = some src ∧ Inside z.shape src ∧ u.get? idx = z.get? src := by
    have entry := get?_look made inside
    have there : (u.get? idx).isSome := get?_isSome.mpr (dims.symm ▸ inside)
    cases read : place windows idx with
    | none => simp [entry, read] at there
    | some src =>
      rw [read] at entry
      rw [entry] at there
      exact ⟨src, rfl, get?_isSome.mp there, entry⟩
  have parts (idx src : List Nat) (c : Nat) (inside : Inside (windows.map Window.size) idx)
      (read : place windows idx = some src) :
      place (windows ++ [Window.all 2]) (idx ++ [c]) = some (src ++ [c]) := by
    have len : windows.length = idx.length := by simpa using inside.length.symm
    rw [place_append len, read]
    rfl
  obtain ⟨r, made'⟩ : ∃ r, look t (windows ++ [.all 2]) none = some r := by
    refine build_ok fun idx inside => ?_
    rw [sizes] at inside
    obtain ⟨front, back, rfl, inside', last⟩ := inside_split inside
    obtain ⟨c, rfl⟩ : ∃ c, back = [c] := List.length_eq_one_iff.mp last.length
    obtain ⟨src, read, there, -⟩ := found front inside'
    rw [parts front src c inside' read]
    exact get?_isSome.mpr (held.1 ▸ inside_last there last.1)
  refine ⟨r, made', moved_holds held (by rw [look_shape made', sizes, dims]) fun idx inside => ?_⟩
  rw [dims] at inside
  obtain ⟨src, read, there, same⟩ := found idx inside
  refine ⟨src, there, same, fun c small => ?_⟩
  rw [get?_look made' (sizes.symm ▸ inside_last inside small), parts idx src c inside read]

theorem flip_holds (held : Holds t z) (made : flip z axes = some u) :
    ∃ r, flip t axes = some r ∧ Holds r u := by
  unfold flip at made ⊢
  split at made
  · rename_i fits
    have fits' : axes.Nodup ∧ ∀ a ∈ axes, a < t.shape.length := by
      refine ⟨fits.1, fun a mem => ?_⟩
      have := fits.2 a mem
      rw [held.1, List.length_append]
      omega
    have last : z.shape.length ∉ axes := fun mem => Nat.lt_irrefl _ (fits.2 _ mem)
    rw [if_pos fits', held.1, List.mapIdx_append]
    simpa [last] using look_holds held made
  · cases made

def Cuts (shape : List Nat) (cuts : List (Nat × Nat × Nat)) : Prop :=
  List.Forall₂ (fun d (c : Nat × Nat × Nat) => c.1 + c.2.1 ≤ d ∧ 0 < c.2.2) shape cuts

def sliced {α : Type} (z : NDArray α) (cuts : List (Nat × Nat × Nat)) : Option (NDArray α) :=
  look z (cuts.map fun c => ⟨(c.2.1 + c.2.2 - 1) / c.2.2, fun i => some (c.1 + c.2.2 * i)⟩) none

theorem sliceWindow_eq {d start l stride : Nat} (low : start + l ≤ d) :
    sliceWindow d start l stride = ⟨(l + stride - 1) / stride, fun i => some (start + stride * i)⟩ := by
  have first : bound d start = start := by
    rw [bound, if_neg (by omega), Int.toNat_natCast]
    omega
  have last : bound d (start + l) = start + l := by
    rw [bound, if_neg (by omega), ← Int.natCast_add, Int.toNat_natCast]
    omega
  rw [sliceWindow, first, last, Nat.add_sub_cancel_left]

theorem slice_windows {shape : List Nat} {cuts : List (Nat × Nat × Nat)} (fits : Cuts shape cuts) :
    List.zipWith (fun d (s : Int × Nat × Nat) => sliceWindow d s.1 s.2.1 s.2.2) shape
        (cuts.map fun c => ((c.1 : Int), c.2.1, c.2.2)) =
      cuts.map fun c => ⟨(c.2.1 + c.2.2 - 1) / c.2.2, fun i => some (c.1 + c.2.2 * i)⟩ := by
  induction fits with
  | nil => rfl
  | cons here _ ih => rw [List.map_cons, List.map_cons, List.zipWith_cons_cons, ih,
      sliceWindow_eq here.1]

theorem slice_holds {cuts : List (Nat × Nat × Nat)} (held : Holds t z) (fits : Cuts z.shape cuts)
    (made : sliced z cuts = some u) :
      ∃ r, slice t (cuts.map fun c => .static c.1) (cuts.map fun c => c.2.1)
      (cuts.map fun c => c.2.2) = some r ∧ Holds r u := by
  have len := fits.length_eq
  have starts : (cuts.map fun c => StartSpec.static (c.1 : Int)).mapM static =
      some (cuts.map fun c => (c.1 : Int)) := by
    rw [List.mapM_map]
    exact List.mapM_pure
  have slices : (cuts.map fun c => (c.1 : Int)).zip
      ((cuts.map fun c => c.2.1).zip (cuts.map fun c => c.2.2)) =
      cuts.map fun c => ((c.1 : Int), c.2.1, c.2.2) := by
    rw [List.zip_map', List.zip_map']
  have rest : t.shape.drop cuts.length = [2] := by rw [held.1, ← len, List.drop_left]
  have windows : List.zipWith (fun d (s : Int × Nat × Nat) => sliceWindow d s.1 s.2.1 s.2.2) t.shape
      (cuts.map fun c => ((c.1 : Int), c.2.1, c.2.2)) =
        cuts.map fun c => ⟨(c.2.1 + c.2.2 - 1) / c.2.2, fun i => some (c.1 + c.2.2 * i)⟩ := by
    rw [held.1, ← slice_windows fits]
    have count : z.shape.length = (cuts.map fun c => ((c.1 : Int), c.2.1, c.2.2)).length := by
      rw [List.length_map, len]
    rw [← List.append_nil (cuts.map fun c => ((c.1 : Int), c.2.1, c.2.2)), List.zipWith_append count]
    simp
  have within : (cuts.map fun c => ((c.1 : Int), c.2.1, c.2.2)).length ≤ t.shape.length := by
    rw [held.1, List.length_map, ← len, List.length_append]
    omega
  unfold slice
  rw [bind_step starts, slices, getItem, if_pos within, windows, List.length_map, rest]
  exact look_holds held made

theorem catRead_holds {ts : List (NDArray ℝ)} {zs : List (NDArray ℂ)} {axis c i : Nat} {idx : List Nat}
    (held : List.Forall₂ Holds ts zs) (low : axis < idx.length) (small : c < 2)
    (same : ∀ w ∈ zs, w.shape.length = idx.length ∧ ∀ j, j < w.shape.getD axis 0 →
      Inside w.shape (idx.set axis j)) :
    catRead axis (idx ++ [c]) ts i = (catRead axis idx zs i).map (part c) := by
  induction held generalizing i with
  | nil => rfl
  | @cons t w _ _ here _ ih =>
    obtain ⟨len, inside⟩ := same w (List.mem_cons_self ..)
    have size : t.shape.getD axis 0 = w.shape.getD axis 0 := by
      rw [here.1, List.getD_eq_getElem?_getD, List.getElem?_append_left (by omega),
        List.getD_eq_getElem?_getD]
    rw [catRead, catRead, size]
    split
    · rename_i fits
      rw [List.set_append_left _ _ low]
      exact here.2 _ c (inside i fits) small
    · exact ih fun v mem => same v (List.mem_cons_of_mem _ mem)

theorem cat_holds {ts : List (NDArray ℝ)} {zs : List (NDArray ℂ)} {axis : Nat}
    (held : List.Forall₂ Holds ts zs)
    (made : cat zs axis = some u) : ∃ r, cat ts axis = some r ∧ Holds r u := by
  cases held with
  | nil => cases made
  | @cons t w ts ws here rest =>
    obtain ⟨low, same, dims, entries⟩ := cat_some made
    have low' : axis < t.shape.length := by
      rw [here.1, List.length_append]
      omega
    have widths : ∀ {ts : List (NDArray ℝ)} {ws : List (NDArray ℂ)}, List.Forall₂ Holds ts ws →
        (∀ v ∈ ws, v.shape.set axis 0 = w.shape.set axis 0) →
        (∀ s ∈ ts, s.shape.set axis 0 = t.shape.set axis 0) ∧
          ts.map (fun s => s.shape.getD axis 0) = ws.map fun v => v.shape.getD axis 0 := by
      intro ts ws held same
      induction held with
      | nil => exact ⟨by simp, rfl⟩
      | @cons s v _ _ first _ ih =>
        obtain ⟨others, sizes⟩ := ih fun v mem => same v (List.mem_cons_of_mem _ mem)
        have alike := same v (List.mem_cons_self ..)
        have low'' : axis < v.shape.length := by
          have := congrArg List.length alike
          simp only [List.length_set] at this
          omega
        refine ⟨List.forall_mem_cons.mpr ⟨?_, others⟩, ?_⟩
        · rw [first.1, here.1, List.set_append_left _ _ low'', List.set_append_left _ _ low, alike]
        · rw [List.map_cons, List.map_cons, sizes, first.1, List.getD_eq_getElem?_getD,
            List.getElem?_append_left low'', List.getD_eq_getElem?_getD]
    obtain ⟨alike, -⟩ := widths rest same
    have all : ∀ v ∈ w :: ws, v.shape.set axis 0 = w.shape.set axis 0 :=
      List.forall_mem_cons.mpr ⟨rfl, same⟩
    have sizes := (widths (.cons here rest) all).2
    obtain ⟨r, made', dims', entries'⟩ := cat_ok low' alike
    have dims'' : r.shape = u.shape ++ [2] := by
      rw [dims', sizes, here.1, List.set_append_left _ _ low, dims]
    refine ⟨r, made', dims'', fun idx c inside small => ?_⟩
    have len : idx.length = w.shape.length := by
      rw [inside.length, dims, List.length_set]
    have last : (idx ++ [c]).getD axis 0 = idx.getD axis 0 := by
      rw [List.getD_eq_getElem?_getD, List.getElem?_append_left (by omega), List.getD_eq_getElem?_getD]
    rw [entries' _ (dims'' ▸ inside_last inside small), last, entries idx inside]
    refine catRead_holds (.cons here rest) (by omega) small fun v mem => ⟨?_, fun j fits => ?_⟩
    · have := congrArg List.length (all v mem)
      simp only [List.length_set] at this
      omega
    · exact inside_set (dims ▸ inside) (all v mem) fits

end moved

section sums
variable {t s : NDArray ℝ} {z w u : NDArray ℂ}

theorem sum_holds {axes : List Int} {keep : Bool} (held : Holds t z)
    (made : sumDims z axes keep = some u) :
    ∃ r, sum t axes keep = some r ∧ Holds r u := by
  obtain ⟨r, paired, holds⟩ := cxt_ok u
  obtain ⟨dims, resolved, rfl⟩ := Option.map_eq_some_iff.mp made
  have real : sumDims (z.map Complex.re) axes keep = some ((sumAxes dims keep z).map Complex.re) := by
    have rank : (z.map Complex.re).shape.length = z.shape.length := rfl
    rw [sumDims, rank, resolved]
    exact congrArg some (sumAxes_map Complex.reAddGroupHom dims keep z)
  have imaginary : sumDims (z.map Complex.im) axes keep =
      some ((sumAxes dims keep z).map Complex.im) := by
    have rank : (z.map Complex.im).shape.length = z.shape.length := rfl
    rw [sumDims, rank, resolved]
    exact congrArg some (sumAxes_map Complex.imAddGroupHom dims keep z)
  refine ⟨r, ?_, holds⟩
  unfold sum
  rw [bind_step (re_ok held), bind_step real, bind_step (im_ok held), bind_step imaginary, paired]

theorem sum_re {κ : Type} {l : List κ} {a b : κ → ℝ} {c : κ → ℂ} (same : ∀ k, (c k).re = a k - b k) :
    ((l.map c).sum).re = (l.map a).sum - (l.map b).sum := by
  induction l with
  | nil => simp
  | cons k l ih =>
    rw [List.map_cons, List.sum_cons, Complex.add_re, ih, same, List.map_cons, List.sum_cons,
      List.map_cons, List.sum_cons]
    ring

theorem sum_im {κ : Type} {l : List κ} {a b : κ → ℝ} {c : κ → ℂ} (same : ∀ k, (c k).im = a k + b k) :
    ((l.map c).sum).im = (l.map a).sum + (l.map b).sum := by
  induction l with
  | nil => simp
  | cons k l ih =>
    rw [List.map_cons, List.sum_cons, Complex.add_im, ih, same, List.map_cons, List.sum_cons,
      List.map_cons, List.sum_cons]
    ring

variable {ca cb ba bb : List Nat}

theorem products_map {f g : ℂ → ℝ} (zero : f 0 = 0) (zero' : g 0 = 0) (β φ ψ : List Nat) :
    products (z.map f) (w.map g) ca cb ba bb β φ ψ = ((indices (arrange ca z.shape)).map fun κ =>
      f (z.entry (position ba ca z.shape.length β κ φ)) * g
        (w.entry (position bb cb w.shape.length β κ ψ))).sum := by
  unfold products
  simp only [entry_map zero, entry_map zero']
  rfl

theorem dot_holds (held : Holds t z) (held' : Holds s w) (p : Paired z.shape w.shape ca cb ba bb)
    (few : letterCount z.shape w.shape ca cb ba bb ≤ 52) :
    ∃ r, dot t s ca cb ba bb = some r ∧ Holds r (contraction z w ca cb ba bb) := by
  obtain ⟨r, paired, holds⟩ := cxt_ok (contraction z w ca cb ba bb)
  have einsum (f g : ℂ → ℝ) : einsumDot (z.map f) (w.map g) ca cb ba bb =
      some (contraction (z.map f) (w.map g) ca cb ba bb) :=
    einsumDot_eq p few
  have dims (f g : ℂ → ℝ) : contraction (z.map f) (w.map g) ca cb ba bb =
      tabulate (contraction z w ca cb ba bb).shape fun idx => products (z.map f) (w.map g) ca cb ba bb
        (idx.take ba.length) ((idx.drop ba.length).take (nonAxes (ba ++ ca) z.shape.length).length)
          (idx.drop (ba.length + (nonAxes (ba ++ ca) z.shape.length).length)) := rfl
  have real : pointwise (· - ·) (contraction (z.map Complex.re) (w.map Complex.re) ca cb ba bb)
      (contraction (z.map Complex.im) (w.map Complex.im) ca cb ba bb) =
        some ((contraction z w ca cb ba bb).map Complex.re) := by
    rw [dims, dims, pointwise_tabulate, contraction, map_tabulate]
    refine congrArg some (congrArg _ (funext fun idx => ?_))
    rw [products_map Complex.zero_re Complex.zero_re, products_map Complex.zero_im Complex.zero_im]
    exact (sum_re fun κ => Complex.mul_re _ _).symm
  have imaginary : pointwise (· + ·) (contraction (z.map Complex.re) (w.map Complex.im) ca cb ba bb)
      (contraction (z.map Complex.im) (w.map Complex.re) ca cb ba bb) =
        some ((contraction z w ca cb ba bb).map Complex.im) := by
    rw [dims, dims, pointwise_tabulate, contraction, map_tabulate]
    refine congrArg some (congrArg _ (funext fun idx => ?_))
    rw [products_map Complex.zero_re Complex.zero_im, products_map Complex.zero_im Complex.zero_re]
    exact (sum_im fun κ => Complex.mul_im _ _).symm
  refine ⟨r, ?_, holds⟩
  unfold dot
  rw [bind_step (re_ok held), bind_step (im_ok held), bind_step (re_ok held'), bind_step (im_ok held'),
    bind_step (einsum _ _), bind_step (einsum _ _), bind_step real, bind_step (einsum _ _),
    bind_step (einsum _ _), bind_step imaginary, paired]

end sums

section select
variable {t s : NDArray ℝ} {z w u : NDArray ℂ}

theorem where_holds {c c' : NDArray Bool} (held : Holds t z) (held' : Holds s w)
    (cond : Spread 1 (fun _ b => b) c' c) (made : whereElse c z w = some u) :
    ∃ r, whereElse c' t s = some r ∧ Holds r u := by
  obtain ⟨p, both, made⟩ := Option.bind_eq_some_iff.mp made
  obtain ⟨q, both', pairs⟩ := @pointwise_spread _ _ _ _ _ _ 2 2 2 part part
    (fun k (x : ℂ × ℂ) => (part k x.1, part k x.2)) Prod.mk Prod.mk t s z w p rfl (fun _ _ _ => rfl)
      held held' both
  obtain ⟨r, made', holds⟩ := @pointwise_spread _ _ _ _ _ _ 1 2 2 (fun _ b => b)
    (fun k (x : ℂ × ℂ) => (part k x.1, part k x.2)) part _
      (fun (b : Bool) (x : ℝ × ℝ) => if b then x.1 else x.2) c' q c p u rfl
      (by intro _ b _; cases b <;> rfl) cond pairs made
  refine ⟨r, ?_, holds⟩
  unfold whereElse
  rw [bind_step both', made']

theorem select_holds {c : NDArray ℝ} {v v' : Value ℝ} (read : Reads v z) (read' : Reads v' w)
    (made : whereElse (c.map fun x => decide (x ≠ 0)) z w = some u) :
    ∃ r, select (.real c) v v' = some r ∧ Holds r u := by
  obtain ⟨t, promoted, held⟩ := promote_ok read
  obtain ⟨s, promoted', held'⟩ := promote_ok read'
  obtain ⟨c', moved, dims, entries⟩ := reshape_last (c.map fun x => decide (x ≠ 0))
  have cond : Spread 1 (fun _ b => b) c' (c.map fun x => decide (x ≠ 0)) := by
    refine ⟨dims, fun idx k inside low => ?_⟩
    obtain rfl : k = 0 := by omega
    rw [entries idx inside]
    exact (Option.map_id').symm
  obtain ⟨r, chosen, holds⟩ := where_holds held held' cond made
  refine ⟨r, ?_, holds⟩
  have real : (Value.real c).real? = some c := rfl
  unfold select
  rw [bind_step real]
  dsimp only
  rw [bind_step promoted, bind_step promoted', bind_step moved, chosen]

end select

section broadcast
variable {t : NDArray ℝ} {z : NDArray ℂ} {out axes shape : List Nat}

/-- Axis `k` of `z` is axis `axes[k]` of the result, or repeated along it. -/
def broadcastTo (z : NDArray ℂ) (out axes : List Nat) : NDArray ℂ :=
  tabulate out fun idx =>
    z.entry (List.zipWith (fun d o => if d = 1 then 0 else idx.getD o 0) z.shape axes)

/-- Axes in increasing order, each of size 1 or of the size of its axis of the result. -/
structure Broadcasts (shape out axes : List Nat) : Prop where
  sorted : axes.Pairwise (· < ·)
  sizes : List.Forall₂ (fun d o => o < out.length ∧ (d = 1 ∨ d = out.getD o 0)) shape axes

def interSize (axes shape : List Nat) (o : Nat) : Nat :=
  if o ∈ axes then shape.getD (axes.idxOf o) 0 else 1

theorem interSize_set {n a d : Nat} (len : axes.length = shape.length) (fresh : a ∉ axes)
    (low : a < n) :
    ((List.range n).map (interSize axes shape) ++ [2]).set a d =
      (List.range n).map (interSize (axes ++ [a]) (shape ++ [d])) ++ [2] := by
  rw [List.set_append_left _ _ (by simpa using low)]
  congr 1
  refine List.ext_getElem? fun o => ?_
  rcases Nat.lt_or_ge o n with small | beyond
  · by_cases here : a = o
    · subst here
      rw [List.getElem?_set_self (by simpa using low)]
      simp [interSize, small, List.idxOf_append_of_notMem fresh, len]
    · rw [List.getElem?_set_ne here]
      by_cases mem : o ∈ axes
      · have inside : axes.idxOf o < shape.length := len ▸ List.idxOf_lt_length_iff.mpr mem
        simp [interSize, small, mem, List.idxOf_append_of_mem mem, List.getElem?_append_left inside]
      · simp [interSize, small, mem, Ne.symm here]
  · rw [List.getElem?_eq_none (by simpa using beyond), List.getElem?_eq_none (by simpa using beyond)]

theorem setSizes_ok {n : Nat} {more sizes : List Nat} (len : axes.length = shape.length)
    (len' : more.length = sizes.length) (distinct : (axes ++ more).Nodup) (low : ∀ a ∈ more, a < n) :
    setSizes ((List.range n).map (interSize axes shape) ++ [2]) (more.zip sizes) =
      some ((List.range n).map (interSize (axes ++ more) (shape ++ sizes)) ++ [2]) := by
  induction more generalizing axes shape sizes with
  | nil =>
    cases sizes with
    | nil => simp [setSizes]
    | cons d sizes => cases len'
  | cons a more ih =>
    cases sizes with
    | nil => cases len'
    | cons d sizes =>
      have here := low a (List.mem_cons_self ..)
      have within : a < ((List.range n).map (interSize axes shape) ++ [2]).length := by simp; omega
      rw [← List.singleton_append, ← List.append_assoc] at distinct
      have fresh : a ∉ axes := fun mem =>
        (List.nodup_append.mp (List.nodup_append.mp distinct).1).2.2 a mem a
          (List.mem_singleton_self _) rfl
      have later := @ih (axes ++ [a]) (shape ++ [d]) sizes (by simp [len])
        (by simpa using len') distinct
        fun b mem => low b (List.mem_cons_of_mem _ mem)
      rw [List.zip_cons_cons, setSizes, if_pos within, interSize_set len fresh here, later]
      simp

theorem offset_filter {l : List Nat} {p : Nat → Bool} {f g : Nat → Nat}
    (ones : ∀ o ∈ l, p o = false → f o = 1 ∧ g o = 0) : (l.map f).prod = ((l.filter p).map f).prod ∧
      offset (l.map f) (l.map g) = offset ((l.filter p).map f) ((l.filter p).map g) := by
  induction l with
  | nil => exact ⟨rfl, rfl⟩
  | cons o l ih =>
    obtain ⟨same, place⟩ := ih fun q mem => ones q (List.mem_cons_of_mem _ mem)
    cases keep : p o with
    | true => simp [keep, offset, same, place]
    | false =>
      obtain ⟨one, zero⟩ := ones o (List.mem_cons_self ..) keep
      simp [keep, offset, same, place, one, zero]

section fits
variable (fits : Broadcasts shape out axes)
include fits

theorem Broadcasts.pair {k : Nat} (low : k < axes.length) :
    shape.getD k 0 = 1 ∨ shape.getD k 0 = out.getD axes[k] 0 := by
  have small : k < shape.length := fits.sizes.length_eq ▸ low
  have here := ((List.forall₂_iff_get.mp fits.sizes).2 k small low).2
  rw [List.getD_eq_getElem?_getD, List.getElem?_eq_getElem small]
  exact here

theorem Broadcasts.low : ∀ a ∈ axes, a < out.length := by
  intro a mem
  obtain ⟨k, small, rfl⟩ := List.mem_iff_getElem.mp mem
  exact ((List.forall₂_iff_get.mp fits.sizes).2 k (fits.sizes.length_eq ▸ small) small).1

theorem Broadcasts.distinct : axes.Nodup := fits.sorted.imp Nat.ne_of_lt

theorem Broadcasts.kept : (List.range out.length).filter (· ∈ axes) = axes := by
  refine ((fits.sorted.eq_of_mem_iff (List.pairwise_lt_range.filter _)) fun a => ?_).symm
  have := fits.low a
  simp only [List.mem_filter, List.mem_range, decide_eq_true_iff]
  tauto

theorem Broadcasts.size_get {k : Nat} (low : k < axes.length) :
    interSize axes shape axes[k] = shape.getD k 0 := by
  rw [interSize, if_pos (List.getElem_mem low), fits.distinct.idxOf_getElem k low]

theorem Broadcasts.mapped : axes.map (interSize axes shape) = shape := by
  refine List.ext_getElem? fun k => ?_
  rw [List.getElem?_map]
  rcases Nat.lt_or_ge k axes.length with low | beyond
  · have small : k < shape.length := fits.sizes.length_eq ▸ low
    rw [List.getElem?_eq_getElem low, Option.map_some, fits.size_get low, List.getD_eq_getElem?_getD,
      List.getElem?_eq_getElem small, Option.getD_some]
  · rw [List.getElem?_eq_none beyond, List.getElem?_eq_none (fits.sizes.length_eq ▸ beyond)]
    rfl

theorem Broadcasts.size_fits (o : Nat) :
    interSize axes shape o = out.getD o 0 ∨ interSize axes shape o = 1 := by
  by_cases mem : o ∈ axes
  · obtain ⟨k, low, rfl⟩ := List.mem_iff_getElem.mp mem
    rw [fits.size_get low]
    exact (fits.pair low).symm
  · exact .inr (if_neg mem)

theorem Broadcasts.expands : List.Forall₂ (fun d d' => d = d' ∨ d = 1)
    ((List.range out.length).map (interSize axes shape) ++ [2]) (out ++ [2]) := by
  refine List.rel_append ?_ (.cons (.inl rfl) .nil)
  refine List.forall₂_iff_get.mpr ⟨by simp, fun o low low' => ?_⟩
  have size := fits.size_fits o
  rw [List.getD_eq_getElem?_getD, List.getElem?_eq_getElem low', Option.getD_some] at size
  simpa using size

theorem Broadcasts.place {idx : List Nat} (len : idx.length = out.length) :
    ((List.range out.length).map (interSize axes shape)).prod = shape.prod ∧
      offset ((List.range out.length).map (interSize axes shape))
          (List.zipWith (fun d i => if d = 1 then 0 else i)
          ((List.range out.length).map (interSize axes shape)) idx) =
        offset shape (List.zipWith (fun d o => if d = 1 then 0 else idx.getD o 0) shape axes) := by
  have zipped : List.zipWith (fun d i => if d = 1 then 0 else i)
      ((List.range out.length).map (interSize axes shape)) idx =
      (List.range out.length).map fun o => if interSize axes shape o = 1 then 0 else idx.getD o 0 := by
    refine List.ext_getElem? fun o => ?_
    rcases Nat.lt_or_ge o out.length with low | beyond
    · have there : o < idx.length := len.symm ▸ low
      simp [List.getElem?_zipWith, low, List.getElem?_eq_getElem there]
    · simp [beyond, len]
  have zipped' : List.zipWith (fun d o => if d = 1 then 0 else idx.getD o 0) shape axes =
      axes.map fun o => if interSize axes shape o = 1 then 0 else idx.getD o 0 := by
    have mapped := fits.mapped
    rw [← mapped, List.zipWith_map_left, List.zipWith_self, mapped]
  have removed := @offset_filter (List.range out.length) (fun o => decide (o ∈ axes))
    (interSize axes shape)
    (fun o => if interSize axes shape o = 1 then 0 else idx.getD o 0) (by
      intro o _ other
      have one : interSize axes shape o = 1 := if_neg (of_decide_eq_false other)
      exact ⟨one, if_pos one⟩)
  rw [fits.kept, fits.mapped] at removed
  rw [zipped, zipped']
  exact removed

theorem Broadcasts.inside {idx : List Nat} (inside : Inside out idx) :
    Inside shape (List.zipWith (fun d o => if d = 1 then 0 else idx.getD o 0) shape axes) := by
  have low (o : Nat) (small : o < out.length) : idx.getD o 0 < out.getD o 0 := by
    have small' : o < idx.length := inside.length.symm ▸ small
    refine (inside_get.mp inside).2 o _ _ ?_ ?_
    · rw [List.getD_eq_getElem?_getD, List.getElem?_eq_getElem small', Option.getD_some]
    · rw [List.getD_eq_getElem?_getD, List.getElem?_eq_getElem small, Option.getD_some]
  have sizes := fits.sizes
  clear fits
  induction sizes with
  | nil => trivial
  | @cons d o _ _ here _ ih =>
    refine ⟨?_, ih⟩
    have := low o here.1
    dsimp only
    split <;> omega

end fits

theorem broadcast_holds (held : Holds t z) (fits : Broadcasts z.shape out axes) :
    ∃ r, broadcast t out axes = some r ∧ Holds r (broadcastTo z out axes) := by
  have len := fits.sizes.length_eq
  have within : axes.length ≤ t.shape.length := by
    rw [held.1, ← len, List.length_append]
    omega
  have pairs : axes.zip t.shape = axes.zip z.shape := by
    have split := @List.zip_append _ _ axes [] z.shape [2] len.symm
    simpa [held.1] using split
  have inter := @setSizes_ok [] [] out.length axes z.shape rfl len.symm fits.distinct fits.low
  have one (o : Nat) : interSize [] [] o = 1 := if_neg List.not_mem_nil
  have ones : (List.range out.length).map (interSize [] []) = List.replicate out.length 1 := by
    simp [List.map_congr_left fun o _ => one o]
  rw [ones, List.nil_append, List.nil_append] at inter
  have same : t.shape.prod = ((List.range out.length).map (interSize axes z.shape) ++ [2]).prod := by
    rw [held.1, List.prod_append, List.prod_append, (fits.place rfl).1]
  obtain ⟨x, moved⟩ := reshape_ok same
  have dims := reshape_shape moved
  have expands := fits.expands
  rw [← dims] at expands
  obtain ⟨r, made⟩ := expand_ok expands
  have built := made
  rw [expand, if_pos expands, build_eq] at built
  refine ⟨r, ?_, moved_holds held built.1 fun idx inside => ?_⟩
  · unfold broadcast
    rw [if_pos within, pairs, bind_step inter, bind_step moved, made]
  · have inside : Inside out idx := inside
    have there := fits.inside inside
    obtain ⟨prod, place⟩ := fits.place inside.length
    refine ⟨_, there, (get?_tabulate inside).trans (get?_entry there).symm, fun c small => ?_⟩
    have whole := inside_last inside small
    have read := inside_expand fits.expands whole
    have last : List.zipWith (fun d i => if d = 1 then 0 else i)
        ((List.range out.length).map (interSize axes z.shape) ++ [2]) (idx ++ [c]) =
        List.zipWith (fun d i => if d = 1 then 0 else i)
        ((List.range out.length).map (interSize axes z.shape)) idx ++
          [c] := by
      rw [List.zipWith_append (by simp [inside.length])]
      rfl
    rw [last] at read
    rw [built.2 _ whole, dims, last]
    refine get?_reshape moved (held.1 ▸ inside_last there small) read ?_
    rw [held.1, offset_append there.length, offset_append (by simp [inside.length]), place]

end broadcast

/-! What the operations compute on complex tensors. -/

def UnaryMeans (shape : List Nat) : Op → NDArray ℂ → NDArray ℂ → Prop
  | .negate, z, u => u = z.map (- ·)
  | .conjugate, z, u => u = z.map (starRingEnd ℂ)
  | .exp, z, u => u = z.map Complex.exp
  | .asType, z, u => u = z
  | .reshape, z, u | .squeeze, z, u => z.reshape shape = some u
  | .transpose axes, z, u => z.permute axes = some u
  | .reverse axes, z, u => flip z axes = some u
  | .broadcast out axes, z, u => Broadcasts z.shape out axes ∧ u = broadcastTo z out axes
  | .slice starts lengths strides, z, u => ∃ cuts : List (Nat × Nat × Nat), Cuts z.shape cuts ∧
      starts = (cuts.map fun c => .static c.1) ∧ lengths = (cuts.map fun c => c.2.1) ∧
      strides = (cuts.map fun c => c.2.2) ∧ sliced z cuts = some u
  | .sum axes keep, z, u => sumDims z axes keep = some u
  | _, _, _ => False

def BinaryMeans : Op → NDArray ℂ → NDArray ℂ → NDArray ℂ → Prop
  | .add, z, w, u => pointwise (· + ·) z w = some u
  | .subtract, z, w, u => pointwise (· - ·) z w = some u
  | .multiply, z, w, u => pointwise (· * ·) z w = some u
  | .divide, z, w, u => pointwise (· / ·) z w = some u
  | .dot ca cb ba bb, z, w, u => Paired z.shape w.shape ca cb ba bb ∧ u = contraction z w ca cb ba bb
  | _, _, _, _ => False

def RealMeans : Op → NDArray ℂ → NDArray ℂ → Prop
  | .real, z, u => u = z.map fun x => (x.re : ℂ)
  | .imag, z, u => u = z.map fun x => (x.im : ℂ)
  | .abs, z, u => u = z.map fun x => (‖x‖ : ℂ)
  | _, _, _ => False

def Means (shape : List Nat) (op : Op) (zs : List (NDArray ℂ)) (u : NDArray ℂ) : Prop :=
  match op, zs with
  | .concatenate axis, zs => cat zs axis = some u
  | .select, [c, z, w] => whereElse (c.map fun x => decide (x ≠ 0)) z w = some u
  | op, [z] => UnaryMeans shape op z u ∨ RealMeans op z u
  | op, [z, w] => BinaryMeans op z w u
  | _, _ => False

section faithful
variable {op : Op} {shape : List Nat} {t s : NDArray ℝ} {z w u : NDArray ℂ} {v v' : Value ℝ}

theorem unary_holds (held : Holds t z) (means : UnaryMeans shape op z u) (declared : u.shape = shape) :
    ∃ r, unary exact shape op t = some r ∧ Holds r u := by
  cases op with
  | negate =>
    cases means
    exact ⟨_, rfl, map_holds part_neg held⟩
  | conjugate =>
    cases means
    exact conjugate_holds held
  | exp =>
    cases means
    exact exp_holds held
  | asType =>
    cases means
    exact ⟨t, rfl, held⟩
  | reshape => exact reshape_holds held means
  | squeeze => exact reshape_holds held means
  | transpose axes =>
    subst declared
    exact permute_holds held means
  | reverse axes => exact flip_holds held means
  | broadcast out axes =>
    obtain ⟨fits, rfl⟩ := means
    exact broadcast_holds held fits
  | slice starts lengths strides =>
    obtain ⟨cuts, fits, rfl, rfl, rfl, made⟩ := means
    exact slice_holds held fits made
  | sum axes keep => exact sum_holds held means
  | _ => exact means.elim

def FewLetters (op : Op) (z w : NDArray ℂ) : Prop :=
  ∀ ca cb ba bb, op = .dot ca cb ba bb → letterCount z.shape w.shape ca cb ba bb ≤ 52

theorem binary_holds (held : Holds t z) (held' : Holds s w) (means : BinaryMeans op z w u)
    (few : FewLetters op z w) : ∃ r, binary op t s = some r ∧ Holds r u := by
  cases op with
  | add => exact pointwise_holds part_add held held' means
  | subtract => exact pointwise_holds part_sub held held' means
  | multiply => exact multiply_holds held held' means
  | divide => exact divide_holds held held' means
  | dot ca cb ba bb =>
    obtain ⟨paired, rfl⟩ := means
    exact dot_holds held held' paired (few _ _ _ _ rfl)
  | _ => exact means.elim

theorem unary_faithful (read : Reads v z) (means : UnaryMeans shape op z u)
    (declared : u.shape = shape) :
    ∃ r, applyComplex exact op shape [v] = some (.cx r) ∧ Holds r u := by
  obtain ⟨t, promoted, held⟩ := promote_ok read
  obtain ⟨r, made, holds⟩ := unary_holds held means declared
  refine ⟨r, ?_, holds⟩
  have run : ((promote v).bind (unary exact shape op)).map Value.cx = some (.cx r) := by
    rw [promoted, Option.bind_some, made]
    rfl
  cases op <;> first | exact means.elim | exact run

theorem binary_faithful (read : Reads v z) (read' : Reads v' w) (means : BinaryMeans op z w u)
    (few : FewLetters op z w) :
    ∃ r, applyComplex exact op shape [v, v'] = some (.cx r) ∧ Holds r u := by
  obtain ⟨t, promoted, held⟩ := promote_ok read
  obtain ⟨s, promoted', held'⟩ := promote_ok read'
  obtain ⟨r, made, holds⟩ := binary_holds held held' means few
  refine ⟨r, ?_, holds⟩
  have run : ((promote v).bind fun a => (promote v').bind fun b => binary op a b).map Value.cx =
      some (.cx r) := by
    rw [promoted, promoted', Option.bind_some, Option.bind_some, made]
    rfl
  cases op <;> first | exact means.elim | exact run

theorem real_faithful (read : Reads v z) (means : RealMeans op z u) :
    ∃ x, applyComplex exact op shape [v] = some (.real x) ∧ u = x.map Complex.ofReal := by
  obtain ⟨t, promoted, held⟩ := promote_ok read
  cases op with
  | real =>
    refine ⟨z.map Complex.re, ?_, means.trans (map_map z Complex.re Complex.ofReal).symm⟩
    rw [applyComplex, promoted, Option.bind_some, re_ok held]
    rfl
  | imag =>
    refine ⟨z.map Complex.im, ?_, means.trans (map_map z Complex.im Complex.ofReal).symm⟩
    rw [applyComplex, promoted, Option.bind_some, im_ok held]
    rfl
  | abs =>
    refine ⟨z.map fun x => ‖x‖, ?_, means.trans (map_map z _ Complex.ofReal).symm⟩
    rw [applyComplex, promoted, Option.bind_some, abs_ok held]
    rfl
  | _ => exact means.elim

theorem promoted_all {vs : List (Value ℝ)} {zs : List (NDArray ℂ)} (read : List.Forall₂ Reads vs zs) :
    ∃ ts, vs.mapM promote = some ts ∧ List.Forall₂ Holds ts zs := by
  induction read with
  | nil => exact ⟨[], rfl, .nil⟩
  | cons here _ ih =>
    obtain ⟨t, promoted, held⟩ := promote_ok here
    obtain ⟨ts, rest, all⟩ := ih
    refine ⟨t :: ts, ?_, .cons held all⟩
    rw [List.mapM_cons, promoted, rest]
    rfl

end faithful

def Op.isReal : Op → Bool
  | .real | .imag | .abs => true
  | _ => false

/-- A pair of the declared shape and an axis of size 2; a real tensor for the operations that give one. -/
def ResultOf (op : Op) (shape : List Nat) : Value ℝ → Prop
  | .cx t => op.isReal = false ∧ t.shape = shape ++ [2]
  | .real x => op.isReal = true ∧ x.shape = shape

theorem means_cases {op : Op} {shape : List Nat} {zs : List (NDArray ℂ)} {u : NDArray ℂ}
    (means : Means shape op zs u) : (∃ axis, op = .concatenate axis ∧ cat zs axis = some u) ∨
      (∃ c z w, op = .select ∧ zs = [c, z, w] ∧
      whereElse (c.map fun x => decide (x ≠ 0)) z w = some u) ∨
      (∃ z, zs = [z] ∧ (UnaryMeans shape op z u ∨ RealMeans op z u)) ∨
      ∃ z w, zs = [z, w] ∧ BinaryMeans op z w u := by
  unfold Means at means
  split at means
  · exact .inl ⟨_, rfl, means⟩
  · exact .inr (.inl ⟨_, _, _, rfl, rfl, means⟩)
  · exact .inr (.inr (.inl ⟨_, rfl, means⟩))
  · exact .inr (.inr (.inr ⟨_, _, rfl, means⟩))
  · exact means.elim

/-- The condition of a selection is real, and the letters of a contraction suffice. -/
structure Supported (op : Op) (vs : List (Value ℝ)) : Prop where
  real : op = .select → ∃ c rest, vs = .real c :: rest
  few : ∀ v w, vs = [v, w] → FewLetters op (decodeValue v) (decodeValue w)

theorem pairs_faithful (op : Op) (shape : List Nat) (vs : List (Value ℝ)) (u : NDArray ℂ)
    (shaped : ∀ v ∈ vs, ∃ S, OfShape S v) (supported : Supported op vs)
    (means : Means shape op (vs.map decodeValue) u) (declared : u.shape = shape) :
    ∃ r, applyComplex exact op shape vs = some r ∧ ResultOf op shape r ∧ decodeValue r = u := by
  have pair {r : NDArray ℝ} (complex : op.isReal = false)
      (run : applyComplex exact op shape vs = some (.cx r))
      (holds : Holds r u) : ∃ r, applyComplex exact op shape vs = some r ∧ ResultOf op shape r ∧
        decodeValue r = u := by
    obtain ⟨dims, decoded⟩ := holds_iff.mp holds
    exact ⟨.cx r, run, ⟨complex, by rw [dims, declared]⟩, decoded⟩
  have read : List.Forall₂ Reads vs (vs.map decodeValue) := by
    refine List.forall₂_map_right_iff.mpr (List.forall₂_same.mpr fun v mem => ?_)
    obtain ⟨S, given⟩ := shaped v mem
    exact reads_of given
  rcases means_cases means with ⟨axis, rfl, made⟩ | ⟨c, z, w, rfl, split, made⟩ | ⟨z, split, one⟩ |
    ⟨z, w, split, two⟩
  · obtain ⟨ts, promoted, held⟩ := promoted_all read
    obtain ⟨r, joined, holds⟩ := cat_holds held made
    refine pair rfl ?_ holds
    rw [applyComplex, promoted, Option.bind_some, joined]
    rfl
  · obtain ⟨x, rest, rfl⟩ := supported.real rfl
    rw [split] at read
    cases read with
    | cons first others =>
      cases others with
      | @cons v _ _ _ second others =>
        cases others with
        | @cons v' _ _ _ third others =>
          cases others
          have same : c = x.map Complex.ofReal := first
          have cond : c.map (fun x => decide (x ≠ 0)) = x.map fun x => decide (x ≠ 0) := by
            rw [same, map_map]
            simp only [ne_eq, Complex.ofReal_eq_zero]
          rw [cond] at made
          obtain ⟨r, chosen, holds⟩ := select_holds second third made
          refine pair rfl ?_ holds
          rw [applyComplex, chosen]
          rfl
  · rw [split] at read
    cases read with
    | @cons v _ _ _ first others =>
      cases others
      rcases one with one | one
      · obtain ⟨r, run, holds⟩ := unary_faithful first one declared
        refine pair ?_ run holds
        cases op <;> first | exact one.elim | rfl
      · obtain ⟨x, run, same⟩ := real_faithful first one
        have kept : x.shape = u.shape := by rw [same]; rfl
        refine ⟨.real x, run, ⟨?_, kept.trans declared⟩, same.symm⟩
        cases op <;> first | exact one.elim | rfl
  · rw [split] at read
    cases read with
    | @cons v _ _ _ first others =>
      cases others with
      | @cons v' _ _ _ second others =>
        cases others
        have few : FewLetters op z w := by
          have here := supported.few v v' rfl
          rw [List.map_cons, List.map_cons, List.map_nil] at split
          cases split
          exact here
        obtain ⟨r, run, holds⟩ := binary_faithful first second two few
        refine pair ?_ run holds
        cases op <;> first | exact two.elim | rfl

theorem dot_few {t s r : NDArray ℝ} {z w : NDArray ℂ} {ca cb ba bb : List Nat} (held : Holds t z)
    (held' : Holds s w) (p : Paired z.shape w.shape ca cb ba bb) (made : dot t s ca cb ba bb = some r) :
    letterCount z.shape w.shape ca cb ba bb ≤ 52 := by
  unfold dot at made
  rw [bind_step (re_ok held), bind_step (im_ok held), bind_step (re_ok held'),
    bind_step (im_ok held')] at made
  obtain ⟨x, product, _⟩ := Option.bind_eq_some_iff.mp made
  obtain ⟨⟨subA, subB, out⟩, found, _⟩ := Option.bind_eq_some_iff.mp product
  exact subscripts_few p found

theorem supported_of_some {op : Op} {shape : List Nat} {vs : List (Value ℝ)} {u : NDArray ℂ}
    {r : Value ℝ} (shaped : ∀ v ∈ vs, ∃ S, OfShape S v) (means : Means shape op (vs.map decodeValue) u)
    (made : applyComplex exact op shape vs = some r) : Supported op vs := by
  constructor
  · rintro rfl
    obtain ⟨c, z, w, _, split, _⟩ : ∃ c z w, Op.select = .select ∧ vs.map decodeValue = [c, z, w] ∧
        whereElse (c.map fun x => decide (x ≠ 0)) z w = some u := by
      rcases means_cases means with ⟨_, other, _⟩ | choice | ⟨_, _, other | other⟩ | ⟨_, _, _, other⟩
      · cases other
      · exact choice
      · exact other.elim
      · exact other.elim
      · exact other.elim
    cases vs with
    | nil => cases split
    | cons v vs =>
      cases v with
      | real x => exact ⟨x, vs, rfl⟩
      | cx t =>
        -- `Cx` has no `cast`
        cases vs with
        | nil => cases split
        | cons v vs =>
          cases vs with
          | nil => cases split
          | cons w vs => cases made
  · rintro v w rfl ca cb ba bb rfl
    obtain ⟨paired, _⟩ : BinaryMeans (.dot ca cb ba bb) (decodeValue v) (decodeValue w) u := means
    obtain ⟨S, given⟩ := shaped v (by simp)
    obtain ⟨S', given'⟩ := shaped w (by simp)
    obtain ⟨t, promoted, held⟩ := promote_ok (reads_of given)
    obtain ⟨s, promoted', held'⟩ := promote_ok (reads_of given')
    obtain ⟨x, run, _⟩ := Option.map_eq_some_iff.mp made
    rw [promoted, promoted', Option.bind_some, Option.bind_some] at run
    exact dot_few held held' paired run

/-- The operation on the pairs is the complex operation on what they hold exactly if it is supported:
    there is no complex condition, and no letter after the 52nd. -/
theorem pairs_faithful_iff (op : Op) (shape : List Nat) (vs : List (Value ℝ)) (u : NDArray ℂ)
    (shaped : ∀ v ∈ vs, ∃ S, OfShape S v) (means : Means shape op (vs.map decodeValue) u)
    (declared : u.shape = shape) :
    (∃ r, applyComplex exact op shape vs = some r ∧ ResultOf op shape r ∧ decodeValue r = u) ↔
      Supported op vs := by
  constructor
  · rintro ⟨r, made, _⟩
    exact supported_of_some shaped means made
  · intro supported
    exact pairs_faithful op shape vs u shaped supported means declared

theorem doubled_faithful : ∃ r u, applyComplex exact .multiply [1]
    [.real ⟨[], [2], rfl⟩, .cx ⟨[1, 2], [1, 3], rfl⟩] = some r ∧
    pointwise (· * ·) (decodeValue (.real ⟨[], [2], rfl⟩))
    (decodeValue (.cx ⟨[1, 2], [1, 3], rfl⟩)) = some u ∧ decodeValue r = u := by
  obtain ⟨u, made⟩ := @pointwise_common _ _ _ [1] (decodeValue (.real ⟨[], [2], rfl⟩))
    (decodeValue (.cx ⟨[1, 2], [1, 3], rfl⟩)) (· * ·) rfl
  have declared : u.shape = [1] := Option.some_inj.mp (pointwise_some made).1.symm
  have shaped : ∀ v ∈ [Value.real ⟨[], [2], rfl⟩, .cx ⟨[1, 2], [1, 3], rfl⟩], ∃ S, OfShape S v := by
    intro v mem
    rcases List.mem_cons.mp mem with rfl | mem
    · exact ⟨[], rfl⟩
    · obtain rfl := List.mem_singleton.mp mem
      exact ⟨[1], rfl⟩
  have supported : Supported .multiply [Value.real ⟨[], [2], rfl⟩, .cx ⟨[1, 2], [1, 3], rfl⟩] := by
    constructor
    · intro other
      cases other
    · intro v w _ ca cb ba bb other
      cases other
  obtain ⟨r, run, -, decoded⟩ :=
    (pairs_faithful_iff .multiply [1] _ u shaped made declared).mpr supported
  exact ⟨r, u, run, made, decoded⟩

def pair : NDArray ℝ := ⟨[2], [1, 1], rfl⟩

def longPair : NDArray ℝ := ⟨List.replicate 53 1 ++ [2], [1, 1], by simp⟩

theorem longPair_holds : Holds longPair (decode longPair) := by
  have dims : (decode longPair).shape = List.replicate 53 1 := List.dropLast_concat
  exact holds_iff.mpr ⟨by rw [dims]; rfl, rfl⟩

theorem pair_holds : Holds pair (decode pair) := holds_iff.mpr ⟨rfl, rfl⟩

/-- A contraction that needs a 53rd letter, and a selection by a complex condition. -/
theorem pairs_limits : (Paired (decode longPair).shape (decode pair).shape [] [] [] [] ∧
      applyComplex exact (.dot [] [] [] []) (List.replicate 53 1) [.cx longPair, .cx pair] = none) ∧
    (∃ u, Means [] .select [decode pair, decode pair, decode pair] u) ∧
      applyComplex exact .select [] [.cx pair, .cx pair, .cx pair] = none := by
  have dims : (decode longPair).shape = List.replicate 53 1 := List.dropLast_concat
  refine ⟨⟨⟨.nil, .nil, by simp, by simp, rfl, rfl, rfl, rfl⟩, ?_⟩, ?_, rfl⟩
  · have raises (x y : NDArray ℝ) (long : x.shape = List.replicate 53 1) (short : y.shape = []) :
        einsumDot x y [] [] [] [] = none := by
      have letters : subscripts 53 0 [] [] [] [] = none := by decide +kernel
      rw [einsumDot, long, short, List.length_replicate, List.length_nil, letters]
      rfl
    have stuck : dot longPair pair [] [] [] [] = none := by
      unfold dot
      rw [bind_step (re_ok longPair_holds), bind_step (im_ok longPair_holds),
        bind_step (re_ok pair_holds), bind_step (im_ok pair_holds), raises _ _ dims rfl]
      rfl
    change (dot longPair pair [] [] [] []).map Value.cx = none
    rw [stuck]
    rfl
  · obtain ⟨p, both⟩ := @pointwise_common _ _ _ [] (decode pair) (decode pair) Prod.mk rfl
    have scalar : p.shape = [] := Option.some_inj.mp (pointwise_some both).1.symm
    have fits : common ((decode pair).map fun x => decide (x ≠ 0)).shape p.shape = some [] := by
      rw [scalar]
      rfl
    obtain ⟨u, made⟩ := pointwise_common (fun (c : Bool) (p : ℂ × ℂ) => if c then p.1 else p.2) fits
    refine ⟨u, ?_⟩
    change whereElse ((decode pair).map fun x => decide (x ≠ 0)) (decode pair) (decode pair) = some u
    unfold whereElse
    rw [bind_step both, made]

/-- `fft` and `ifft` of length `n` along an axis, and one after the other. -/
def Honours (shape : List Nat) (axis n : Nat) (v : Value ℝ) : Prop :=
  (∀ inverse, ∃ r, applyComplex exact (.fft inverse n axis) (shape.set axis n) [v] = some (.cx r) ∧
    r.shape = shape.set axis n ++ [2] ∧ decode r = transform inverse n axis (decodeValue v)) ∧
  (n = shape.getD axis 0 → ∃ r r', applyComplex exact (.fft false n axis) shape [v] = some (.cx r) ∧
    applyComplex exact (.fft true n axis) shape [.cx r] = some (.cx r') ∧ decode r' = decodeValue v)

theorem fft_run {n axis : Nat} {inverse : Bool} {shape : List Nat} {v : Value ℝ} {t : NDArray ℝ}
    (promoted : promote v = some t) :
    applyComplex exact (.fft inverse n axis) shape [v] = (dft exact t n axis inverse).map .cx := by
  change ((promote v).bind (unary exact shape (.fft inverse n axis))).map Value.cx = _
  rw [promoted, Option.bind_some, unary]

/-- Exactly where the length is the size of the axis. -/
theorem fft_honours_iff (shape : List Nat) (axis n : Nat) (v : Value ℝ) (shaped : OfShape shape v)
    (low : axis < shape.length) : Honours shape axis n v ↔ n = shape.getD axis 0 := by
  have read := reads_of shaped
  have dims : (decodeValue v).shape = shape := by
    cases v with
    | cx t =>
      have whole : t.shape = shape ++ [2] := shaped
      change t.shape.dropLast = shape
      rw [whole, List.dropLast_concat]
    | real x => exact shaped
  obtain ⟨t, promoted, held⟩ := promote_ok read
  have low' : axis < (decodeValue v).shape.length := dims.symm ▸ low
  constructor
  · rintro ⟨transforms, -⟩
    by_contra other
    obtain ⟨r, run, -, -⟩ := transforms false
    have wrong : (decodeValue v).shape.getD axis 0 ≠ n := by
      rw [dims]
      exact Ne.symm other
    rw [fft_run promoted, dft_raises held low' wrong] at run
    cases run
  · intro size
    have size' : (decodeValue v).shape.getD axis 0 = n := by rw [dims, size]
    have each (inverse : Bool) := @dft_ok inverse n axis (decodeValue v) t held low' size'
    refine ⟨fun inverse => ?_, fun _ => ?_⟩
    · obtain ⟨r, made, holds⟩ := each inverse
      obtain ⟨whole, decoded⟩ := holds_iff.mp holds
      refine ⟨r, by rw [fft_run promoted, made]; rfl, whole.trans ?_, decoded⟩
      change (decodeValue v).shape.set axis n ++ [2] = _
      rw [dims]
    · obtain ⟨r, made, holds⟩ := each false
      have kept : (transform false n axis (decodeValue v)).shape = (decodeValue v).shape := by
        change (decodeValue v).shape.set axis n = _
        rw [← size', List.getD_eq_getElem?_getD, List.getElem?_eq_getElem low']
        exact List.set_getElem_self low'
      obtain ⟨r', made', holds'⟩ := @dft_ok true n axis _ r holds (kept.symm ▸ low') (kept.symm ▸ size')
      have back := (holds_iff.mp holds').2
      rw [transform_back low' size'] at back
      refine ⟨r, r', by rw [fft_run promoted, made]; rfl, ?_, back⟩
      have again : promote (.cx r : Value ℝ) = some r := rfl
      rw [fft_run again, made']
      rfl

def three : Value ℝ := .real ⟨[3], [1, 0, 1], rfl⟩

theorem three_honoured : Honours [3] 0 3 three :=
  (fft_honours_iff [3] 0 3 three rfl (by decide)).mpr rfl

/-- A length beyond the axis is not padded to. -/
theorem long_fft_raises : applyComplex exact (.fft false 4 0) [4] [three] = none ∧
    ¬ Honours [3] 0 4 three := by
  have raises : applyComplex exact (.fft false 4 0) [4] [three] = none := by
    have shaped : OfShape [3] three := rfl
    obtain ⟨t, promoted, held⟩ := promote_ok (reads_of shaped)
    have other : (decodeValue three).shape.getD 0 0 ≠ 4 := by decide
    rw [fft_run promoted, dft_raises held (by decide) other]
    rfl
  refine ⟨raises, fun honours => ?_⟩
  obtain ⟨r, run, -, -⟩ := honours.1 false
  have run : applyComplex exact (.fft false 4 0) [4] [three] = some (.cx r) := run
  rw [raises] at run
  cases run

end NxTinygrad.ComplexOps
