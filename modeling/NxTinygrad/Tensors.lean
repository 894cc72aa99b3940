import NxTinygrad.Interpreter

/- Tensors as a shape and an element under each index list, with the views of tinygrad that
   `_slice` is made of, and `_slice` and `_put_slice` themselves. -/
namespace NxTinygrad.Tensors
open IR Interpreter

structure Tensor (α : Type) where
  shape : List Nat
  get : List Nat → α

/-- One axis of a view: the entries `start`, `start + step`, ..., `count` of them. -/
structure Axis where
  start : Nat
  step : Nat
  count : Nat
  deriving DecidableEq, Repr

def Axis.at (a : Axis) (i : Nat) : Nat := a.start + a.step * i

variable {α : Type}

def Tensor.view (t : Tensor α) (axes : List Axis) : Tensor α :=
  ⟨axes.map (·.count), fun idx => t.get (List.zipWith Axis.at axes idx)⟩

structure Slice where
  start : Option Int
  stop : Option Int
  step : Nat
  deriving DecidableEq, Repr

def endOf (dim default : Nat) : Option Int → Nat
  | none => default
  | some i => if i < 0 then (i + dim).toNat else min i.toNat dim

def Slice.axis (s : Slice) (dim : Nat) : Option Axis :=
  if s.step = 0 then none
  else
    let start := endOf dim 0 s.start
    let stop := endOf dim dim s.stop
    some ⟨start, s.step, (stop - start + s.step - 1) / s.step⟩

def sliceAxes : List Nat → List Slice → Option (List Axis)
  | dims, [] => some (dims.map fun dim => ⟨0, 1, dim⟩)
  | [], _ :: _ => none
  | dim :: dims, s :: rest => do
      let axis ← s.axis dim
      let axes ← sliceAxes dims rest
      some (axis :: axes)

def Tensor.getitem (t : Tensor α) (slices : List Slice) : Option (Tensor α) :=
  (sliceAxes t.shape slices).map t.view

def shrinkAxes : List Nat → List (Int × Int) → Option (List Axis)
  | [], [] => some []
  | dim :: dims, (first, last) :: rest =>
      if 0 ≤ first ∧ first ≤ last ∧ last ≤ dim then do
        let axes ← shrinkAxes dims rest
        some (⟨first.toNat, 1, (last - first).toNat⟩ :: axes)
      else none
  | _, _ => none

def Tensor.shrink (t : Tensor α) (bounds : List (Int × Int)) : Option (Tensor α) :=
  (shrinkAxes t.shape bounds).map t.view

def clamp (raw hi : Int) : Int := max 0 (min raw hi)

/-- The loop over `starts` of `_slice`, from axis `axis` on. -/
def sliceOffsets (dims lengths : List Nat) : Nat → List Start → Option (List Int)
  | _, [] => some []
  | axis, start :: rest => do
      let offset ← match start with
        | .static n => some n
        | .bound n => some (n : Int)
        | .read raw => do
            let dim ← dims[axis]?
            let length ← lengths[axis]?
            some (clamp raw ((dim : Int) - length))
      let offsets ← sliceOffsets dims lengths (axis + 1) rest
      some (offset :: offsets)

def isBound : Start → Bool
  | .bound _ => true
  | _ => false

def windows (offsets : List Int) (lengths : List Nat) : List (Int × Int) :=
  List.zipWith (fun (s : Int) (l : Nat) => (s, s + l)) offsets lengths

def strided (strides : List Nat) : List Slice := strides.map fun st => ⟨none, none, st⟩

def sliceOp (t : Tensor α) (starts : List Start) (lengths strides : List Nat) :
    Option (Tensor α) := do
  let offsets ← sliceOffsets t.shape lengths 0 starts
  if starts.any isBound then
    let out ← t.shrink (windows offsets lengths)
    if strides.any (· != 1) then out.getitem (strided strides) else some out
  else
    t.getitem (List.zipWith (fun w st => ⟨some w.1, some w.2, st⟩) (windows offsets lengths) strides)

def putOffsets (dims spans : List Nat) : Nat → List Start → Option (List (Int × Int))
  | _, [] => some []
  | axis, start :: rest => do
      let dim ← dims[axis]?
      let span ← spans[axis]?
      let room : Int := (dim : Int) - span
      let first := match start with
        | .bound n => (n : Int)
        | .static n => clamp n room
        | .read raw => clamp raw room
      let config ← putOffsets dims spans (axis + 1) rest
      some ((first, room - first) :: config)

structure Prims (α : Type) where
  number : Json → List Nat → Dtype → Option (Tensor α)
  literal : Blob → List Nat → Dtype → Option (Tensor α)
  prim : PrimOp → List (String × Json) → List (Tensor α) → List Nat → Dtype → Option (Tensor α)
  cast : Tensor α → Dtype → Option (Tensor α)
  pad : Tensor α → List (Int × Int) → Option (Tensor α)
  ones : Tensor α → Tensor α
  whereNonzero : Tensor α → Tensor α → Tensor α → Option (Tensor α)
  item : Tensor α → Option Int
  truthy : Tensor α → Option Bool
  foldAcc : FoldOp → Tensor α → Tensor α → Option (Tensor α)
  foldParts : FoldOp → Tensor α → Option (List (Tensor α))
  foldFinish : FoldOp → Tensor α → Tensor α → Option (Tensor α)

def putSliceOp (P : Prims α) (target sl : Tensor α) (starts : List Start) : Option (Tensor α) := do
  let config ← putOffsets target.shape sl.shape 0 starts
  let padded ← P.pad sl config
  let mask ← P.pad (P.ones sl) config
  P.whereNonzero mask padded target

def Prims.sem (P : Prims α) : Sem (Tensor α) where
  number := P.number
  literal := P.literal
  prim := P.prim
  slice t starts lengths strides _ dtype :=
    (sliceOp t starts lengths strides).bind fun out => P.cast out dtype
  putSlice target sl starts _ dtype :=
    (putSliceOp P target sl starts).bind fun out => P.cast out dtype
  isTensor _ := true
  item := P.item
  truthy := P.truthy
  foldAcc := P.foldAcc
  foldParts := P.foldParts
  foldFinish := P.foldFinish

theorem view_view (t : Tensor α) (outer inner : List Axis) :
    (t.view outer).view inner = ⟨inner.map (·.count),
      fun idx => t.get (List.zipWith Axis.at outer (List.zipWith Axis.at inner idx))⟩ := rfl

theorem window_at (first length step i : Nat) :
    Axis.at ⟨first, 1, length⟩ (Axis.at ⟨0, step, (length + step - 1) / step⟩ i) =
      Axis.at ⟨first, step, (length + step - 1) / step⟩ i := by
  simp only [Axis.at]
  omega

theorem endOf_inside {dim : Nat} {i : Int} (low : 0 ≤ i) (high : i ≤ dim) (default : Nat) :
    endOf dim default (some i) = i.toNat := by
  simp only [endOf]
  split <;> omega

/-- Windows that fit: one for each axis, inside it. -/
inductive Fit : List Nat → List Int → List Nat → List Nat → Prop where
  | nil : Fit [] [] [] []
  | cons {dim length step : Nat} {first : Int} {dims lengths strides : List Nat} {offsets : List Int} :
      0 ≤ first → first + length ≤ dim → step ≠ 0 → Fit dims offsets lengths strides →
      Fit (dim :: dims) (first :: offsets) (length :: lengths) (step :: strides)

def windowAxes : List Int → List Nat → List Nat → List Axis
  | first :: offsets, length :: lengths, step :: strides =>
      ⟨first.toNat, step, (length + step - 1) / step⟩ :: windowAxes offsets lengths strides
  | _, _, _ => []

theorem sliceAxes_fit {dims lengths strides : List Nat} {offsets : List Int}
    (fit : Fit dims offsets lengths strides) :
    sliceAxes dims (List.zipWith (fun w st => ⟨some w.1, some w.2, st⟩) (windows offsets lengths)
      strides) = some (windowAxes offsets lengths strides) := by
  induction fit with
  | nil => rfl
  | @cons dim length step first dims lengths strides offsets low high positive _ ih =>
    have start := endOf_inside low (by omega : first ≤ dim) 0
    have stop := endOf_inside (by omega : 0 ≤ first + length) high dim
    have span : (first + (length : Int)).toNat - first.toNat = length := by omega
    simp only [windows, List.zipWith_cons_cons, sliceAxes, Slice.axis, positive, if_false, start, stop,
      span, windowAxes]
    simp only [windows] at ih
    simp only [ih, Option.bind_eq_bind, Option.bind_some]

def shrunkAxes (offsets : List Int) (lengths : List Nat) : List Axis :=
  List.zipWith (fun (s : Int) (l : Nat) => ⟨s.toNat, 1, l⟩) offsets lengths

theorem shrinkAxes_fit {dims lengths strides : List Nat} {offsets : List Int}
    (fit : Fit dims offsets lengths strides) :
    shrinkAxes dims (windows offsets lengths) = some (shrunkAxes offsets lengths) := by
  induction fit with
  | nil => rfl
  | @cons dim length step first dims lengths strides offsets low high positive _ ih =>
    have inside : 0 ≤ first ∧ first ≤ first + length ∧ first + (length : Int) ≤ dim := by omega
    have span : (first + (length : Int) - first).toNat = length := by omega
    simp only [windows] at ih
    simp only [windows, shrunkAxes, List.zipWith_cons_cons, shrinkAxes, inside, and_self, if_true, span,
      ih, Option.bind_eq_bind, Option.bind_some]

theorem shrunk_shape {dims lengths strides : List Nat} {offsets : List Int}
    (fit : Fit dims offsets lengths strides) :
      (shrunkAxes offsets lengths).map (·.count) = lengths := by
  induction fit with
  | nil => rfl
  | cons _ _ _ _ ih =>
    simp only [shrunkAxes] at ih
    simp only [shrunkAxes, List.zipWith_cons_cons, List.map_cons, ih]

def strideAxes : List Nat → List Nat → List Axis :=
  List.zipWith fun length step => ⟨0, step, (length + step - 1) / step⟩

theorem strided_fit {dims lengths strides : List Nat} {offsets : List Int}
    (fit : Fit dims offsets lengths strides) :
    sliceAxes lengths (strided strides) = some (strideAxes lengths strides) := by
  induction fit with
  | nil => rfl
  | cons _ _ positive _ ih =>
    simp only [strided] at ih
    simp only [strided, List.map_cons, sliceAxes, Slice.axis, positive, if_false, endOf,
      Nat.sub_zero, ih, strideAxes, List.zipWith_cons_cons, Option.bind_eq_bind, Option.bind_some]

theorem compose_axes {dims lengths strides : List Nat} {offsets : List Int}
    (fit : Fit dims offsets lengths strides) (idx : List Nat) :
    List.zipWith Axis.at (shrunkAxes offsets lengths)
        (List.zipWith Axis.at (strideAxes lengths strides) idx) =
      List.zipWith Axis.at (windowAxes offsets lengths strides) idx := by
  induction fit generalizing idx with
  | nil => rfl
  | cons _ _ _ _ ih =>
    cases idx with
    | nil => rfl
    | cons i rest =>
      simp only [shrunkAxes, strideAxes, windowAxes] at ih ⊢
      simp only [List.zipWith_cons_cons, window_at, ih rest]

theorem strided_counts {dims lengths strides : List Nat} {offsets : List Int}
    (fit : Fit dims offsets lengths strides) :
    (strideAxes lengths strides).map (·.count) =
    (windowAxes offsets lengths strides).map (·.count) := by
  induction fit with
  | nil => rfl
  | cons _ _ _ _ ih =>
    simp only [strideAxes] at ih
    simp only [strideAxes, windowAxes, List.zipWith_cons_cons, List.map_cons, ih]

theorem unit_strides {dims lengths strides : List Nat} {offsets : List Int}
    (fit : Fit dims offsets lengths strides) (units : strides.any (· != 1) = false) :
    windowAxes offsets lengths strides = shrunkAxes offsets lengths := by
  induction fit with
  | nil => rfl
  | cons _ _ _ _ ih =>
    simp only [List.any_cons, Bool.or_eq_false_iff, bne_eq_false_iff_eq] at units
    obtain ⟨rfl, rest⟩ := units
    simp only [windowAxes, ih rest, shrunkAxes, List.zipWith_cons_cons, Nat.add_sub_cancel, Nat.div_one]

theorem shrink_strided (t : Tensor α) {lengths strides : List Nat} {offsets : List Int}
    (fit : Fit t.shape offsets lengths strides) :
    ((t.shrink (windows offsets lengths)).bind fun out =>
      if strides.any (· != 1) then out.getitem (strided strides) else some out) =
      t.getitem (List.zipWith (fun w st => ⟨some w.1, some w.2, st⟩)
      (windows offsets lengths) strides) := by
  have sliced : t.getitem (List.zipWith (fun w st => ⟨some w.1, some w.2, st⟩)
      (windows offsets lengths) strides) = some (t.view (windowAxes offsets lengths strides)) := by
    simp only [Tensor.getitem, sliceAxes_fit fit, Option.map_some]
  have shrunk : t.shrink (windows offsets lengths) = some (t.view (shrunkAxes offsets lengths)) := by
    simp only [Tensor.shrink, shrinkAxes_fit fit, Option.map_some]
  rw [sliced, shrunk, Option.bind_some]
  cases units : strides.any (· != 1) with
  | false => simp only [Bool.false_eq_true, if_false, unit_strides fit units]
  | true =>
    have shape : (t.view (shrunkAxes offsets lengths)).shape = lengths := shrunk_shape fit
    simp only [if_true, Tensor.getitem, shape, strided_fit fit, Option.map_some, view_view,
      strided_counts fit, compose_axes fit]
    rfl

end NxTinygrad.Tensors
