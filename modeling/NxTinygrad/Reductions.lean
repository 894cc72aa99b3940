import NxTinygrad.Interpreter
import NxTinygrad.Lib.AxisSplit
import NxTinygrad.Lib.AxisOrder
import Mathlib.Data.List.Sort

/- `_run_reduce` and `_run_window_reduce`: a fold with a traced function that is evaluated once a
   step, on all kept positions together. -/
namespace NxTinygrad.Reductions
open IR Interpreter NDArray

/-- A tinygrad tensor, or the wrapper `Cx`, which has no shape. -/
inductive Value (α : Type) where
  | real (t : NDArray α)
  | cx (t : NDArray α)

variable {α : Type}

def Value.real? : Value α → Option (NDArray α)
  | .real t => some t
  | .cx _ => none

def nonAxes (axes : List Nat) (rank : Nat) : List Nat := (List.range rank).filter fun a => a ∉ axes

def spread (acc : NDArray α) (batch : List Nat) : Option (NDArray α) :=
  (acc.reshape (batch.map fun _ => 1)).bind (·.expand batch)

def slices (flat : NDArray α) (count : Nat) : Option (List (Value α)) :=
  (List.range count).mapM fun i => (flat.takeLast i).map .real

def reduceAcc (axes : List Nat) (t : NDArray α) (acc : Value α) : Option (Value α) :=
  let batch := (nonAxes axes t.shape.length).filterMap (t.shape[·]?)
  if batch = [] then some acc
  else acc.real?.bind fun acc =>
    if acc.shape = [] then (spread acc batch).map .real else some (.real acc)

def reduceParts (axes : List Nat) (t : NDArray α) : Option (List (Value α)) := do
  let kept := nonAxes axes t.shape.length
  let count := (axes.filterMap (t.shape[·]?)).prod
  let moved ← t.permute (kept ++ axes)
  let flat ← moved.reshape (kept.filterMap (t.shape[·]?) ++ [count])
  slices flat count

def reduceFinish (axes : List Nat) (keep : Bool) (t : NDArray α) (acc : Value α) : Option (Value α) :=
  if keep then acc.real?.bind fun acc =>
    (acc.reshape (t.shape.mapIdx fun a d => if a ∈ axes then 1 else d)).map .real
  else some acc

/-- An axis of `_pool`: how many windows of `w` entries, `dilation` apart, at a distance of
    `stride`. -/
def outDim (d w stride dilation : Nat) : Nat := (d - dilation * (w - 1) - 1) / stride + 1

def Fits : List Nat → List Nat → List Nat → List Nat → Prop
  | [], [], [], [] => True
  | d :: ds, w :: ws, s :: ss, l :: ls => 0 < w ∧ 0 < s ∧ 0 < l ∧ l * (w - 1) < d ∧ Fits ds ws ss ls
  | _, _, _, _ => False

def outDims : List Nat → List Nat → List Nat → List Nat → List Nat
  | d :: ds, w :: ws, s :: ss, l :: ls => outDim d w s l :: outDims ds ws ss ls
  | _, _, _, _ => []

def windowAt : List Nat → List Nat → List Nat → List Nat → List Nat
  | s :: ss, l :: ls, o :: out, i :: win => (o * s + i * l) :: windowAt ss ls out win
  | _, _, _, _ => []

instance decidableFits : (ds ws ss ls : List Nat) → Decidable (Fits ds ws ss ls)
  | [], [], [], [] => .isTrue trivial
  | _ :: ds, _ :: ws, _ :: ss, _ :: ls =>
      have := decidableFits ds ws ss ls
      inferInstanceAs (Decidable (_ ∧ _ ∧ _ ∧ _ ∧ _))
  | [], _ :: _, _, _ | [], [], _ :: _, _ | [], [], [], _ :: _ | _ :: _, [], _, _
  | _ :: _, _ :: _, [], _ | _ :: _, _ :: _, _ :: _, [] => .isFalse id

/-- `t._pool(window, stride, dilation)`: an axis for each window, then the axes of a window. A scalar
    raises. -/
def pool (t : NDArray α) (window strides dilations : List Nat) : Option (NDArray α) :=
  if t.shape ≠ [] ∧ Fits t.shape window strides dilations then
    build (outDims t.shape window strides dilations ++ window) fun idx =>
      t.get? (windowAt strides dilations (idx.take t.shape.length) (idx.drop t.shape.length))
  else none

def windowAcc (window strides dilations : List Nat) (t : NDArray α) (acc : Value α) :
    Option (Value α) := do
  let pooled ← pool t window strides dilations
  let acc ← acc.real?
  if acc.shape = [] then (spread acc (pooled.shape.take t.shape.length)).map .real else some (.real acc)

def windowParts (window strides dilations : List Nat) (t : NDArray α) : Option (List (Value α)) := do
  let pooled ← pool t window strides dilations
  let count := (pooled.shape.drop t.shape.length).prod
  let flat ← pooled.reshape (pooled.shape.take t.shape.length ++ [count])
  slices flat count

def foldAcc : FoldOp → Value α → Value α → Option (Value α)
  | .reduce axes _, t, acc => do
      let axes ← axes.mapM Int.toNat?
      reduceAcc axes (← t.real?) acc
  | .windowReduce window strides padding dilations, t, acc =>
      if padding.any fun p => p.1 != 0 || p.2 != 0 then none
      else t.real?.bind fun t => windowAcc window strides dilations t acc

def foldParts : FoldOp → Value α → Option (List (Value α))
  | .reduce axes _, t => do
      let axes ← axes.mapM Int.toNat?
      reduceParts axes (← t.real?)
  | .windowReduce window strides _ dilations, t => t.real?.bind (windowParts window strides dilations)

def foldFinish : FoldOp → Value α → Value α → Option (Value α)
  | .reduce axes keep, t, acc => do
      let axes ← axes.mapM Int.toNat?
      reduceFinish axes keep (← t.real?) acc
  | .windowReduce _ _ _ _, _, acc => some acc

/-- Arrays for values, with the folds of executable.py. -/
def withFolds (S : Sem (Value α)) : Sem (Value α) :=
  { S with foldAcc := foldAcc, foldParts := foldParts, foldFinish := foldFinish }

/-- The part of a shape or of an index list for the axes that are kept. -/
def onKept (axes l : List Nat) : List Nat := pick (fun a => a ∉ axes) 0 l

/-- The elements of a tensor whose position on the kept axes is `b`, in row-major order. -/
def elements (axes : List Nat) (t : NDArray α) (b : List Nat) : List α :=
  ((indices t.shape).filter fun idx => onKept axes idx = b).filterMap t.get?

/-- The elements of the window at `o`, in row-major order. -/
def windowElements (window strides dilations : List Nat) (t : NDArray α) (o : List Nat) : List α :=
  (indices window).filterMap fun w => t.get? (windowAt strides dilations o w)

/-- Tensors of one shape that hold, position by position, these elements one after the other. -/
structure PartsOf (ps : List (NDArray α)) (batch : List Nat) (elems : List Nat → List α) : Prop where
  shape : ∀ p ∈ ps, p.shape = batch
  get : ∀ b, Inside batch b → ps.map (·.get? b) = (elems b).map some

theorem mapM_map {β γ δ : Type} (f : β → Option γ) (g : γ → δ) (l : List β) :
    l.mapM (fun b => (f b).map g) = (l.mapM f).map (List.map g) := by
  induction l with
  | nil => rfl
  | cons b rest ih =>
    simp only [List.mapM_cons, ih]
    cases f b with
    | none => rfl
    | some c => cases rest.mapM f <;> rfl

theorem filterMap_some {β γ : Type} {f : β → Option γ} {l : List β} (all : ∀ b ∈ l, (f b).isSome) :
    (l.filterMap f).map some = l.map f := by
  induction l with
  | nil => rfl
  | cons b rest ih =>
    obtain ⟨c, made⟩ := Option.isSome_iff_exists.mp (all b (List.mem_cons_self ..))
    simp [made, ih fun x mem => all x (List.mem_cons_of_mem _ mem)]

theorem takeLast_all {flat : NDArray α} {batch : List Nat} {n : Nat} (shape : flat.shape = batch ++ [n])
    {l : List Nat} (low : ∀ i ∈ l, i < n) : ∃ ps, l.mapM flat.takeLast = some ps ∧
      ps.length = l.length ∧ (∀ p ∈ ps, p.shape = batch) ∧
      ∀ b, Inside batch b → ps.map (·.get? b) = l.map fun i => flat.get? (b ++ [i]) := by
  induction l with
  | nil => exact ⟨[], rfl, rfl, by simp, by simp⟩
  | cons i rest ih =>
    obtain ⟨ps, all, count, shapes, gets⟩ := ih fun x mem => low x (List.mem_cons_of_mem i mem)
    obtain ⟨p, taken⟩ := takeLast_ok shape (low i (List.mem_cons_self ..))
    obtain ⟨here, get⟩ := (takeLast_eq shape).mp taken
    refine ⟨p :: ps, by simp [taken, all], by simp [count], ?_, fun b inside => ?_⟩
    · exact List.forall_mem_cons.mpr ⟨here, shapes⟩
    · simp [get b inside, gets b inside]

theorem slices_ok {flat : NDArray α} {batch last : List Nat} {g : List Nat → List Nat → Option α}
    (shape : flat.shape = batch ++ [last.prod])
    (get : ∀ b r, Inside batch b → Inside last r → flat.get? (b ++ [offset last r]) = g b r) :
    ∃ ps : List (NDArray α), slices flat last.prod = some (ps.map .real) ∧ ps.length = last.prod ∧
      PartsOf ps batch fun b => (indices last).filterMap (g b) := by
  obtain ⟨ps, made, count, shapes, gets⟩ := takeLast_all shape (l := List.range last.prod)
    fun i mem => List.mem_range.mp mem
  refine ⟨ps, by rw [slices, mapM_map, made, Option.map_some], count.trans List.length_range, shapes,
    fun b inside => ?_⟩
  have there : ∀ r ∈ indices last, (g b r).isSome := fun r mem => by
    have inside' := mem_indices.mp mem
    rw [← get b r inside inside']
    refine get?_isSome.mpr ?_
    rw [shape]
    exact (inside_append inside.length).mpr ⟨inside, offset_lt inside', trivial⟩
  calc ps.map (·.get? b)
      = (List.range last.prod).map fun i => flat.get? (b ++ [i]) := gets b inside
    _ = (indices last).map fun r => flat.get? (b ++ [offset last r]) := by
        rw [← indices_offset, List.map_map]
        rfl
    _ = (indices last).map (g b) :=
        List.map_congr_left fun r mem => get b r inside (mem_indices.mp mem)
    _ = ((indices last).filterMap (g b)).map some := (filterMap_some there).symm

section reduce
variable {axes : List Nat} {t : NDArray α}

theorem nonAxes_eq (axes : List Nat) (rank : Nat) :
    nonAxes axes rank = axesOf (fun a => a ∉ axes) 0 rank := by
  rw [nonAxes, axesOf, List.range_eq_range']

theorem axes_eq {rank : Nat} (sorted : axes.Pairwise (· < ·)) (low : ∀ a ∈ axes, a < rank) :
    axes = axesOf (fun a => !decide (a ∉ axes)) 0 rank := by
  refine sorted.eq_of_mem_iff (List.Pairwise.filter _ List.pairwise_lt_range') fun a => ?_
  have := low a
  simp [axesOf, List.mem_range'_1]
  tauto

theorem reduceParts_ok (sorted : axes.Pairwise (· < ·)) (low : ∀ a ∈ axes, a < t.shape.length) :
    ∃ ps : List (NDArray α), reduceParts axes t = some (ps.map .real) ∧
      ps.length = (pick (fun a => !decide (a ∉ axes)) 0 t.shape).prod ∧
      PartsOf ps (onKept axes t.shape) (elements axes t) := by
  obtain ⟨moved, permuted, shape, get⟩ := permute_split (fun a => a ∉ axes) t
  have kept : (nonAxes axes t.shape.length).filterMap (t.shape[·]?) =
      pick (fun a => a ∉ axes) 0 t.shape := by
    rw [nonAxes_eq, pick_axes]
    rfl
  have others : axes.filterMap (t.shape[·]?) = pick (fun a => !decide (a ∉ axes)) 0 t.shape := by
    rw [pick_axes]
    exact congrArg (List.filterMap _) (axes_eq sorted low)
  obtain ⟨flat, flattened⟩ : ∃ flat, moved.reshape (pick (fun a => a ∉ axes) 0 t.shape ++
      [(pick (fun a => !decide (a ∉ axes)) 0 t.shape).prod]) = some flat :=
    ⟨_, dif_pos (by simp [shape])⟩
  obtain ⟨ps, cut, count, parts⟩ :=
    slices_ok (g := fun b r => t.get? (weave (fun a => a ∉ axes) 0 t.shape.length b r))
    (reshape_shape flattened) fun b r first rest =>
      (get?_flatten shape flattened first rest).trans (get b r first rest)
  refine ⟨ps, ?_, count, parts.shape, fun b inside => ?_⟩
  · rw [← nonAxes_eq, ← axes_eq sorted low] at permuted
    simp only [reduceParts, permuted, kept, others, Option.bind_eq_bind, Option.bind_some,
      flattened, cut]
  · unfold elements onKept
    rw [parts.get b inside, filter_pick inside, List.filterMap_map]
    rfl

end reduce

section window
variable {window strides dilations : List Nat}

theorem windowAt_inside : ∀ {shape window strides dilations out win : List Nat},
    Fits shape window strides dilations → Inside (outDims shape window strides dilations) out →
      Inside window win → Inside shape (windowAt strides dilations out win)
  | [], [], [], [], [], [], _, _, _ => trivial
  | d :: ds, w :: ws, s :: ss, l :: ls, o :: out, i :: win, fits, inside, inside' => by
    obtain ⟨some_window, some_stride, some_dilation, room, fits⟩ := fits
    refine ⟨?_, windowAt_inside fits inside.2 inside'.2⟩
    have last : o ≤ (d - l * (w - 1) - 1) / s := Nat.le_of_lt_succ inside.1
    have start : o * s ≤ d - l * (w - 1) - 1 := (Nat.le_div_iff_mul_le some_stride).mp last
    have entry : i * l ≤ l * (w - 1) := by
      rw [Nat.mul_comm]
      exact Nat.mul_le_mul_left l (Nat.le_pred_of_lt inside'.1)
    omega

theorem outDims_length : ∀ {shape window strides dilations : List Nat},
    Fits shape window strides dilations → (outDims shape window strides dilations).length = shape.length
  | [], [], [], [], _ => rfl
  | _ :: _, _ :: _, _ :: _, _ :: _, fits => by simp [outDims, outDims_length fits.2.2.2.2]

theorem pool_ok {t : NDArray α} (some_axis : t.shape ≠ [])
    (fits : Fits t.shape window strides dilations) : ∃ pooled,
    pool t window strides dilations = some pooled ∧
      pooled.shape = outDims t.shape window strides dilations ++ window ∧
      ∀ o w, Inside (outDims t.shape window strides dilations) o → Inside window w →
        pooled.get? (o ++ w) = t.get? (windowAt strides dilations o w) := by
  have split (o w : List Nat) (inside : Inside (outDims t.shape window strides dilations) o) :
      (o ++ w).take t.shape.length = o ∧ (o ++ w).drop t.shape.length = w := by
    have len := inside.length.trans (outDims_length fits)
    exact ⟨List.take_left' len, List.drop_left' len⟩
  obtain ⟨pooled, made⟩ : ∃ pooled, build (outDims t.shape window strides dilations ++ window)
      (fun idx => t.get? (windowAt strides dilations (idx.take t.shape.length)
        (idx.drop t.shape.length))) = some pooled := by
    refine build_ok fun idx inside => get?_isSome.mpr ?_
    obtain ⟨o, w, rfl, first, rest⟩ := inside_split inside
    rw [(split o w first).1, (split o w first).2]
    exact windowAt_inside fits first rest
  refine ⟨pooled, by rw [pool, if_pos ⟨some_axis, fits⟩, made], (build_eq.mp made).1, fun o w first rest => ?_⟩
  rw [(build_eq.mp made).2 _ ((inside_append first.length).mpr ⟨first, rest⟩), (split o w first).1,
    (split o w first).2]

theorem windowParts_ok {t : NDArray α} (some_axis : t.shape ≠ [])
    (fits : Fits t.shape window strides dilations) :
    ∃ ps : List (NDArray α), windowParts window strides dilations t = some (ps.map .real) ∧
      PartsOf ps (outDims t.shape window strides dilations)
      (windowElements window strides dilations t) := by
  obtain ⟨pooled, made, shape, get⟩ := pool_ok some_axis fits
  have outer : pooled.shape.take t.shape.length = outDims t.shape window strides dilations := by
    rw [shape, List.take_left' (outDims_length fits)]
  have inner : pooled.shape.drop t.shape.length = window := by
    rw [shape, List.drop_left' (outDims_length fits)]
  obtain ⟨flat, flattened⟩ : ∃ flat, pooled.reshape (outDims t.shape window strides dilations ++
      [window.prod]) = some flat := ⟨_, dif_pos (by simp [shape])⟩
  obtain ⟨ps, cut, -, parts⟩ := slices_ok (g := fun o w => t.get? (windowAt strides dilations o w))
    (reshape_shape flattened) fun o w first rest =>
      (get?_flatten shape flattened first rest).trans (get o w first rest)
  refine ⟨ps, ?_, parts.shape, parts.get⟩
  simp only [windowParts, made, outer, inner, Option.bind_eq_bind, Option.bind_some, flattened, cut]

end window

/-! One application of the traced function, to two scalars and to two tensors of one shape. -/

section fold
variable (S : Sem (Value α)) (blobs : List Blob) (fuel : Nat) (fn : SubGraph)

def applied (acc part : Value α) : Option (Value α) :=
  match interpret (withFolds S) blobs fuel fn [] [acc, part] with
  | .ok outs => outs.head?
  | .error _ => none

def scalarStep (x y : α) : Option α :=
  (applied S blobs fuel fn (.real (scalar x)) (.real (scalar y))).bind fun out =>
    out.real?.bind (·.get? [])

end fold

def lanes (f : α → α → Option α) (acc part : NDArray α) : Option (NDArray α) :=
  if part.shape = acc.shape then build acc.shape fun b => do f (← acc.get? b) (← part.get? b) else none

def filled (shape : List Nat) (a : α) : NDArray α := tabulate shape fun _ => a

/-- On the tensors that a fold reaches, the traced function works position by position. -/
def LaneWise (S : Sem (Value α)) (blobs : List Blob) (fuel : Nat) (fn : SubGraph) : Prop :=
  ∀ (batch : List Nat) (a : α) (ps : List (NDArray α)) (acc part next : NDArray α),
    ps.foldlM (lanes (scalarStep S blobs fuel fn)) (filled batch a) = some acc →
      lanes (scalarStep S blobs fuel fn) acc part = some next →
        applied S blobs fuel fn (.real acc) (.real part) = some (.real next)

theorem ones_prod (batch : List Nat) : (batch.map fun _ => 1).prod = 1 := by simp

theorem spread_scalar (a : α) (batch : List Nat) : spread (scalar a) batch = some (filled batch a) := by
  obtain ⟨ones, made⟩ : ∃ ones, (scalar a).reshape (batch.map fun _ => 1) = some ones :=
    ⟨_, dif_pos (by simp [scalar])⟩
  have fits : List.Forall₂ (fun d d' => d = d' ∨ d = 1) ones.shape batch := by
    rw [reshape_shape made, List.forall₂_map_left_iff]
    exact List.forall₂_same.mpr fun d _ => .inr rfl
  obtain ⟨whole, expanded⟩ := expand_ok fits
  rw [spread, made, Option.bind_some, expanded]
  rw [expand, if_pos fits, build_eq] at expanded
  refine congrArg some (ext_get expanded.1 fun idx inside => ?_)
  rw [expanded.1] at inside
  have place := inside_expand fits inside
  have first := offset_lt place
  rw [reshape_shape made, ones_prod, ← reshape_shape made] at first
  have data : ones.data = [a] := by
    rw [reshape] at made
    split at made <;> cases made
    rfl
  rw [expanded.2 idx inside, get?_eq place, Nat.lt_one_iff.mp first, data, filled, get?_tabulate inside]
  rfl

section lanes
variable {f : α → α → Option α} {acc part next r : NDArray α} {ps : List (NDArray α)}

theorem lanes_eq : lanes f acc part = some next ↔ part.shape = acc.shape ∧ next.shape = acc.shape ∧
    ∀ b, Inside acc.shape b → next.get? b = (acc.get? b).bind fun x => (part.get? b).bind (f x) := by
  unfold lanes
  split
  · rename_i same
    rw [build_eq]
    simp [same, Option.bind_eq_bind]
  · rename_i apart
    simp [apart]

theorem fold_column {b : List Nat} (same : part.shape = acc.shape) (inside : Inside acc.shape b) :
    ((acc.get? b).bind fun x => ((part :: ps).filterMap (·.get? b)).foldlM f x) =
      ((acc.get? b).bind fun x => (part.get? b).bind (f x)).bind fun x =>
        (ps.filterMap (·.get? b)).foldlM f x := by
  obtain ⟨y, there⟩ := Option.isSome_iff_exists.mp (get?_isSome.mpr (same ▸ inside))
  cases acc.get? b with
  | none => rfl
  | some x => simp [there]

theorem foldlM_lanes : ps.foldlM (lanes f) acc = some r ↔ (∀ p ∈ ps, p.shape = acc.shape) ∧
    r.shape = acc.shape ∧ ∀ b, Inside acc.shape b →
      r.get? b = (acc.get? b).bind fun x => (ps.filterMap (·.get? b)).foldlM f x := by
  induction ps generalizing acc with
  | nil =>
    simp only [List.foldlM_nil, Option.pure_def, Option.some.injEq, List.filterMap_nil,
      Option.bind_fun_some]
    constructor
    · rintro rfl
      simp
    · rintro ⟨-, shape, same⟩
      exact ext_get shape.symm fun b inside => (same b inside).symm
  | cons p rest ih =>
    rw [List.foldlM_cons, Option.bind_eq_bind, Option.bind_eq_some_iff]
    constructor
    · rintro ⟨next, here, later⟩
      obtain ⟨same, shape, gets⟩ := lanes_eq.mp here
      obtain ⟨all, shape', gets'⟩ := ih.mp later
      rw [shape] at all shape' gets'
      refine ⟨List.forall_mem_cons.mpr ⟨same, all⟩, shape', fun b inside => ?_⟩
      rw [fold_column same inside, gets' b inside, gets b inside]
    · rintro ⟨all, shape, gets⟩
      obtain ⟨same, all⟩ := List.forall_mem_cons.mp all
      obtain ⟨next, made⟩ : ∃ next, build acc.shape
          (fun b => (acc.get? b).bind fun x => (p.get? b).bind (f x)) = some next := by
        refine build_ok fun b inside => ?_
        have there := get?_isSome.mpr (shape.symm ▸ inside)
        rw [gets b inside, fold_column same inside] at there
        exact Option.isSome_of_isSome_bind there
      obtain ⟨shape', gets'⟩ := build_eq.mp made
      refine ⟨next, lanes_eq.mpr ⟨same, shape', gets'⟩, ih.mpr ?_⟩
      rw [shape']
      refine ⟨all, shape, fun b inside => ?_⟩
      rw [gets b inside, fold_column same inside, gets' b inside]

end lanes

section steps
variable {S : Sem (Value α)} {blobs : List Blob} {fuel : Nat} {fn : SubGraph}

theorem foldParts_append {fn : List (Value α) → Except EvalError (List (Value α))} {acc : Value α}
    {ps qs : List (Value α)} : Interpreter.foldParts fn acc (ps ++ qs) =
      Interpreter.foldParts fn acc ps >>= fun acc => Interpreter.foldParts fn acc qs := by
  induction ps generalizing acc with
  | nil => rfl
  | cons p rest ih =>
    simp only [List.cons_append, Interpreter.foldParts, ih, bind_assoc]

theorem foldParts_one {acc part v : Value α} : Interpreter.foldParts
    (fun params => interpret (withFolds S) blobs fuel fn [] params) acc [part] = .ok v ↔
      applied S blobs fuel fn acc part = some v := by
  simp only [Interpreter.foldParts, applied]
  cases interpret (withFolds S) blobs fuel fn [] [acc, part] with
  | error e => simp [bind, Except.bind]
  | ok outs => rcases first : outs.head? with _ | out <;> simp [bind, Except.bind, orFault, first]

theorem foldParts_lanes (lane : LaneWise S blobs fuel fn) {batch : List Nat} {a : α}
    (done : List (NDArray α)) {ps : List (NDArray α)} {acc r : NDArray α}
    (before : done.foldlM (lanes (scalarStep S blobs fuel fn)) (filled batch a) = some acc)
    (steps : ps.foldlM (lanes (scalarStep S blobs fuel fn)) acc = some r) :
    Interpreter.foldParts (fun params => interpret (withFolds S) blobs fuel fn [] params) (.real acc)
      (ps.map .real) = .ok (.real r) := by
  induction ps generalizing done acc with
  | nil =>
    cases steps
    rfl
  | cons p rest ih =>
    obtain ⟨next, here, later⟩ := Option.bind_eq_some_iff.mp steps
    have upto : (done ++ [p]).foldlM (lanes (scalarStep S blobs fuel fn))
        (filled batch a) = some next := by
      simp [List.foldlM_append, before, here]
    have first := foldParts_one.mpr (lane batch a done acc p next before here)
    rw [List.map_cons, ← List.singleton_append, foldParts_append, first]
    exact ih (done ++ [p]) upto later

end steps

def reducedShape (axes : List Nat) (keep : Bool) (shape : List Nat) : List Nat :=
  if keep then shape.mapIdx fun a d => if a ∈ axes then 1 else d else onKept axes shape

def reducedAt (axes : List Nat) (keep : Bool) (rank : Nat) (b : List Nat) : List Nat :=
  if keep then weave (fun a => a ∉ axes) 0 rank b (List.replicate axes.length 0) else b

/-- Each position of the result of `_run_reduce` and of `_run_window_reduce` has the fold of the
    traced function over the elements there, where that function does not raise. -/
structure FoldsEach (S : Sem (Value α)) (blobs : List Blob) (fuel : Nat) (fn : SubGraph) : Prop where
  reduce : ∀ (id : Nat) (sym inputs shape : List Nat) (dtype : Dtype) (axes : List Nat) (keep : Bool)
    (t : NDArray α) (a : α), axes.Pairwise (· < ·) → (∀ axis ∈ axes, axis < t.shape.length) →
    (∀ b, Inside (onKept axes t.shape) b →
      ((elements axes t b).foldlM (scalarStep S blobs fuel fn) a).isSome) →
    ∃ r, runNode (withFolds S) blobs fuel sym
        (.fold id (.reduce (axes.map Int.ofNat) keep) fn inputs shape dtype)
        [.real t, .real (scalar a)] = .ok [.real r] ∧
      r.shape = reducedShape axes keep t.shape ∧ ∀ b, Inside (onKept axes t.shape) b →
        r.get? (reducedAt axes keep t.shape.length b) =
          (elements axes t b).foldlM (scalarStep S blobs fuel fn) a
  windowReduce : ∀ (id : Nat) (sym inputs shape : List Nat) (dtype : Dtype)
    (window strides dilations : List Nat) (padding : List (Nat × Nat)) (t : NDArray α) (a : α),
    t.shape ≠ [] → Fits t.shape window strides dilations → (∀ p ∈ padding, p = (0, 0)) →
    (∀ o, Inside (outDims t.shape window strides dilations) o →
      ((windowElements window strides dilations t o).foldlM (scalarStep S blobs fuel fn) a).isSome) →
    ∃ r, runNode (withFolds S) blobs fuel sym
        (.fold id (.windowReduce window strides padding dilations) fn inputs shape dtype)
        [.real t, .real (scalar a)] = .ok [.real r] ∧
      r.shape = outDims t.shape window strides dilations ∧
      ∀ o, Inside (outDims t.shape window strides dilations) o → r.get? o =
        (windowElements window strides dilations t o).foldlM (scalarStep S blobs fuel fn) a

section runs
variable {S : Sem (Value α)} {blobs : List Blob} {fuel : Nat} {fn : SubGraph}

theorem runNode_fold {id : Nat} {op : FoldOp} {sym inputs shape : List Nat} {dtype : Dtype}
    {t acc acc' v : Value α} {parts : List (Value α)} (start : foldAcc op t acc = some acc')
    (cut : foldParts op t = some parts) : runNode (withFolds S) blobs fuel sym
      (.fold id op fn inputs shape dtype) [t, acc] = .ok [v] ↔ ∃ last,
        Interpreter.foldParts (fun params => interpret (withFolds S) blobs fuel fn [] params)
        acc' parts =
          .ok last ∧ foldFinish op t last = some v := by
  have first : (withFolds S).foldAcc op t acc = some acc' := start
  have second : (withFolds S).foldParts op t = some parts := cut
  simp only [runNode, List.getElem?_cons_zero, List.getElem?_cons_succ, first, second, except_bind_ok,
    orFault_ok, Option.some.injEq, exists_eq_left', Except.ok.injEq, List.cons.injEq, and_true,
    exists_eq_right]
  rfl

theorem wire_axes (axes : List Nat) : (axes.map Int.ofNat).mapM Int.toNat? = some axes := by
  induction axes with
  | nil => rfl
  | cons a rest ih => simp [ih, Int.toNat?]

theorem reduceAcc_scalar (axes : List Nat) (t : NDArray α) (a : α) :
    reduceAcc axes t (.real (scalar a)) = some (.real (filled (onKept axes t.shape) a)) := by
  have kept : (nonAxes axes t.shape.length).filterMap (t.shape[·]?) = onKept axes t.shape := by
    rw [nonAxes_eq, onKept, pick_axes]
    rfl
  simp only [reduceAcc, kept]
  split
  · rename_i none
    rw [none]
    rfl
  · simp [Value.real?, scalar, ← spread_scalar]

theorem PartsOf.column {ps : List (NDArray α)} {batch : List Nat} {elems : List Nat → List α}
    (parts : PartsOf ps batch elems) {b : List Nat} (inside : Inside batch b) :
    ps.filterMap (·.get? b) = elems b := by
  have get := congrArg (List.filterMap id) (parts.get b inside)
  simpa [List.filterMap_map, Function.comp_def] using get

theorem PartsOf.folds {f : α → α → Option α} {ps : List (NDArray α)} {batch : List Nat}
    {elems : List Nat → List α} (parts : PartsOf ps batch elems) {a : α} {r : NDArray α} :
    ps.foldlM (lanes f) (filled batch a) = some r ↔
      r.shape = batch ∧ ∀ b, Inside batch b → r.get? b = (elems b).foldlM f a := by
  have column (b : List Nat) (inside : Inside batch b) : (((filled batch a).get? b).bind fun x =>
      (ps.filterMap (·.get? b)).foldlM f x) = (elems b).foldlM f a := by
    rw [filled, get?_tabulate inside, parts.column inside, Option.bind_some]
  rw [foldlM_lanes]
  constructor
  · rintro ⟨-, shape, gets⟩
    exact ⟨shape, fun b inside => (gets b inside).trans (column b inside)⟩
  · rintro ⟨shape, gets⟩
    exact ⟨parts.shape, shape, fun b inside => (gets b inside).trans (column b inside).symm⟩

theorem PartsOf.fold_exists {f : α → α → Option α} {ps : List (NDArray α)} {batch : List Nat}
    {elems : List Nat → List α} (parts : PartsOf ps batch elems) {a : α}
    (defined : ∀ b, Inside batch b → ((elems b).foldlM f a).isSome) :
    ∃ r, ps.foldlM (lanes f) (filled batch a) = some r := by
  obtain ⟨r, made⟩ := build_ok defined
  exact ⟨r, parts.folds.mpr (build_eq.mp made)⟩

theorem reduceFinish_ok (keep : Bool) {axes : List Nat} {t acc : NDArray α}
    (sorted : axes.Pairwise (· < ·)) (low : ∀ a ∈ axes, a < t.shape.length)
    (shape : acc.shape = onKept axes t.shape) :
      ∃ r, reduceFinish axes keep t (.real acc) = some (.real r) ∧
      r.shape = reducedShape axes keep t.shape ∧ ∀ b, Inside (onKept axes t.shape) b →
        r.get? (reducedAt axes keep t.shape.length b) = acc.get? b := by
  cases keep with
  | false => exact ⟨acc, rfl, shape, fun b _ => rfl⟩
  | true =>
    have dims : (t.shape.mapIdx fun a d => if a ∈ axes then 1 else d) =
        t.shape.mapIdx fun a d => if decide (0 + a ∉ axes) = true then d else 1 := by
      refine congrArg (List.mapIdx · t.shape) (funext fun a => funext fun d => ?_)
      by_cases mem : a ∈ axes <;> simp [mem]
    have size := @NDArray.ones_prod (fun a => a ∉ axes) 0 t.shape
    have count : axes.length = (pick (fun a => !decide (a ∉ axes)) 0 t.shape).length := by
      rw [pick_length, ← axes_eq sorted low]
    obtain ⟨r, moved⟩ : ∃ r, acc.reshape (t.shape.mapIdx fun a d => if a ∈ axes then 1
      else d) = some r :=
      ⟨_, dif_pos (by rw [dims, shape]; exact size.symm)⟩
    refine ⟨r, by simp [reduceFinish, Value.real?, moved], reshape_shape moved, fun b inside => ?_⟩
    rw [reducedAt, if_pos rfl, count]
    refine get?_reshape moved (shape ▸ inside) ?_ ?_
    · rw [dims]
      exact ones_inside inside
    · rw [dims, shape]
      exact (ones_offset inside).symm

theorem folds_each (lane : LaneWise S blobs fuel fn) : FoldsEach S blobs fuel fn where
  reduce id sym inputs shape dtype axes keep t a sorted low defined := by
    obtain ⟨ps, cut, -, parts⟩ := reduceParts_ok sorted low
    obtain ⟨acc, folded⟩ := parts.fold_exists defined
    obtain ⟨here, gets⟩ := parts.folds.mp folded
    obtain ⟨r, finished, shape', places⟩ := reduceFinish_ok keep sorted low here
    have start : foldAcc (.reduce (axes.map Int.ofNat) keep) (.real t) (.real (scalar a)) =
        some (.real (filled (onKept axes t.shape) a)) := by
      simp only [foldAcc, wire_axes, Value.real?, Option.bind_eq_bind, Option.bind_some,
        reduceAcc_scalar]
    have cut : foldParts (.reduce (axes.map Int.ofNat) keep) (.real t) = some (ps.map .real) := by
      simp only [foldParts, wire_axes, Value.real?, Option.bind_eq_bind, Option.bind_some, cut]
    have finished : foldFinish (.reduce (axes.map Int.ofNat) keep) (.real t)
        (.real acc) = some (.real r) := by
      simp only [foldFinish, wire_axes, Value.real?, Option.bind_eq_bind, Option.bind_some, finished]
    have ran := foldParts_lanes lane [] rfl folded
    exact ⟨r, (runNode_fold start cut).mpr ⟨.real acc, ran, finished⟩, shape',
      fun b inside => (places b inside).trans (gets b inside)⟩
  windowReduce id sym inputs shape dtype window strides dilations padding t a some_axis fits unpadded
    defined := by
    obtain ⟨ps, cut, parts⟩ := windowParts_ok some_axis fits
    obtain ⟨acc, folded⟩ := parts.fold_exists defined
    obtain ⟨here, gets⟩ := parts.folds.mp folded
    obtain ⟨pooled, made, dims, -⟩ := pool_ok some_axis fits
    have outer : pooled.shape.take t.shape.length = outDims t.shape window strides dilations := by
      rw [dims, List.take_left' (outDims_length fits)]
    have none : (padding.any fun p => p.1 != 0 || p.2 != 0) = false := by
      rw [List.any_eq_false]
      intro p mem
      rw [unpadded p mem]
      decide
    have start : foldAcc (.windowReduce window strides padding dilations) (.real t) (.real (scalar a)) =
        some (.real (filled (outDims t.shape window strides dilations) a)) := by
      simp only [foldAcc, none, Bool.false_eq_true, if_false, Value.real?, Option.bind_some,
        windowAcc, made, Option.bind_eq_bind, outer, spread_scalar]
      rfl
    have cut : foldParts (.windowReduce window strides padding dilations) (.real t) =
        some (ps.map .real) := cut
    have ran := foldParts_lanes lane [] rfl folded
    exact ⟨acc, (runNode_fold start cut).mpr ⟨.real acc, ran, rfl⟩, here, gets⟩

theorem PartsOf.unique {ps qs : List (NDArray α)} {batch : List Nat} {elems : List Nat → List α}
    (parts : PartsOf ps batch elems) (parts' : PartsOf qs batch elems) (count : ps.length = qs.length) :
    ps = qs := by
  refine List.ext_getElem count fun k low low' => ?_
  have shape := parts.shape _ (List.getElem_mem low)
  refine ext_get (shape.trans (parts'.shape _ (List.getElem_mem low')).symm) fun b inside => ?_
  rw [shape] at inside
  have same := congrArg (·[k]?) ((parts.get b inside).trans (parts'.get b inside).symm)
  simpa [low, low'] using same

theorem stack_ok {batch : List Nat} {ps : List (NDArray α)} (shapes : ∀ p ∈ ps, p.shape = batch) :
    ∃ t : NDArray α, t.shape = batch ++ [ps.length] ∧ PartsOf ps batch (elements [batch.length] t) := by
  obtain ⟨t, made⟩ : ∃ t, build (batch ++ [ps.length]) (fun idx =>
      idx.getLast?.bind fun i => ps[i]?.bind (·.get? idx.dropLast)) = some t := by
    refine build_ok fun idx inside => ?_
    obtain ⟨b, r, rfl, first, rest⟩ := inside_split inside
    obtain ⟨i, rfl⟩ : ∃ i, r = [i] := List.length_eq_one_iff.mp rest.length
    have low : i < ps.length := rest.1
    have there := get?_isSome.mpr ((shapes _ (List.getElem_mem low)).symm ▸ first)
    simpa [low] using there
  obtain ⟨shape, gets⟩ := build_eq.mp made
  obtain ⟨first, last, woven⟩ := @split_last 0 batch batch.length ps.length (Nat.zero_add _).symm
  refine ⟨t, shape, shapes, fun b inside => ?_⟩
  have column : elements [batch.length] t b = ps.filterMap (·.get? b) := by
    unfold elements onKept
    rw [shape, filter_pick (first.symm ▸ inside), last, List.filterMap_map, indices_single,
      List.filterMap_map, ← range_filterMap _ ps]
    refine List.filterMap_congr fun i mem => ?_
    have low := List.mem_range.mp mem
    have place : Inside (batch ++ [ps.length]) (b ++ [i]) :=
      (inside_append inside.length).mpr ⟨inside, low, trivial⟩
    simp only [Function.comp_apply, List.length_append, List.length_singleton, woven b i inside.length,
      gets _ place, List.getLast?_concat, List.dropLast_concat, Option.bind_some]
  rw [column]
  exact (filterMap_some fun p mem => get?_isSome.mpr ((shapes p mem).symm ▸ inside)).symm

theorem foldParts_run (each : FoldsEach S blobs fuel fn) {batch : List Nat} {a : α}
    {ps : List (NDArray α)} {acc : NDArray α}
    (folded : ps.foldlM (lanes (scalarStep S blobs fuel fn)) (filled batch a) = some acc) :
    Interpreter.foldParts (fun params => interpret (withFolds S) blobs fuel fn [] params)
      (.real (filled batch a)) (ps.map .real) = .ok (.real acc) := by
  have shapes : ∀ p ∈ ps, p.shape = batch := (foldlM_lanes.mp folded).1
  obtain ⟨t, shape, parts⟩ := stack_ok shapes
  obtain ⟨first, last, -⟩ := @split_last 0 batch batch.length ps.length (Nat.zero_add _).symm
  have kept : onKept [batch.length] t.shape = batch := by rw [onKept, shape, first]
  have low : ∀ axis ∈ [batch.length], axis < t.shape.length := by simp [shape]
  obtain ⟨here, gets⟩ := parts.folds.mp folded
  obtain ⟨r, ran, shape', gets'⟩ := each.reduce 0 [] [] [] .f32 [batch.length] false t a
    (List.pairwise_singleton ..) low fun b inside => by
      rw [kept] at inside
      rw [← gets b inside]
      exact get?_isSome.mpr (here.symm ▸ inside)
  rw [kept] at gets'
  have same : r = acc := by
    have refolded := parts.folds.mpr ⟨shape'.trans kept, gets'⟩
    exact Option.some.inj (refolded.symm.trans folded)
  obtain ⟨qs, cut, count, parts'⟩ := reduceParts_ok (List.pairwise_singleton ..) low
  rw [kept] at parts'
  rw [shape, last] at count
  have slice : qs = ps := parts'.unique parts (by simpa using count)
  have start : foldAcc (.reduce ([batch.length].map Int.ofNat) false) (.real t) (.real (scalar a)) =
      some (.real (filled batch a)) := by
    simp only [foldAcc, wire_axes, Value.real?, Option.bind_eq_bind, Option.bind_some,
      reduceAcc_scalar, kept]
  have cut : foldParts (.reduce ([batch.length].map Int.ofNat) false)
      (.real t) = some (ps.map .real) := by
    simp only [foldParts, wire_axes, Value.real?, Option.bind_eq_bind, Option.bind_some, cut, slice]
  obtain ⟨v, looped, finished⟩ := (runNode_fold start cut).mp ran
  have out : v = .real r := by
    simpa [foldFinish, reduceFinish, Value.real?, Int.toNat?] using finished
  rw [looped, out, same]

theorem lane_wise (each : FoldsEach S blobs fuel fn) : LaneWise S blobs fuel fn := by
  intro batch a ps acc part next before step
  have both : (ps ++ [part]).foldlM (lanes (scalarStep S blobs fuel fn))
      (filled batch a) = some next := by
    simp [List.foldlM_append, before, step]
  have ran := foldParts_run each both
  rw [List.map_append, foldParts_append, foldParts_run each before] at ran
  exact foldParts_one.mp ran

theorem complex_operand_raises (id : Nat) (op : FoldOp) (sym inputs shape : List Nat) (dtype : Dtype)
    (t : NDArray α) (acc : Value α) :
    ∃ e, runNode (withFolds S) blobs fuel sym (.fold id op fn inputs shape dtype)
    [.cx t, acc] = .error e := by
  have none : (withFolds S).foldAcc op (.cx t) acc = none := by
    cases op <;> simp [withFolds, foldAcc, Value.real?]
  exact ⟨.fault, by simp [runNode, none, orFault, bind, Except.bind]⟩

theorem complex_start_raises (id : Nat) (sym inputs shape : List Nat) (dtype : Dtype) (axes : List Nat)
    (keep : Bool) (t acc : NDArray α) (kept : onKept axes t.shape ≠ []) :
    ∃ e, runNode (withFolds S) blobs fuel sym
      (.fold id (.reduce (axes.map Int.ofNat) keep) fn inputs shape dtype) [.real t, .cx acc] =
        .error e := by
  have dims : (nonAxes axes t.shape.length).filterMap (t.shape[·]?) = onKept axes t.shape := by
    rw [nonAxes_eq, onKept, pick_axes]
    rfl
  have none : (withFolds S).foldAcc (.reduce (axes.map Int.ofNat) keep) (.real t) (.cx acc) = none := by
    simp only [withFolds, foldAcc, wire_axes, Value.real?, Option.bind_eq_bind,
      Option.bind_some, reduceAcc, dims, kept, if_false, Option.bind_none]
  exact ⟨.fault, by simp [runNode, none, orFault, bind, Except.bind]⟩

theorem scalar_window_raises (id : Nat) (sym inputs shape : List Nat) (dtype : Dtype)
    (window strides dilations : List Nat) (padding : List (Nat × Nat)) (t : NDArray α) (acc : Value α)
    (scalar : t.shape = []) :
    ∃ e, runNode (withFolds S) blobs fuel sym
      (.fold id (.windowReduce window strides padding dilations) fn inputs shape dtype) [.real t, acc] =
        .error e := by
  have none : (withFolds S).foldAcc (.windowReduce window strides padding dilations) (.real t) acc = none := by
    simp [withFolds, foldAcc, windowAcc, pool, scalar, Value.real?]
  exact ⟨.fault, by simp [runNode, none, orFault, bind, Except.bind]⟩

end runs

end NxTinygrad.Reductions
