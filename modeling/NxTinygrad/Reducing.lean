import NxTinygrad.ComplexOps
import NxTinygrad.Lib.Reducer
import NxTinygrad.WindowScatter
import Mathlib.Algebra.Order.Ring.WithTop

/- `_reduce` and `_window` of operations.py: sums, products, extrema and tests over axes and over windows.
   Numbers are exact, and the least and the greatest of them are the infinities. -/
namespace NxTinygrad.Reducing
open IR NDArray Reductions
open ComplexOps (resolveAxes)
open Padding (padWith isFloat)
open WindowScatter (paddedShape Extended)

variable {α : Type}

def reduceDims (R : Reducer α) (t : NDArray α) (axes : List Int) (keep : Bool) : Option (NDArray α) := do
  let axes ← resolveAxes t.shape.length axes
  if keep then some (along R axes t) else (along R axes t).reshape (onKept axes t.shape)

abbrev Int32 := {x : Int // -2147483648 ≤ x ∧ x ≤ 2147483647}

instance : BoundedOrder Int32 where
  top := ⟨2147483647, by decide⟩
  le_top x := x.2.2
  bot := ⟨-2147483648, by decide⟩
  bot_le x := x.2.1

def truth (b : Bool) : Int32 := if b then ⟨1, by decide⟩ else ⟨0, by decide⟩

inductive Reduced (α : Type) where
  | values (t : NDArray α)
  | mask (t : NDArray Int32)

section source
variable [AddCommMonoid α] [CommMonoid α] [LinearOrder α] [BoundedOrder α]

def reduce (op : ReduceOp) (axes : List Int) (keep : Bool) (t : NDArray α) : Option (Reduced α) :=
  if axes = [] then some (.values t)
  else
    let mask := t.map fun x => truth (x ≠ 0)
    match op with
    | .sum => (reduceDims .sum t axes keep).map .values
    | .product => (reduceDims .product t axes keep).map .values
    | .reduceMax => (reduceDims .max t axes keep).map .values
    | .reduceMin => (reduceDims .min t axes keep).map .values
    | .all => (reduceDims .min mask axes keep).map .mask
    | .any => (reduceDims .max mask axes keep).map .mask

def windowIdentity : WindowOp → α
  | .windowSum => 0
  | .windowMax => ⊥
  | .windowMin => ⊤
  | .windowProduct => 1

/-- `t.pad(padding, value=float(_WINDOW_IDENTITY[op]))`: an integer tensor goes through float32, unless
    the identity is 0. -/
def padIdentity (single : α → α) (d : Dtype) (op : WindowOp) (padding : List (Int × Int)) (t : NDArray α) :
    Option (NDArray α) :=
  padWith (if op = .windowSum || isFloat d then t else t.map single) padding (windowIdentity op)

def window (single : α → α) (d : Dtype) (op : WindowOp) (window strides : List Nat)
    (padding : List (Int × Int)) (dilations : List Nat) (t : NDArray α) : Option (NDArray α) := do
  let rank := t.shape.length
  let padded ←
    (if padding.any (fun p => p.1 ≠ 0 || p.2 ≠ 0) then padIdentity single d op padding t else some t)
  let pooled ← pool padded window strides dilations
  let axes := (List.range' rank rank).map Int.ofNat
  match op with
  | .windowSum => reduceDims .sum pooled axes false
  | .windowMax => reduceDims .max pooled axes false
  | .windowMin => reduceDims .min pooled axes false
  | .windowProduct => reduceDims .product pooled axes false

end source

section spec

/-- Where the entry of the result stands that an entry of the operand goes into. -/
def reducedTo (axes : List Nat) (keep : Bool) (idx : List Nat) : List Nat :=
  if keep then squash axes idx else onKept axes idx

/-- The elements that go into the same entry as the one at `idx`. -/
def companions (axes : List Nat) (t : NDArray α) (idx : List Nat) : List α :=
  ((indices t.shape).filter fun i => squash axes i = squash axes idx).filterMap t.get?

def positions : List Nat → List Nat → List (Int × Int) → List Nat → List Nat → List Int
  | s :: ss, l :: ls, p :: ps, o :: out, i :: win =>
      ((o * s + i * l : Nat) - p.1) :: positions ss ls ps out win
  | _, _, _, _, _ => []

def at? (t : NDArray α) (position : List Int) : Option α := (position.mapM Int.toNat?).bind t.get?

/-- The elements of the operand in the window at `o`. -/
def inWindow (window strides : List Nat) (padding : List (Int × Int)) (dilations : List Nat)
    (t : NDArray α) (o : List Nat) : List α :=
  (indices window).filterMap fun i => at? t (positions strides dilations padding o i)

variable [AddCommMonoid α] [CommMonoid α] [LinearOrder α] [BoundedOrder α]

def reducer : WindowOp → Reducer α
  | .windowSum => .sum
  | .windowMax => .max
  | .windowMin => .min
  | .windowProduct => .product

/-- The operations that combine the elements themselves. -/
def combining : ReduceOp → Option (Reducer α)
  | .sum => some .sum
  | .product => some .product
  | .reduceMax => some .max
  | .reduceMin => some .min
  | .all | .any => none

end spec

section axes
variable {R : Reducer α} {t : NDArray α} {axes more : List Int} {resolved resolved' : List Nat}

theorem pick_inside {p : Nat → Bool} {k : Nat} {shape idx : List Nat} (inside : Inside shape idx) :
    Inside (pick p k shape) (pick p k idx) := by
  induction shape generalizing k idx with
  | nil =>
    cases idx with
    | nil => trivial
    | cons i is => cases inside
  | cons d ds ih =>
    cases idx with
    | nil => cases inside
    | cons i is =>
      have later := @ih (k + 1) is inside.2
      cases kept : p k with
      | false => simpa [pick, kept] using later
      | true => simpa [pick, kept, Inside] using ⟨inside.1, later⟩

theorem weave_squash {p : Nat → Bool} {k : Nat} (shape idx : List Nat) (len : idx.length = shape.length) :
    weave p k shape.length (pick p k idx) (List.replicate (pick (fun a => !p a) k shape).length 0) =
      idx.mapIdx fun a i => if p (k + a) then i else 0 := by
  induction shape generalizing k idx with
  | nil =>
    obtain rfl := List.length_eq_zero_iff.mp len
    rfl
  | cons d ds ih =>
    obtain ⟨i, is, rfl⟩ := List.exists_cons_of_length_eq_add_one len
    have later := @ih (k + 1) is (by simpa using len)
    simp only [Nat.add_assoc, Nat.add_comm 1] at later
    cases kept : p k <;> simp [List.mapIdx_cons, pick, kept, weave, List.replicate_succ, later]

theorem squashed_eq (axes shape : List Nat) : squashed axes shape =
    shape.mapIdx fun a d => if decide (0 + a ∉ axes) = true then d else 1 := by
  refine congrArg (List.mapIdx · shape) (funext fun a => funext fun d => ?_)
  by_cases mem : a ∈ axes <;> simp [mem]

theorem squash_weave {axes shape idx : List Nat} (len : idx.length = shape.length) : squash axes idx =
    weave (fun a => a ∉ axes) 0 shape.length (onKept axes idx)
      (List.replicate (pick (fun a => !decide (a ∉ axes)) 0 shape).length 0) := by
  rw [onKept, weave_squash shape idx len]
  refine congrArg (List.mapIdx · idx) (funext fun a => funext fun d => ?_)
  by_cases mem : a ∈ axes <;> simp [mem]

theorem reduceDims_ok (R : Reducer α) (t : NDArray α) (keep : Bool)
    (resolves : resolveAxes t.shape.length axes = some resolved) : ∃ r,
    reduceDims R t axes keep = some r ∧ r.shape = reducedShape resolved keep t.shape ∧
      ∀ idx, Inside t.shape idx →
        r.get? (reducedTo resolved keep idx) = some (R.fold (companions resolved t idx)) := by
  have entry (idx : List Nat) (inside : Inside t.shape idx) :
      (along R resolved t).get? (squash resolved idx) = some (R.fold (companions resolved t idx)) :=
    get?_along R (squash_inside inside)
  rw [reduceDims, resolves]
  cases keep with
  | true => exact ⟨along R resolved t, rfl, rfl, entry⟩
  | false =>
    have size : (squashed resolved t.shape).prod = (onKept resolved t.shape).prod := by
      rw [squashed_eq]
      exact @NDArray.ones_prod (fun a => a ∉ resolved) 0 t.shape
    obtain ⟨r, moved⟩ : ∃ r, (along R resolved t).reshape (onKept resolved t.shape) = some r :=
      reshape_ok size
    refine ⟨r, moved, reshape_shape moved, fun idx inside => ?_⟩
    have kept : Inside (onKept resolved t.shape) (onKept resolved idx) := pick_inside inside
    rw [← entry idx inside]
    refine get?_reshape moved (squash_inside inside) kept ?_
    change offset (squashed resolved t.shape) _ = offset (onKept resolved t.shape) (onKept resolved idx)
    rw [squash_weave inside.length, squashed_eq]
    exact ones_offset kept

theorem resolveAxes_append {rank : Nat} (first : resolveAxes rank axes = some resolved)
    (second : resolveAxes rank more = some resolved') :
    resolveAxes rank (axes ++ more) = some (resolved ++ resolved') := by
  unfold resolveAxes at first second ⊢
  split at first
  · rename_i scalar
    rw [if_pos scalar] at second ⊢
    split at first
    · split at second
      · rename_i one two
        cases first
        cases second
        rw [if_pos (by rw [List.all_append, one, two]; rfl)]
        rfl
      · cases second
    · cases first
  · rename_i axis
    rw [if_neg axis] at second ⊢
    rw [List.mapM_append, first, second]
    rfl

theorem reduceDims_append (first : resolveAxes t.shape.length axes = some resolved)
    (second : resolveAxes t.shape.length more = some resolved') :
    (reduceDims R t axes true).bind (reduceDims R · more true) = reduceDims R t (axes ++ more) true := by
  have rank : (along R resolved t).shape.length = t.shape.length := List.length_mapIdx
  simp only [reduceDims, first, resolveAxes_append first second, Option.bind_eq_bind, Option.bind_some,
    if_true, rank, second, along_append]

end axes

section tests

theorem truth_inf (b c : Bool) : truth b ⊓ truth c = truth (b && c) := by
  cases b <;> cases c <;> decide

theorem truth_sup (b c : Bool) : truth b ⊔ truth c = truth (b || c) := by
  cases b <;> cases c <;> decide

theorem truth_least (b : Bool) (l : List Bool) :
    (Reducer.min : Reducer Int32).fold ((b :: l).map truth) = truth ((b :: l).all id) := by
  induction l generalizing b with
  | nil => cases b <;> decide
  | cons c rest ih =>
    rw [List.map_cons, Reducer.fold_cons, ih, List.all_cons]
    exact truth_inf b _

theorem truth_greatest (b : Bool) (l : List Bool) :
    (Reducer.max : Reducer Int32).fold ((b :: l).map truth) = truth ((b :: l).any id) := by
  induction l generalizing b with
  | nil => cases b <;> decide
  | cons c rest ih =>
    rw [List.map_cons, Reducer.fold_cons, ih, List.any_cons]
    exact truth_sup b _

theorem companions_map {β : Type} (f : α → β) (axes : List Nat) (t : NDArray α) (idx : List Nat) :
    companions axes (t.map f) idx = (companions axes t idx).map f := by
  unfold companions
  rw [List.map_filterMap]
  exact List.filterMap_congr fun i _ => get?_map f t i

theorem companions_cons {axes : List Nat} {t : NDArray α} {idx : List Nat} (inside : Inside t.shape idx) :
    ∃ x l, companions axes t idx = x :: l := by
  obtain ⟨x, there⟩ := Option.isSome_iff_exists.mp (get?_isSome.mpr inside)
  have mem : x ∈ companions axes t idx :=
    List.mem_filterMap.mpr ⟨idx, List.mem_filter.mpr ⟨mem_indices.mpr inside, by simp⟩, there⟩
  exact List.exists_cons_of_ne_nil (List.ne_nil_of_mem mem)

end tests

section reduce
variable [AddCommMonoid α] [CommMonoid α] [LinearOrder α] [BoundedOrder α]
  {t : NDArray α} {axes more : List Int} {resolved resolved' : List Nat}

theorem reduce_combining {op : ReduceOp} {R : Reducer α} (combines : combining op = some R)
    (some_axes : axes ≠ []) (keep : Bool) :
    reduce op axes keep t = (reduceDims R t axes keep).map .values := by
  rw [reduce, if_neg some_axes]
  cases op <;> cases combines <;> rfl

def Holds (op : ReduceOp) (l : List α) : Bool :=
  match op with
  | .all => l.all (· ≠ 0)
  | _ => l.any (· ≠ 0)

theorem reduce_test {op : ReduceOp} (test : (combining op : Option (Reducer α)) = none)
    (some_axes : axes ≠ []) (resolves : resolveAxes t.shape.length axes = some resolved) (keep : Bool) :
    ∃ r, reduce op axes keep t = some (.mask r) ∧ r.shape = reducedShape resolved keep t.shape ∧
      ∀ idx, Inside t.shape idx →
        r.get? (reducedTo resolved keep idx) = some (truth (Holds op (companions resolved t idx))) := by
  have column (idx : List Nat) : companions resolved (t.map fun x => truth (x ≠ 0)) idx =
      ((companions resolved t idx).map fun x => decide (x ≠ 0)).map truth := by
    rw [companions_map, List.map_map]
    rfl
  rw [reduce, if_neg some_axes]
  cases op with
  | sum => cases test
  | product => cases test
  | reduceMax => cases test
  | reduceMin => cases test
  | all =>
    obtain ⟨r, made, shape, entries⟩ :=
      reduceDims_ok .min (t.map fun x => truth (x ≠ 0)) keep resolves
    refine ⟨r, congrArg (Option.map Reduced.mask) made, shape, fun idx inside => ?_⟩
    obtain ⟨x, l, here⟩ := @companions_cons _ resolved _ _ inside
    rw [entries idx inside, column, here, List.map_cons, truth_least]
    simp [Holds]
  | any =>
    obtain ⟨r, made, shape, entries⟩ :=
      reduceDims_ok .max (t.map fun x => truth (x ≠ 0)) keep resolves
    refine ⟨r, congrArg (Option.map Reduced.mask) made, shape, fun idx inside => ?_⟩
    obtain ⟨x, l, here⟩ := @companions_cons _ resolved _ _ inside
    rw [entries idx inside, column, here, List.map_cons, truth_greatest]
    simp [Holds]

/-- Each entry of a reduction combines the elements that go into it, whichever axes are reduced and in
    whatever order; tests say 1 or 0; reducing along some axes, which stay, and then along others is reducing
    along all of them; and without axes the operand comes back, also from a test. -/
theorem reduces (t : NDArray α) (axes : List Int) (resolved : List Nat) (some_axes : axes ≠ [])
    (resolves : resolveAxes t.shape.length axes = some resolved) :
    (∀ op R, combining op = some R →
      (∀ keep, ∃ r, reduce op axes keep t = some (.values r) ∧
        r.shape = reducedShape resolved keep t.shape ∧ ∀ idx, Inside t.shape idx →
          r.get? (reducedTo resolved keep idx) = some (R.fold (companions resolved t idx))) ∧
      ∀ more resolved', more ≠ [] → resolveAxes t.shape.length more = some resolved' →
        ∃ r, reduce op axes true t = some (.values r) ∧
          reduce op more true r = reduce op (axes ++ more) true t) ∧
    (∀ op, (combining op : Option (Reducer α)) = none → ∀ keep,
      ∃ r, reduce op axes keep t = some (.mask r) ∧
      r.shape = reducedShape resolved keep t.shape ∧ ∀ idx, Inside t.shape idx →
        r.get? (reducedTo resolved keep idx) =
          some (truth (Holds op (companions resolved t idx)))) ∧
    ∀ op keep, reduce op [] keep t = some (.values t) := by
  refine ⟨fun op R combines => ⟨fun keep => ?_, fun more resolved' some_more resolves' => ?_⟩,
    fun op test keep => reduce_test test some_axes resolves keep, fun op keep => rfl⟩
  · obtain ⟨r, made, shape, entries⟩ := reduceDims_ok R t keep resolves
    exact ⟨r, by rw [reduce_combining combines some_axes, made]; rfl, shape, entries⟩
  · obtain ⟨r, made, -⟩ := reduceDims_ok R t true resolves
    have both := reduceDims_append (R := R) resolves resolves'
    rw [made, Option.bind_some] at both
    refine ⟨r, by rw [reduce_combining combines some_axes, made]; rfl, ?_⟩
    rw [reduce_combining combines some_more, both,
      reduce_combining combines (List.append_ne_nil_of_left_ne_nil some_axes more)]

def unitMatrix : NDArray (Extended Int) := ⟨[2, 2], [1, 0, 0, 1], rfl⟩

theorem unitMatrix_reduces :
    (∃ r, reduce .sum [0, -1] false unitMatrix = some (.values r) ∧ r.get? [] = some 2) ∧
      ∃ r, reduce .all [1] false unitMatrix = some (.mask r) ∧ r.get? [1] = some (truth false) := by
  have both := reduces unitMatrix [0, -1] [0, 1] (by decide) rfl
  have rows := reduces unitMatrix [1] [1] (by decide) rfl
  constructor
  · obtain ⟨r, made, -, entries⟩ := (both.1 .sum .sum rfl).1 false
    refine ⟨r, made, (entries [0, 0] (by decide)).trans (congrArg some ?_)⟩
    change (1 : Extended Int) + (0 + (0 + (1 + 0))) = 2
    decide
  · obtain ⟨r, made, -, entries⟩ := rows.2.1 .all rfl false
    refine ⟨r, made, (entries [1, 0] (by decide)).trans (congrArg (fun b => some (truth b)) ?_)⟩
    change [(0 : Extended Int), 1].all (· ≠ 0) = false
    decide

end reduce

section window
variable {shape : List Nat} {padding : List (Int × Int)} {windowDims strides dilations o : List Nat}

theorem toNat?_nonneg {x : Int} (nonneg : 0 ≤ x) : x.toNat? = some x.toNat := by
  cases x with
  | ofNat n => rfl
  | negSucc n => omega

theorem toNat?_neg {x : Int} (neg : x < 0) : x.toNat? = none := by
  cases x with
  | ofNat n => exact absurd neg (Int.not_lt.mpr (Int.natCast_nonneg n))
  | negSucc n => rfl

theorem place_at (len : padding.length = shape.length) {p : List Nat} (count : p.length = shape.length) :
    place (pads shape padding) p =
      ((List.zipWith (fun (i : Nat) (w : Int × Int) => (i : Int) - w.1) p padding).mapM
        Int.toNat?).filter fun q => decide (Inside shape q) := by
  induction shape generalizing padding p with
  | nil =>
    obtain rfl := List.length_eq_zero_iff.mp len
    obtain rfl := List.length_eq_zero_iff.mp count
    rfl
  | cons d ds ih =>
    obtain ⟨w, ws, rfl⟩ := List.exists_cons_of_length_eq_add_one len
    obtain ⟨i, is, rfl⟩ := List.exists_cons_of_length_eq_add_one count
    obtain ⟨lo, hi⟩ := w
    have later := @ih ws (by simpa using len) is (by simpa using count)
    have read : place (pads (d :: ds) ((lo, hi) :: ws)) (i :: is) =
        ((Window.pad d lo hi).read i).bind fun j => (place (pads ds ws) is).map (j :: ·) := rfl
    rw [read, later, List.zipWith_cons_cons, List.mapM_cons]
    rcases lt_or_ge ((i : Int) - lo) 0 with below | above
    · have none : (Window.pad d lo hi).read i = none := if_neg (by omega)
      rw [none, toNat?_neg below]
      rfl
    · rw [toNat?_nonneg above]
      by_cases low : ((i : Int) - lo).toNat < d
      · have here : (Window.pad d lo hi).read i = some ((i : Int) - lo).toNat := if_pos (by omega)
        rw [here]
        cases (List.zipWith (fun (i : Nat) (w : Int × Int) => (i : Int) - w.1) is ws).mapM
            Int.toNat? with
        | none => rfl
        | some q => by_cases rest : Inside ds q <;> simp [Option.filter, Inside, low, rest]
      · have none : (Window.pad d lo hi).read i = none := if_neg (by omega)
        rw [none]
        cases (List.zipWith (fun (i : Nat) (w : Int × Int) => (i : Int) - w.1) is ws).mapM
            Int.toNat? with
        | none => rfl
        | some q => simp [Option.filter, Inside, low]

theorem read_at {t : NDArray α} (len : padding.length = t.shape.length) {p : List Nat}
    (count : p.length = t.shape.length) : (place (pads t.shape padding) p).bind t.get? =
      at? t (List.zipWith (fun (i : Nat) (w : Int × Int) => (i : Int) - w.1) p padding) := by
  rw [place_at len count, at?]
  cases (List.zipWith (fun (i : Nat) (w : Int × Int) => (i : Int) - w.1) p padding).mapM
      Int.toNat? with
  | none => rfl
  | some q =>
    by_cases inside : Inside t.shape q
    · simp [Option.filter, inside]
    · have none : t.get? q = none := by
        rw [← Option.not_isSome_iff_eq_none, get?_isSome]
        exact inside
      simp [Option.filter, inside, none]

theorem positions_eq : ∀ {strides dilations o i : List Nat} {padding : List (Int × Int)},
    padding.length = (windowAt strides dilations o i).length →
    List.zipWith (fun (i : Nat) (w : Int × Int) => (i : Int) - w.1) (windowAt strides dilations o i)
      padding = positions strides dilations padding o i
  | [], _, _, _, _, _ | _ :: _, [], _, _, _, _ | _ :: _, _ :: _, [], _, _, _
  | _ :: _, _ :: _, _ :: _, [], _, _ => by
    simp [windowAt, positions]
  | _ :: _, _ :: _, _ :: _, _ :: _, [], len => by cases len
  | s :: ss, l :: ls, o :: os, i :: is, p :: ps, len => by
    have later := @positions_eq ss ls os is ps (by simpa [windowAt] using len)
    rw [windowAt, List.zipWith_cons_cons, later]
    rfl

theorem companions_trailing {pooled : NDArray α} {out : List Nat}
    (dims : pooled.shape = out ++ windowDims) (inside : Inside out o) {i : List Nat}
    (inside' : Inside windowDims i) :
    companions (List.range' out.length windowDims.length) pooled (o ++ i) =
      (indices windowDims).filterMap fun w => pooled.get? (o ++ w) := by
  have same (j w : List Nat) (here : Inside out j) (there : Inside windowDims w) :
      squash (List.range' out.length windowDims.length) (j ++ w) =
        squash (List.range' out.length windowDims.length) (o ++ i) ↔ j = o := by
    rw [squash_eq]
    constructor
    · rintro ⟨-, agree⟩
      refine List.ext_getElem? fun a => ?_
      rcases Nat.lt_or_ge a out.length with low | high
      · have free : a ∉ List.range' out.length windowDims.length := by
          rw [List.mem_range'_1]
          omega
        have at_a := agree a free
        rwa [List.getElem?_append_left (by rw [here.length]; exact low),
          List.getElem?_append_left (by rw [inside.length]; exact low)] at at_a
      · rw [List.getElem?_eq_none (here.length ▸ high), List.getElem?_eq_none (inside.length ▸ high)]
    · rintro rfl
      refine ⟨by simp [there.length, inside'.length], fun a free => ?_⟩
      rw [List.mem_range'_1] at free
      rcases Nat.lt_or_ge a out.length with low | high
      · rw [List.getElem?_append_left (by rw [here.length]; exact low),
          List.getElem?_append_left (by rw [here.length]; exact low)]
      · rw [List.getElem?_eq_none (by rw [List.length_append, here.length, there.length]; omega),
          List.getElem?_eq_none (by rw [List.length_append, here.length, inside'.length]; omega)]
  have groups : ((indices pooled.shape).filter fun j =>
      squash (List.range' out.length windowDims.length) j =
        squash (List.range' out.length windowDims.length) (o ++ i)) =
      (indices windowDims).map (o ++ ·) := by
    have here_once : ((indices out).flatMap fun j => if j = o then (indices windowDims).map (o ++ ·) else []) =
        (indices windowDims).map (o ++ ·) := flatMap_single (indices_nodup out) (mem_indices.mpr inside)
    rw [dims, indices_append, List.filter_flatMap, ← here_once]
    refine List.flatMap_congr fun j mem => ?_
    have here := mem_indices.mp mem
    by_cases eq : j = o
    · rw [if_pos eq, List.filter_eq_self.mpr, eq]
      intro x mem
      obtain ⟨w, there, rfl⟩ := List.mem_map.mp mem
      exact decide_eq_true ((same j w here (mem_indices.mp there)).mpr eq)
    · rw [if_neg eq, List.filter_eq_nil_iff]
      intro x mem
      obtain ⟨w, there, rfl⟩ := List.mem_map.mp mem
      rw [decide_eq_true_eq, same j w here (mem_indices.mp there)]
      exact eq
  rw [companions, groups, List.filterMap_map]
  rfl

theorem fits_length : ∀ {shape windowDims strides dilations : List Nat},
    Fits shape windowDims strides dilations → windowDims.length = shape.length
  | [], [], [], [], _ => rfl
  | _ :: _, _ :: _, _ :: _, _ :: _, fits => by simp [fits_length fits.2.2.2.2]

theorem mapM_all {l : List Nat} {f : Nat → Option Nat} (all : ∀ a ∈ l, f a = some a) :
    l.mapM f = some l := by
  induction l with
  | nil => rfl
  | cons a rest ih =>
    obtain ⟨here, all⟩ := List.forall_mem_cons.mp all
    rw [List.mapM_cons, here, ih all]
    rfl

theorem resolve_trailing (rank : Nat) :
    resolveAxes (rank + rank) ((List.range' rank rank).map Int.ofNat) = some (List.range' rank rank) := by
  unfold resolveAxes
  split
  · rename_i scalar
    obtain rfl : rank = 0 := by omega
    rfl
  · rw [List.mapM_map]
    refine mapM_all fun a mem => ?_
    have := List.mem_range'_1.mp mem
    have whole : ¬ Int.ofNat a < 0 := not_lt.mpr (Int.natCast_nonneg a)
    rw [Function.comp_apply, if_neg whole, if_pos (by simp only [Int.ofNat_eq_natCast]; omega)]
    rfl

theorem kept_leading {o i : List Nat} {rank : Nat} (len : o.length = rank) :
    onKept (List.range' rank i.length) (o ++ i) = o := by
  have all (k : Nat) (l : List Nat) (kept : k + l.length ≤ rank) (back : List Nat) :
      pick (fun a => a ∉ List.range' rank i.length) k (l ++ back) =
        l ++ pick (fun a => a ∉ List.range' rank i.length) (k + l.length) back := by
    induction l generalizing k with
    | nil => rfl
    | cons x xs ih =>
      rw [List.length_cons] at kept
      have free : k ∉ List.range' rank i.length := by
        rw [List.mem_range'_1]
        omega
      simp only [List.cons_append, pick, free, not_false_eq_true, decide_true, if_true]
      rw [ih (k + 1) (by omega), List.length_cons, Nat.add_assoc, Nat.add_comm 1]
  have none (k : Nat) (l : List Nat) (low : rank ≤ k) (high : k + l.length ≤ rank + i.length) :
      pick (fun a => a ∉ List.range' rank i.length) k l = [] := by
    induction l generalizing k with
    | nil => rfl
    | cons x xs ih =>
      rw [List.length_cons] at high
      have mem : k ∈ List.range' rank i.length := by
        rw [List.mem_range'_1]
        omega
      simp only [pick, mem, not_true_eq_false, decide_false, Bool.false_eq_true, if_false]
      exact ih (k + 1) (by omega) (by omega)
  rw [onKept, all 0 o (by omega), none _ i (by omega) (by omega), List.append_nil]

theorem zeros_inside : ∀ {shape windowDims strides dilations : List Nat},
    Fits shape windowDims strides dilations → Inside windowDims (windowDims.map fun _ => 0)
  | [], [], [], [], _ => trivial
  | _ :: _, _ :: _, _ :: _, _ :: _, fits => ⟨fits.1, zeros_inside fits.2.2.2.2⟩

variable [AddCommMonoid α] [CommMonoid α] [LinearOrder α] [BoundedOrder α]

theorem reducer_start (op : WindowOp) : (reducer op : Reducer α).start = windowIdentity op := by
  cases op <;> rfl

/-- Nothing is padded, or what is padded is not changed by it. -/
def Kept (single : α → α) (d : Dtype) (op : WindowOp) (padding : List (Int × Int)) (t : NDArray α) : Prop :=
  (padding.any fun p => p.1 ≠ 0 || p.2 ≠ 0) = false ∨ op = .windowSum ∨ isFloat d = true ∨
    ∀ x ∈ t.data, single x = x

variable {single : α → α} {d : Dtype}

theorem padIdentity_kept {op : WindowOp} {padding : List (Int × Int)} {t : NDArray α}
    (kept : Kept single d op padding t) :
    (if padding.any (fun p => p.1 ≠ 0 || p.2 ≠ 0) then padIdentity single d op padding t else some t) =
      if padding.any (fun p => p.1 ≠ 0 || p.2 ≠ 0) then padWith t padding (windowIdentity op) else some t := by
  by_cases any : (padding.any fun p => p.1 ≠ 0 || p.2 ≠ 0) = true
  · rw [if_pos any, if_pos any, padIdentity]
    rcases kept with none | sum | float | same
    · exact absurd any (by rw [none]; decide)
    · rw [if_pos (by rw [decide_eq_true sum, Bool.true_or])]
    · rw [if_pos (by rw [float, Bool.or_true])]
    · have whole : t.map single = t := by
        obtain ⟨shape, data, count⟩ := t
        have entries : data.map single = data := (List.map_congr_left same).trans (List.map_id data)
        simp [NDArray.map, entries]
      rw [whole, ite_self]
  · rw [if_neg any, if_neg any]

theorem window_eq {op : WindowOp} {padding : List (Int × Int)} {t padded pooled : NDArray α}
    (kept : Kept single d op padding t)
    (pads : (if padding.any (fun p => p.1 ≠ 0 || p.2 ≠ 0) then padWith t padding (windowIdentity op)
      else some t) = some padded) (pools : pool padded windowDims strides dilations = some pooled) :
    window single d op windowDims strides padding dilations t = reduceDims (reducer op) pooled
      ((List.range' t.shape.length t.shape.length).map Int.ofNat) false := by
  simp only [window, padIdentity_kept kept, pads, pools, Option.bind_eq_bind, Option.bind_some]
  cases op <;> rfl

/-- Each entry of a window reduction combines the elements of the operand that lie in its window. What
    the padding adds to a window, and what it crops from the operand, makes no difference but for that. -/
theorem window_reduces (single : α → α) (d : Dtype) (op : WindowOp) (windowDims strides dilations : List Nat)
    (padding : List (Int × Int)) (t : NDArray α) (some_axis : t.shape ≠ [])
    (len : padding.length = t.shape.length) (kept : Kept single d op padding t)
    (fits : Fits (paddedShape t.shape padding) windowDims strides dilations) :
    ∃ r, window single d op windowDims strides padding dilations t = some r ∧
      r.shape = outDims (paddedShape t.shape padding) windowDims strides dilations ∧
      ∀ o, Inside r.shape o → r.get? o =
        some ((reducer op).fold (inWindow windowDims strides padding dilations t o)) := by
  obtain ⟨padded, made⟩ : ∃ padded, look t (pads t.shape padding) (some (windowIdentity op)) = some padded :=
    look_ok (pads_fit len) (.inl rfl)
  have dims : padded.shape = paddedShape t.shape padding := (look_shape made).trans (pads_sizes _ _)
  have rank : padded.shape.length = t.shape.length := by simp [dims, paddedShape, len]
  have some_padded : padded.shape ≠ [] := fun none => by
    rw [none] at rank
    exact some_axis (List.eq_nil_of_length_eq_zero rank.symm)
  obtain ⟨pooled, pools, shape, gets⟩ := pool_ok some_padded (dims ▸ fits)
  have outs := outDims_length (dims ▸ fits)
  have wins := fits_length (dims ▸ fits)
  have resolves : resolveAxes pooled.shape.length
      ((List.range' t.shape.length t.shape.length).map Int.ofNat) =
      some (List.range' t.shape.length t.shape.length) := by
    rw [shape, List.length_append, outs, wins, rank]
    exact resolve_trailing t.shape.length
  obtain ⟨r, reduced, shape', entries⟩ := reduceDims_ok (reducer op) pooled false resolves
  have leading : onKept (List.range' t.shape.length t.shape.length) pooled.shape =
      outDims padded.shape windowDims strides dilations := by
    have whole := @kept_leading _ windowDims t.shape.length (outs.trans rank)
    rwa [wins, rank, ← shape] at whole
  have shape' : r.shape = outDims (paddedShape t.shape padding) windowDims strides dilations := by
    rw [shape', ← dims, ← leading]
    rfl
  refine ⟨r, (window_eq kept ((Padding.pad_any t len _).trans made) pools).trans reduced, shape',
    fun o inside => ?_⟩
  rw [shape', ← dims] at inside
  have zeros := zeros_inside fits
  have entry := entries (o ++ windowDims.map fun _ => 0) (by
    rw [shape]
    exact (inside_append inside.length).mpr ⟨inside, zeros⟩)
  have start : reducedTo (List.range' t.shape.length t.shape.length) false
      (o ++ windowDims.map fun _ => 0) = o := by
    have whole := @kept_leading o (windowDims.map fun _ => 0) t.shape.length
      (inside.length.trans (outs.trans rank))
    rwa [List.length_map, wins, rank] at whole
  have column := companions_trailing shape inside zeros
  rw [outs, wins, rank] at column
  rw [start, column] at entry
  rw [entry, inWindow, ← Reducer.fold_gaps (indices windowDims) fun i =>
    at? t (positions strides dilations padding o i), reducer_start]
  refine congrArg (fun l => some ((reducer op).fold l))
    (List.filterMap_eq_map_iff_forall_eq_some.mpr fun i mem => ?_)
  have inside' := mem_indices.mp mem
  have there := windowAt_inside (dims ▸ fits) inside inside'
  have count : (windowAt strides dilations o i).length = t.shape.length := there.length.trans rank
  rw [gets o i inside inside', get?_look made (by rwa [pads_sizes, ← paddedShape, ← dims]),
    ← positions_eq (len.trans count.symm), ← read_at len count]
  cases placed : place (pads t.shape padding) (windowAt strides dilations o i) with
  | none => rfl
  | some q =>
    have low := place_inside (pads_fit len) (by rwa [pads_sizes, ← paddedShape, ← dims]) placed
    obtain ⟨x, read⟩ := Option.isSome_iff_exists.mp (get?_isSome.mpr low)
    simp [read]

def unitRow : NDArray (Extended Int) := ⟨[2], [1, 0], rfl⟩

theorem unitRow_windows : ∃ r, window id .s32 .windowMax [2] [1] [(1, 1)] [1] unitRow = some r ∧
    r.shape = [3] ∧ r.get? [0] = some 1 := by
  obtain ⟨r, made, shape, entries⟩ := window_reduces id .s32 .windowMax [2] [1] [1] [(1, 1)] unitRow
    (by decide) rfl (.inr (.inr (.inr fun _ _ => rfl))) (by decide)
  have dims : r.shape = [3] := shape
  refine ⟨r, made, dims, (entries [0] (by rw [dims]; decide)).trans (congrArg some ?_)⟩
  change (1 : Extended Int) ⊔ ⊥ = 1
  decide

end window

end NxTinygrad.Reducing
