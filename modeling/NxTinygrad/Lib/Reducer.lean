import NxTinygrad.Lib.AxisSplit
import Mathlib.Algebra.Group.Defs
import Mathlib.Data.List.Perm.Basic
import Mathlib.Order.BoundedOrder.Lattice

/- Arrays reduced along axes by an operation for which neither the order nor the grouping of the elements
   matters. -/
namespace NDArray

structure Reducer (α : Type) where
  combine : α → α → α
  start : α
  assoc : ∀ x y z, combine (combine x y) z = combine x (combine y z)
  comm : ∀ x y, combine x y = combine y x
  neutral : ∀ x, combine start x = x

namespace Reducer
variable {α β : Type}

def sum [AddCommMonoid α] : Reducer α := ⟨(· + ·), 0, add_assoc, add_comm, zero_add⟩

def product [CommMonoid α] : Reducer α := ⟨(· * ·), 1, mul_assoc, mul_comm, one_mul⟩

def max [LinearOrder α] [OrderBot α] : Reducer α :=
  ⟨(· ⊔ ·), ⊥, sup_assoc, sup_comm, fun _ => bot_sup_eq ..⟩

def min [LinearOrder α] [OrderTop α] : Reducer α :=
  ⟨(· ⊓ ·), ⊤, inf_assoc, inf_comm, fun _ => top_inf_eq ..⟩

variable (R : Reducer α)

def fold (l : List α) : α := l.foldr R.combine R.start

@[simp] theorem fold_nil : R.fold [] = R.start := rfl

@[simp] theorem fold_cons (x : α) (l : List α) : R.fold (x :: l) = R.combine x (R.fold l) := rfl

theorem fold_append (l l' : List α) : R.fold (l ++ l') = R.combine (R.fold l) (R.fold l') := by
  induction l with
  | nil => exact (R.neutral _).symm
  | cons x rest ih => rw [List.cons_append, fold_cons, ih, fold_cons, R.assoc]

theorem fold_flatMap (l : List β) (f : β → List α) :
    R.fold (l.flatMap f) = R.fold (l.map fun b => R.fold (f b)) := by
  induction l with
  | nil => rfl
  | cons b rest ih => rw [List.flatMap_cons, fold_append, ih, List.map_cons, fold_cons]

variable {R}

theorem fold_perm {l l' : List α} (same : l.Perm l') : R.fold l = R.fold l' := by
  induction same with
  | nil => rfl
  | cons x _ ih => rw [fold_cons, fold_cons, ih]
  | swap x y l => rw [fold_cons, fold_cons, fold_cons, fold_cons, ← R.assoc, R.comm y, R.assoc]
  | trans _ _ first second => exact first.trans second

theorem fold_gaps (l : List β) (f : β → Option α) :
    R.fold (l.map fun b => (f b).getD R.start) = R.fold (l.filterMap f) := by
  induction l with
  | nil => rfl
  | cons b rest ih =>
    cases read : f b with
    | none => simp [read, ih, R.neutral]
    | some x => simp [read, ih]

end Reducer

section squash
variable {axes axes' shape idx idx' : List Nat}

def squash (axes idx : List Nat) : List Nat := idx.mapIdx fun a i => if a ∈ axes then 0 else i

def squashed (axes shape : List Nat) : List Nat := shape.mapIdx fun a d => if a ∈ axes then 1 else d

theorem squash_inside (inside : Inside shape idx) : Inside (squashed axes shape) (squash axes idx) := by
  obtain ⟨len, low⟩ := inside_get.mp inside
  refine inside_get.mpr ⟨by simp [squash, squashed, len], fun k i d at_i at_d => ?_⟩
  rw [squash, List.getElem?_mapIdx, Option.map_eq_some_iff] at at_i
  rw [squashed, List.getElem?_mapIdx, Option.map_eq_some_iff] at at_d
  obtain ⟨j, here, rfl⟩ := at_i
  obtain ⟨n, size, rfl⟩ := at_d
  have bound := low k j n here size
  split <;> omega

theorem squash_append : squash (axes ++ axes') idx = squash axes' (squash axes idx) := by
  refine List.ext_getElem? fun k => ?_
  simp only [squash, List.getElem?_mapIdx, Option.map_map, List.mem_append]
  cases idx[k]? with
  | none => rfl
  | some i =>
    by_cases first : k ∈ axes <;> by_cases second : k ∈ axes' <;> simp [first, second]

theorem squashed_append : squashed (axes ++ axes') shape = squashed axes' (squashed axes shape) := by
  refine List.ext_getElem? fun k => ?_
  simp only [squashed, List.getElem?_mapIdx, Option.map_map, List.mem_append]
  cases shape[k]? with
  | none => rfl
  | some i =>
    by_cases first : k ∈ axes <;> by_cases second : k ∈ axes' <;> simp [first, second]

theorem squash_eq : squash axes idx = squash axes idx' ↔
    idx.length = idx'.length ∧ ∀ a, a ∉ axes → idx[a]? = idx'[a]? := by
  constructor
  · intro same
    have len : idx.length = idx'.length := by simpa [squash] using congrArg List.length same
    refine ⟨len, fun a free => ?_⟩
    have here := congrArg (·[a]?) same
    simpa [squash, List.getElem?_mapIdx, free] using here
  · rintro ⟨len, agree⟩
    refine List.ext_getElem? fun k => ?_
    rw [squash, squash, List.getElem?_mapIdx, List.getElem?_mapIdx]
    by_cases reduced : k ∈ axes
    · rcases Nat.lt_or_ge k idx.length with low | high
      · rw [List.getElem?_eq_getElem low, List.getElem?_eq_getElem (len ▸ low)]
        simp [reduced]
      · rw [List.getElem?_eq_none high, List.getElem?_eq_none (len ▸ high)]
    · rw [agree k reduced]

end squash

section along
variable {α : Type} (R : Reducer α) {axes axes' : List Nat} {t : NDArray α} {idx : List Nat}

def fibre (axes : List Nat) (t : NDArray α) (idx : List Nat) : List α :=
  ((indices t.shape).filter fun i => squash axes i = idx).filterMap t.get?

/-- The array reduced along `axes`, which stay, of size 1. -/
def along (axes : List Nat) (t : NDArray α) : NDArray α :=
  tabulate (squashed axes t.shape) fun idx => R.fold (fibre axes t idx)

theorem get?_along (inside : Inside (squashed axes t.shape) idx) :
    (along R axes t).get? idx = some (R.fold (fibre axes t idx)) := get?_tabulate inside

theorem fibre_groups (axes axes' shape idx : List Nat) :
    ((indices shape).filter fun i => squash (axes ++ axes') i = idx).Perm
      (((indices (squashed axes shape)).filter fun j => squash axes' j = idx).flatMap fun j =>
        (indices shape).filter fun i => squash axes i = j) := by
  refine (List.perm_ext_iff_of_nodup ((indices_nodup shape).filter _) ?_).mpr fun i => ?_
  · refine List.nodup_flatMap.mpr ⟨fun j _ => (indices_nodup shape).filter _, ?_⟩
    refine List.Nodup.pairwise_of_forall_ne ((indices_nodup _).filter _) fun j _ k _ apart => ?_
    intro i first second
    simp only [List.mem_filter, decide_eq_true_eq] at first second
    exact apart (first.2.symm.trans second.2)
  · simp only [List.mem_filter, List.mem_flatMap, mem_indices, decide_eq_true_eq, squash_append]
    constructor
    · rintro ⟨inside, same⟩
      exact ⟨squash axes i, ⟨squash_inside inside, same⟩, inside, rfl⟩
    · rintro ⟨j, ⟨-, same⟩, inside, rfl⟩
      exact ⟨inside, same⟩

theorem along_append : along R (axes ++ axes') t = along R axes' (along R axes t) := by
  refine ext_get squashed_append fun idx inside => ?_
  have inside' : Inside (squashed axes' (along R axes t).shape) idx := squashed_append ▸ inside
  rw [get?_along R inside, get?_along R inside', fibre, Reducer.fold_perm
    ((fibre_groups axes axes' t.shape idx).filterMap t.get?), List.filterMap_flatMap,
    Reducer.fold_flatMap]
  refine congrArg (fun l => some (R.fold l)) (List.filterMap_eq_map_iff_forall_eq_some.mpr ?_).symm
  intro j mem
  exact get?_along R (mem_indices.mp (List.mem_of_mem_filter mem))

end along

end NDArray
