import NxTinygrad.Lib.AxisOrder
import NxTinygrad.Lib.Einstein

/- Arrays put one after the other along an axis, and sums along axes. -/
namespace NDArray

variable {α β : Type}

/-- Entry `i` along `axis` of arrays one after the other. -/
def catRead (axis : Nat) (idx : List Nat) : List (NDArray α) → Nat → Option α
  | [], _ => none
  | t :: rest, i =>
      if i < t.shape.getD axis 0 then t.get? (idx.set axis i)
      else catRead axis idx rest (i - t.shape.getD axis 0)

def cat (parts : List (NDArray α)) (axis : Nat) : Option (NDArray α) :=
  match parts with
  | [] => none
  | t :: rest =>
      if axis < t.shape.length ∧ ∀ u ∈ rest, u.shape.set axis 0 = t.shape.set axis 0 then
        build (t.shape.set axis ((t :: rest).map fun u => u.shape.getD axis 0).sum) fun idx =>
          catRead axis idx (t :: rest) (idx.getD axis 0)
      else none

variable {axis : Nat} {shape shape' idx : List Nat}

theorem getD_set {l : List Nat} {n : Nat} (low : axis < l.length) : (l.set axis n).getD axis 0 = n := by
  simp [List.getD_eq_getElem?_getD, low]

theorem inside_set {n i : Nat} (inside : Inside (shape.set axis n) idx)
    (same : shape'.set axis 0 = shape.set axis 0)
    (low : i < shape'.getD axis 0) : Inside shape' (idx.set axis i) := by
  have len : shape'.length = shape.length := by simpa using congrArg List.length same
  obtain ⟨count, bound⟩ := inside_get.mp inside
  rw [List.length_set] at count
  refine inside_get.mpr ⟨by rw [List.length_set, count, len], fun k j d at_j at_d => ?_⟩
  by_cases here : axis = k
  · subst here
    have there : axis < idx.length := by
      rw [count, ← len]
      exact (List.getElem?_eq_some_iff.mp at_d).1
    rw [List.getElem?_set_self there] at at_j
    cases at_j
    rw [List.getD_eq_getElem?_getD, at_d] at low
    exact low
  · rw [List.getElem?_set_ne here] at at_j
    have size := congrArg (·[k]?) same
    simp only [List.getElem?_set_ne here] at size
    rw [size] at at_d
    exact bound k j d at_j (by rw [List.getElem?_set_ne here, at_d])

theorem catRead_some {parts : List (NDArray α)} {n i : Nat} (inside : Inside (shape.set axis n) idx)
    (same : ∀ u ∈ parts, u.shape.set axis 0 = shape.set axis 0)
    (low : i < (parts.map fun u => u.shape.getD axis 0).sum) : (catRead axis idx parts i).isSome := by
  induction parts generalizing i with
  | nil => cases low
  | cons t rest ih =>
    rw [List.map_cons, List.sum_cons] at low
    rw [catRead]
    split
    · rename_i here
      exact get?_isSome.mpr (inside_set inside (same t (List.mem_cons_self ..)) here)
    · exact ih (fun u mem => same u (List.mem_cons_of_mem _ mem)) (by omega)

theorem cat_ok {t : NDArray α} {rest : List (NDArray α)} (low : axis < t.shape.length)
    (same : ∀ u ∈ rest, u.shape.set axis 0 = t.shape.set axis 0) : ∃ r, cat (t :: rest) axis = some r ∧
      r.shape = t.shape.set axis ((t :: rest).map fun u => u.shape.getD axis 0).sum ∧
      ∀ idx, Inside r.shape idx → r.get? idx = catRead axis idx (t :: rest) (idx.getD axis 0) := by
  have all : ∀ u ∈ t :: rest, u.shape.set axis 0 = t.shape.set axis 0 := by
    intro u mem
    rcases List.mem_cons.mp mem with rfl | mem
    · rfl
    · exact same u mem
  have complete : ∀ idx,
      Inside (t.shape.set axis ((t :: rest).map fun u => u.shape.getD axis 0).sum) idx →
      (catRead axis idx (t :: rest) (idx.getD axis 0)).isSome := by
    intro idx inside
    refine catRead_some inside all ?_
    have there : axis < idx.length := by rwa [inside.length, List.length_set]
    have read : idx[axis]? = some (idx.getD axis 0) := by
      rw [List.getD_eq_getElem?_getD, List.getElem?_eq_getElem there]
      rfl
    exact (inside_get.mp inside).2 axis _ _ read (List.getElem?_set_self low)
  obtain ⟨r, made⟩ := build_ok complete
  obtain ⟨dims, entries⟩ := build_eq.mp made
  exact ⟨r, (if_pos ⟨low, same⟩).trans made, dims, fun idx inside => entries idx (dims ▸ inside)⟩

theorem cat_some {t r : NDArray α} {rest : List (NDArray α)} (made : cat (t :: rest) axis = some r) :
    axis < t.shape.length ∧ (∀ u ∈ rest, u.shape.set axis 0 = t.shape.set axis 0) ∧
      r.shape = t.shape.set axis ((t :: rest).map fun u => u.shape.getD axis 0).sum ∧
      ∀ idx, Inside r.shape idx → r.get? idx = catRead axis idx (t :: rest) (idx.getD axis 0) := by
  rw [cat] at made
  split at made
  · rename_i fits
    obtain ⟨dims, entries⟩ := build_eq.mp made
    exact ⟨fits.1, fits.2, dims, fun idx inside => entries idx (dims ▸ inside)⟩
  · cases made

/-- The sum over `axes`; with `keep` they stay, of size 1. -/
def sumAxes [AddCommMonoid α] (axes : List Nat) (keep : Bool) (t : NDArray α) : NDArray α :=
  let summed := (List.range t.shape.length).filter (· ∈ axes)
  let kept := (List.range t.shape.length).filter (· ∉ axes)
  tabulate (if keep then t.shape.mapIdx fun a d => if a ∈ axes then 1 else d else arrange kept t.shape)
    fun idx => ((indices (arrange summed t.shape)).map fun k => t.entry
      (restore (summed ++ kept) t.shape.length (k ++ if keep then arrange kept idx else idx))).sum

theorem entry_map [Zero α] [Zero β] {g : α → β} (zero : g 0 = 0) (t : NDArray α) (idx : List Nat) :
    (t.map g).entry idx = g (t.entry idx) := by
  unfold entry
  rw [get?_map]
  cases t.get? idx with
  | none => exact zero.symm
  | some x => rfl

theorem map_tabulate (g : α → β) (f : List Nat → α) :
    (tabulate shape f).map g = tabulate shape fun idx => g (f idx) := by
  simp [tabulate, map, Function.comp_def]

theorem sumAxes_map [AddCommMonoid α] [AddCommMonoid β] (g : α →+ β) (axes : List Nat) (keep : Bool)
    (t : NDArray α) : sumAxes axes keep (t.map g) = (sumAxes axes keep t).map g := by
  rw [sumAxes, sumAxes, map_tabulate]
  refine congrArg _ (funext fun idx => ?_)
  rw [map_list_sum, List.map_map]
  exact congrArg List.sum (List.map_congr_left fun k _ => entry_map (map_zero g) t _)

end NDArray
