import NxTinygrad.Scatter

/- `_gather` of operations.py: the elements at the coordinates of an index tensor of any batch shape. -/
namespace NxTinygrad.Gather
open IR NDArray Reductions Scatter

variable {α : Type}

/-- `t[lin]`, row by row; a negative index counts from the end. -/
def takeRows (t : NDArray α) (lin : List Int) : Option (NDArray α) :=
  match t.shape with
  | [] => none
  | n :: dims => build (lin.length :: dims) fun idx => match idx with
      | [] => none
      | i :: r => lin[i]?.bind fun j =>
          let j := if j < 0 then j + n else j
          if 0 ≤ j then t.get? (j.toNat :: r) else none

def gather (axes : List Nat) (t : NDArray α) (idx : NDArray Int) : Option (NDArray α) := do
  let others := nonAxes axes t.shape.length
  let aSizes := arrange axes t.shape
  let bSizes := arrange others t.shape
  let k ← idx.shape.getLast?
  let batch := idx.shape.dropLast
  let rows := batch.prod
  let moved ← t.permute (axes ++ others)
  let t3 ← moved.reshape (aSizes.prod :: bSizes)
  let flatIdx ← idx.reshape [rows, k]
  -- `flat_idx[:, 0]` and `a_sizes[j]` for every j below k
  if 0 < k ∧ k ≤ aSizes.length then
    let lin ← (List.range rows).mapM fun i => (rowOf flatIdx k i).map (linear (aSizes.take k))
    let out ← takeRows t3 lin
    out.reshape (batch ++ bSizes)
  else none

/-- `apply`, for a tensor of dtype `d`. The complex path does not know the operation. -/
def applyGather (axes : List Nat) (d : Dtype) (t : NDArray α) (idx : NDArray Int) :
    Option (NDArray α) :=
  if d.isComplex then none else gather axes t idx

/-- Coordinates along `axes`, one for each place of the batch. -/
structure Coordinates (axes : List Nat) (t : NDArray α) (idx : NDArray Int) (batch : List Nat)
    (coords : List Nat → List Nat) : Prop where
  axes_some : axes ≠ []
  distinct : axes.Nodup
  low : ∀ a ∈ axes, a < t.shape.length
  shape : idx.shape = batch ++ [axes.length]
  entries : ∀ b, Inside batch b → ∀ j, j < axes.length →
    idx.get? (b ++ [j]) = (coords b)[j]?.map Int.ofNat
  inside : ∀ b, Inside batch b → Inside (arrange axes t.shape) (coords b)
  int32 : (arrange axes t.shape).prod < 2 ^ 31

section
variable {axes batch : List Nat} {t : NDArray α} {idx : NDArray Int} {coords : List Nat → List Nat}

theorem takeRows_ok {n : Nat} {dims : List Nat} (shape : t.shape = n :: dims) {places : List Nat}
    (low : ∀ p ∈ places, p < n) : ∃ out, takeRows t (places.map Int.ofNat) = some out ∧
      out.shape = places.length :: dims ∧ ∀ i p r, places[i]? = some p → Inside dims r →
        out.get? (i :: r) = t.get? (p :: r) := by
  have row {i p : Nat} (r : List Nat) (there : places[i]? = some p) :
      ((places.map Int.ofNat)[i]?.bind fun j =>
        let j := if j < 0 then j + (n : Int) else j
        if 0 ≤ j then t.get? (j.toNat :: r) else none) = t.get? (p :: r) := by
    have pos : ¬ (p : Int) < 0 := by omega
    simp [there, pos]
  obtain ⟨out, made⟩ : ∃ out, build ((places.map Int.ofNat).length :: dims) (fun idx => match idx with
      | [] => none
      | i :: r => (places.map Int.ofNat)[i]?.bind fun j =>
          let j := if j < 0 then j + (n : Int) else j
          if 0 ≤ j then t.get? (j.toNat :: r) else none) = some out := by
    refine build_ok fun idx inside => ?_
    cases idx with
    | nil => cases inside
    | cons i r =>
      obtain ⟨first, rest⟩ := inside
      rw [List.length_map] at first
      have there : places[i]? = some places[i] := List.getElem?_eq_getElem first
      dsimp only
      rw [row r there, get?_isSome, shape]
      exact ⟨low _ (List.getElem_mem first), rest⟩
  obtain ⟨dims', gets⟩ := build_eq.mp made
  rw [List.length_map] at dims'
  refine ⟨out, ?_, dims', fun i p r there inside => ?_⟩
  · rw [takeRows, shape]
    exact made
  · have first : i < places.length := (List.getElem?_eq_some_iff.mp there).1
    rw [gets (i :: r) ⟨by simpa using first, inside⟩]
    exact row r there

theorem offset_rows {b r dims : List Nat} (inside : Inside batch b) :
    offset (batch ++ dims) (b ++ r) = offset (batch.prod :: dims) (offset batch b :: r) := by
  rw [offset_append inside.length]
  rfl

theorem flat_rows (given : Coordinates axes t idx batch coords) {flat : NDArray Int}
    (reshaped : idx.reshape [batch.prod, axes.length] = some flat) {b : List Nat}
    (inside : Inside batch b) :
    rowOf flat axes.length (offset batch b) = some ((coords b).map Int.ofNat) := by
  have len : (coords b).length = axes.length := by
    rw [(given.inside b inside).length, arrange_count given.low]
  unfold rowOf
  rw [← len]
  refine range_mapM fun j c there => ?_
  have low : j < axes.length := by
    rw [← len]
    exact (List.getElem?_eq_some_iff.mp there).1
  have place : Inside idx.shape (b ++ [j]) := by
    rw [given.shape]
    exact (inside_append inside.length).mpr ⟨inside, low, trivial⟩
  have target : Inside [batch.prod, axes.length] [offset batch b, j] := ⟨offset_lt inside, low, trivial⟩
  have same : offset idx.shape (b ++ [j]) = offset [batch.prod, axes.length] [offset batch b, j] := by
    rw [given.shape]
    exact offset_rows inside
  rw [get?_reshape reshaped place target same, given.entries b inside j low, there]
  rfl

theorem position_ok (distinct : axes.Nodup) (low : ∀ a ∈ axes, a < t.shape.length) {c r : List Nat}
    (first : Inside (arrange axes t.shape) c)
    (rest : Inside (arrange (nonAxes axes t.shape.length) t.shape) r) :
    ∃ pos, Inside t.shape pos ∧ arrange axes pos = c ∧
    arrange (nonAxes axes t.shape.length) pos = r := by
  have order := axes_perm distinct low
  have both : Inside (arrange (axes ++ nonAxes axes t.shape.length) t.shape) (c ++ r) := by
    rw [arrange_append]
    exact (inside_append first.length).mpr ⟨first, rest⟩
  have pos := inside_restore order rfl both
  have len : (c ++ r).length = t.shape.length := both.length.trans (arrange_length order rfl)
  have back : arrange axes (restore (axes ++ nonAxes axes t.shape.length) t.shape.length (c ++ r)) ++
      arrange (nonAxes axes t.shape.length)
        (restore (axes ++ nonAxes axes t.shape.length) t.shape.length (c ++ r)) = c ++ r := by
    rw [← arrange_append]
    exact arrange_restore order len
  have count := (place_split distinct low pos).1
  obtain ⟨same, same'⟩ := List.append_inj back (count.trans first.length.symm)
  exact ⟨_, pos, same, same'⟩

theorem gather_ok (given : Coordinates axes t idx batch coords) : ∃ out, gather axes t idx = some out ∧
    out.shape = batch ++ arrange (nonAxes axes t.shape.length) t.shape ∧
      ∀ b pos, Inside batch b → Inside t.shape pos → arrange axes pos = coords b →
        out.get? (b ++ arrange (nonAxes axes t.shape.length) pos) = t.get? pos := by
  have order := axes_perm given.distinct given.low
  obtain ⟨moved, permuted, moved_shape, moved_get⟩ := permute_ok order
  rw [arrange_append] at moved_shape
  obtain ⟨t3, flattened⟩ : ∃ t3, moved.reshape ((arrange axes t.shape).prod ::
      arrange (nonAxes axes t.shape.length) t.shape) = some t3 := reshape_ok (by simp [moved_shape])
  obtain ⟨flat, reshaped⟩ : ∃ flat, idx.reshape [batch.prod, axes.length] = some flat :=
    reshape_ok (by simp [given.shape])
  have sizes : (arrange axes t.shape).length = axes.length := arrange_count given.low
  -- the linear indices, in the order of the batch
  have lin : (List.range batch.prod).mapM (fun i =>
      (rowOf flat axes.length i).map (linear (arrange axes t.shape))) =
      some (((indices batch).map fun b => offset (arrange axes t.shape) (coords b)).map Int.ofNat) := by
    rw [← indices_length, List.map_map]
    refine range_mapM fun i b there => ?_
    have inside := mem_indices.mp (List.mem_of_getElem? there)
    rw [← offset_of_get there, flat_rows given reshaped inside, Option.map_some,
      linear_offset (given.inside b inside) (Nat.le_of_lt given.int32)]
    rfl
  have low : ∀ p ∈ (indices batch).map (fun b => offset (arrange axes t.shape) (coords b)),
      p < (arrange axes t.shape).prod := by
    intro p mem
    obtain ⟨b, there, rfl⟩ := List.mem_map.mp mem
    exact offset_lt (given.inside b (mem_indices.mp there))
  obtain ⟨rows, taken, rows_shape, rows_get⟩ := takeRows_ok (reshape_shape flattened) low
  rw [List.length_map, indices_length] at rows_shape
  obtain ⟨out, split⟩ :
      ∃ out, rows.reshape (batch ++ arrange (nonAxes axes t.shape.length) t.shape) = some out :=
    reshape_ok (by simp [rows_shape])
  refine ⟨out, ?_, reshape_shape split, fun b pos inside at_pos same => ?_⟩
  · have some_axis : 0 < axes.length ∧ axes.length ≤ (arrange axes t.shape).length :=
      ⟨List.length_pos_of_ne_nil given.axes_some, Nat.le_of_eq sizes.symm⟩
    have whole : (arrange axes t.shape).take axes.length = arrange axes t.shape := by
      rw [← sizes, List.take_length]
    have last : idx.shape.getLast? = some axes.length := by rw [given.shape, List.getLast?_concat]
    have front : idx.shape.dropLast = batch := by rw [given.shape, List.dropLast_concat]
    simp only [gather, last, front, permuted, flattened, reshaped, some_axis, whole, lin, taken,
      Option.bind_eq_bind, Option.bind_some, and_self, if_true]
    exact split
  · obtain ⟨_, here, rest⟩ := place_split given.distinct given.low at_pos
    have count := here.length
    have batch_row : Inside (batch.prod :: arrange (nonAxes axes t.shape.length) t.shape)
        (offset batch b :: arrange (nonAxes axes t.shape.length) pos) := ⟨offset_lt inside, rest⟩
    have element_row : Inside
        ((arrange axes t.shape).prod :: arrange (nonAxes axes t.shape.length) t.shape)
        (offset (arrange axes t.shape)
        (arrange axes pos) :: arrange (nonAxes axes t.shape.length) pos) :=
      ⟨offset_lt here, rest⟩
    have spot : ((indices batch).map fun b => offset (arrange axes t.shape)
        (coords b))[offset batch b]? =
        some (offset (arrange axes t.shape) (arrange axes pos)) := by
      rw [List.getElem?_map, indices_get inside, same]
      rfl
    calc out.get? (b ++ arrange (nonAxes axes t.shape.length) pos)
        = rows.get? (offset batch b :: arrange (nonAxes axes t.shape.length) pos) :=
          get?_reshape split (rows_shape ▸ batch_row) ((inside_append inside.length).mpr ⟨inside, rest⟩)
            (rows_shape ▸ (offset_rows inside).symm)
      _ = t3.get? (offset (arrange axes t.shape) (arrange axes pos) ::
            arrange (nonAxes axes t.shape.length) pos) := rows_get _ _ _ spot rest
      _ = moved.get? (arrange axes pos ++ arrange (nonAxes axes t.shape.length) pos) :=
          get?_reshape flattened (moved_shape ▸ (inside_append count).mpr ⟨here, rest⟩) element_row
            (moved_shape ▸ offset_rows here)
      _ = t.get? pos := by rw [← arrange_append, moved_get pos at_pos]

/-- Gather takes, for each place of the batch, the elements at its coordinates. -/
theorem gather_coordinates (axes : List Nat) {d : Dtype} (real : d.isComplex = false)
    (given : Coordinates axes t idx batch coords) : ∃ out, applyGather axes d t idx = some out ∧
      out.shape = batch ++ arrange (nonAxes axes t.shape.length) t.shape ∧
        ∀ b r, Inside batch b → Inside (arrange (nonAxes axes t.shape.length) t.shape) r →
          ∃ pos, Inside t.shape pos ∧ arrange axes pos = coords b ∧
            arrange (nonAxes axes t.shape.length) pos = r ∧ out.get? (b ++ r) = t.get? pos := by
  obtain ⟨out, made, shape, gets⟩ := gather_ok given
  refine ⟨out, by rw [applyGather, real]; exact made, shape, fun b r inside rest => ?_⟩
  obtain ⟨pos, there, first, others⟩ :=
    position_ok given.distinct given.low (given.inside b inside) rest
  refine ⟨pos, there, first, others, ?_⟩
  rw [← others]
  exact gets b pos inside there first

end

def matrix : NDArray Nat := ⟨[2, 3], [1, 2, 3, 4, 5, 6], rfl⟩

def pair : NDArray Int := ⟨[2, 1], [1, 0], rfl⟩

theorem pair_coordinates : Coordinates [1] matrix pair [2] fun b => b.map (1 - ·) where
  axes_some := by decide
  distinct := by decide
  low := by decide
  shape := rfl
  entries b inside j low := by
    obtain rfl : j = 0 := by simpa using low
    have all : ∀ b ∈ indices [2], pair.get? (b ++ [0]) = (b.map (1 - ·))[0]?.map Int.ofNat := by decide
    exact all b (mem_indices.mpr inside)
  inside b inside := by
    have all : ∀ b ∈ indices [2], Inside (arrange [1] matrix.shape) (b.map (1 - ·)) := by decide
    exact all b (mem_indices.mpr inside)
  int32 := by decide

theorem pair_gathered : ∃ out, applyGather [1] .s32 matrix pair = some out ∧ out.shape = [2, 2] :=
  have ⟨out, made, shape, _⟩ := gather_coordinates [1] rfl pair_coordinates
  ⟨out, made, shape⟩

/-- A complex tensor has no gather. -/
theorem complex_gather_raises : Coordinates [1] matrix pair [2] (fun b => b.map (1 - ·)) ∧
    applyGather [1] .c64 matrix pair = none := ⟨pair_coordinates, rfl⟩

end NxTinygrad.Gather
