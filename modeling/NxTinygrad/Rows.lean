import NxTinygrad.Gather
import NxTinygrad.Lib.Broadcast

/- `indexed_put` and `gather` with one matrix of coordinates: what is written to the rows is what is read from
   them. -/
namespace NxTinygrad.Rows
open IR NDArray Reductions Scatter Gather

variable {α : Type} {A : Arith α} {axes : List Nat} {d : Dtype} {t upd upd' : NDArray α}
variable {idx : NDArray Int} {coords : List (List Nat)}

/-- The coordinates of row `i`, as the coordinates of a gather. -/
def rowCoords (coords : List (List Nat)) (b : List Nat) : List Nat := (coords[b.headD 0]?).getD []

theorem rowCoords_of {i : Nat} {c : List Nat} (there : coords[i]? = some c) : rowCoords coords [i] = c := by
  simp [rowCoords, there]

theorem row_of_inside {b : List Nat} (inside : Inside [coords.length] b) :
    ∃ i c, b = [i] ∧ coords[i]? = some c := by
  obtain ⟨i, rfl⟩ : ∃ i, b = [i] := List.length_eq_one_iff.mp inside.length
  have low : i < coords.length := inside.1
  exact ⟨i, coords[i], rfl, List.getElem?_eq_getElem low⟩

theorem coordinates_of_fit (fit : Fit A axes d d t idx upd coords)
    (small : (arrange axes t.shape).prod < 2 ^ 31) :
    Coordinates axes t idx [coords.length] (rowCoords coords) where
  axes_some := fit.axes_some
  distinct := fit.distinct
  low := fit.low
  shape := fit.shape
  entries b inside j low := by
    obtain ⟨i, c, rfl, there⟩ := row_of_inside inside
    obtain ⟨_, at_j⟩ := mapM_get (fit.rows i c there)
    have here := at_j j
    rw [List.getElem?_range low, Option.bind_some, List.getElem?_map] at here
    rw [rowCoords_of there]
    exact here.symm
  inside b inside := by
    obtain ⟨i, c, rfl, there⟩ := row_of_inside inside
    rw [rowCoords_of there]
    exact fit.inside c (List.mem_of_getElem? there)
  int32 := small

theorem typed_of_get (all : ∀ pos x, t.get? pos = some x → A.Typed d x) : ∀ x ∈ t.data, A.Typed d x := by
  intro x mem
  have there : some x ∈ t.data.map some := List.mem_map_of_mem mem
  rw [data_eq] at there
  obtain ⟨pos, -, here⟩ := List.mem_map.mp there
  exact all pos x here

theorem lastOr_or (x : α) (ws : List α) : lastOr x ws = x ∨ lastOr x ws ∈ ws := by
  unfold lastOr
  cases last : ws.getLast? with
  | none => exact Or.inl rfl
  | some w => exact Or.inr (List.mem_of_getLast? last)

theorem lastOr_of_ne (x y : α) {ws : List α} (some_update : ws ≠ []) : lastOr x ws = lastOr y ws := by
  unfold lastOr
  rw [List.getLast?_eq_some_getLast some_update]
  rfl

theorem lastOr_const {x : α} {ws : List α} (all : ∀ w ∈ ws, w = x) : lastOr x ws = x := by
  rcases lastOr_or x ws with same | mem
  · exact same
  · exact all _ mem

theorem put_entries (real : d.isComplex = false) (fit : Fit A axes d d t idx upd coords) :
    ∃ r, applyIndexed A .indexedPut axes d d d t idx upd = some r ∧ r.shape = t.shape ∧
      ∀ pos, Inside t.shape pos →
        r.get? pos = (t.get? pos).map fun x => lastOr x (updatesAt axes t upd coords pos) := by
  obtain ⟨out, made, shape, gets⟩ := indexed_ok fit .indexedPut
  refine ⟨out.map (A.cast d), by simp [applyIndexed, real, made], shape, fun pos inside => ?_⟩
  rw [get?_map, gets pos inside, Option.map_map]
  cases here : t.get? pos with
  | none => rfl
  | some x =>
    have typed : ∀ w ∈ updatesAt axes t upd coords pos, A.cast d w = w := by
      intro w mem
      obtain ⟨i, _, there⟩ := List.mem_filterMap.mp mem
      exact typed_get fit.updates_typed there
    have kept : (updatesAt axes t upd coords pos).map (A.cast d) = updatesAt axes t upd coords pos :=
      (List.map_congr_left typed).trans (List.map_id _)
    refine congrArg some ?_
    simp only [Function.comp_apply, joined, kept]
    rcases lastOr_or x (updatesAt axes t upd coords pos) with same | mem
    · rw [same]
      exact typed_get fit.target_typed here
    · exact typed _ mem

theorem row_update (fit : Fit A axes d d t idx upd coords) {pos : List Nat} (inside : Inside t.shape pos)
    {i : Nat} (there : coords[i]? = some (arrange axes pos)) :
    ∃ w, upd.get? (i :: arrange (nonAxes axes t.shape.length) pos) = some w := by
  have low := (List.getElem?_eq_some_iff.mp there).1
  have row : Inside upd.shape (i :: arrange (nonAxes axes t.shape.length) pos) := by
    rw [fit.updates]
    exact ⟨low, (place_split fit.distinct fit.low inside).2.2⟩
  exact Option.isSome_iff_exists.mp (get?_isSome.mpr row)

theorem mem_rowsAt {c : List Nat} {i : Nat} : i ∈ rowsAt coords c ↔ coords[i]? = some c := by
  unfold rowsAt
  rw [List.mem_filter, List.mem_range, decide_eq_true_eq]
  refine ⟨And.right, fun there => ⟨?_, there⟩⟩
  exact (List.getElem?_eq_some_iff.mp there).1

theorem updates_nil_iff (fit : Fit A axes d d t idx upd coords) {pos : List Nat}
    (inside : Inside t.shape pos) :
    updatesAt axes t upd coords pos = [] ↔ rowsAt coords (arrange axes pos) = [] := by
  unfold updatesAt
  constructor
  · intro none_there
    refine List.eq_nil_iff_forall_not_mem.mpr fun i mem => ?_
    obtain ⟨w, update⟩ := row_update fit inside (mem_rowsAt.mp mem)
    have reached := List.filterMap_eq_nil_iff.mp none_there i mem
    rw [update] at reached
    cases reached
  · intro no_rows
    rw [no_rows, List.filterMap_nil]

theorem put_gather (real : d.isComplex = false) (fit : Fit A axes d d t idx upd coords)
    (small : (arrange axes t.shape).prod < 2 ^ 31) (distinct : coords.Nodup) {r : NDArray α}
    (put : applyIndexed A .indexedPut axes d d d t idx upd = some r) :
    applyGather axes d r idx = some upd := by
  obtain ⟨r', made, shape, gets⟩ := put_entries real fit
  obtain rfl := Option.some.inj (made.symm.trans put)
  have given : Coordinates axes r' idx [coords.length] (rowCoords coords) :=
    have base := coordinates_of_fit fit small
    ⟨base.axes_some, base.distinct, shape ▸ base.low, base.shape, base.entries, shape ▸ base.inside,
      shape ▸ base.int32⟩
  obtain ⟨out, gathered, out_shape, out_get⟩ := gather_ok given
  rw [shape] at out_shape out_get
  suffices same : out = upd by
    rw [applyGather, real, ← same]
    exact gathered
  refine ext_get (out_shape.trans fit.updates.symm) fun b inside => ?_
  rw [out_shape] at inside
  cases b with
  | nil => cases inside
  | cons i rest =>
    obtain ⟨low, rest_inside⟩ := inside
    have there : coords[i]? = some coords[i] := List.getElem?_eq_getElem low
    obtain ⟨pos, pos_inside, first, others⟩ :=
      position_ok fit.distinct fit.low (fit.inside _ (List.mem_of_getElem? there)) rest_inside
    obtain ⟨x, here⟩ := Option.isSome_iff_exists.mp (get?_isSome.mpr pos_inside)
    obtain ⟨w, update⟩ := row_update fit pos_inside (first.symm ▸ there)
    have only : updatesAt axes t upd coords pos = [w] := by
      rw [updatesAt, first, rowsAt_one distinct there]
      simp [update]
    have one_row : Inside [coords.length] [i] := ⟨low, trivial⟩
    calc out.get? (i :: rest)
        = out.get? ([i] ++ arrange (nonAxes axes t.shape.length) pos) := by rw [others]; rfl
      _ = r'.get? pos := out_get [i] pos one_row pos_inside (first.trans (rowCoords_of there).symm)
      _ = some w := by rw [gets pos pos_inside, here, only]; rfl
      _ = upd.get? (i :: rest) := by rw [← others, update]

theorem gathered_fit (fit : Fit A axes d d t idx upd coords)
    (small : (arrange axes t.shape).prod < 2 ^ 31) {part : NDArray α}
    (taken : gather axes t idx = some part) :
    Fit A axes d d t idx part coords ∧ ∀ i pos, Inside t.shape pos →
      coords[i]? = some (arrange axes pos) →
        part.get? (i :: arrange (nonAxes axes t.shape.length) pos) = t.get? pos := by
  obtain ⟨out, gathered, shape, gets⟩ := gather_ok (coordinates_of_fit fit small)
  obtain rfl := Option.some.inj (gathered.symm.trans taken)
  have entry : ∀ i pos, Inside t.shape pos → coords[i]? = some (arrange axes pos) →
      out.get? (i :: arrange (nonAxes axes t.shape.length) pos) = t.get? pos := by
    intro i pos inside there
    have low := (List.getElem?_eq_some_iff.mp there).1
    exact gets [i] pos ⟨low, trivial⟩ inside (rowCoords_of there).symm
  refine ⟨{ fit with updates := shape, updates_typed := typed_of_get fun b x here => ?_ }, entry⟩
  have inside := get?_isSome.mp (Option.isSome_iff_exists.mpr ⟨x, here⟩)
  rw [shape] at inside
  cases b with
  | nil => cases inside
  | cons i rest =>
    obtain ⟨low, rest_inside⟩ := inside
    have there : coords[i]? = some coords[i] := List.getElem?_eq_getElem low
    obtain ⟨pos, pos_inside, first, others⟩ :=
      position_ok fit.distinct fit.low (fit.inside _ (List.mem_of_getElem? there)) rest_inside
    have origin := entry i pos pos_inside (first.symm ▸ there)
    rw [others, here] at origin
    exact typed_get fit.target_typed origin.symm

theorem gather_put (real : d.isComplex = false) (fit : Fit A axes d d t idx upd coords)
    (small : (arrange axes t.shape).prod < 2 ^ 31) {part : NDArray α}
    (taken : applyGather axes d t idx = some part) :
    applyIndexed A .indexedPut axes d d d t idx part = some t := by
  rw [applyGather, real] at taken
  obtain ⟨fit', origin⟩ := gathered_fit fit small taken
  obtain ⟨r, made, shape, gets⟩ := put_entries real fit'
  suffices same : r = t by rw [made, same]
  refine ext_get shape fun pos inside => ?_
  rw [shape] at inside
  rw [gets pos inside]
  cases here : t.get? pos with
  | none => rfl
  | some x =>
    refine congrArg some (lastOr_const fun w mem => ?_)
    obtain ⟨i, row, update⟩ := List.mem_filterMap.mp mem
    rw [origin i pos inside (mem_rowsAt.mp row), here] at update
    exact (Option.some.inj update).symm

theorem put_put (real : d.isComplex = false) (fit : Fit A axes d d t idx upd coords)
    (fit' : Fit A axes d d t idx upd' coords) {r : NDArray α}
    (first : applyIndexed A .indexedPut axes d d d t idx upd = some r) :
    applyIndexed A .indexedPut axes d d d r idx upd' =
      applyIndexed A .indexedPut axes d d d t idx upd' := by
  obtain ⟨r', made, shape, gets⟩ := put_entries real fit
  obtain rfl := Option.some.inj (made.symm.trans first)
  obtain ⟨last, made', shape', gets'⟩ := put_entries real fit'
  have typed : ∀ x ∈ r'.data, A.Typed d x := by
    refine typed_of_get fun pos x here => ?_
    have inside := shape ▸ get?_isSome.mp (Option.isSome_iff_exists.mpr ⟨x, here⟩)
    rw [gets pos inside] at here
    obtain ⟨y, there, rfl⟩ := Option.map_eq_some_iff.mp here
    rcases lastOr_or y (updatesAt axes t upd coords pos) with same | mem
    · rw [same]
      exact typed_get fit.target_typed there
    · obtain ⟨i, _, update⟩ := List.mem_filterMap.mp mem
      exact typed_get fit.updates_typed update
  have again : Fit A axes d d r' idx upd' coords :=
    { fit' with
      low := shape ▸ fit'.low
      inside := shape ▸ fit'.inside
      updates := shape ▸ fit'.updates
      target_typed := typed
      int32 := shape ▸ fit'.int32 }
  obtain ⟨both, made'', shape'', gets''⟩ := put_entries real again
  rw [made', made'']
  refine congrArg some (ext_get (shape''.trans (shape.trans shape'.symm)) fun pos inside => ?_)
  rw [shape'', shape] at inside
  have same_updates : updatesAt axes r' upd' coords pos = updatesAt axes t upd' coords pos := by
    rw [updatesAt, shape, updatesAt]
  rw [gets'' pos (shape ▸ inside), gets pos inside, gets' pos inside, same_updates, Option.map_map]
  refine congrArg (Option.map · (t.get? pos)) (funext fun x => ?_)
  by_cases none_there : rowsAt coords (arrange axes pos) = []
  · rw [Function.comp_apply, (updates_nil_iff fit inside).mpr none_there,
      (updates_nil_iff fit' inside).mpr none_there]
    rfl
  · exact lastOr_of_ne _ _ fun none_there' => none_there ((updates_nil_iff fit' inside).mp none_there')

/-- The rows that `indexed_put` writes are the rows that `gather` reads at the same coordinates: what was
    written is read, rows read and put back change nothing, and of two puts the later one counts. -/
theorem rows_laws (A : Arith α) (real : d.isComplex = false) (fit : Fit A axes d d t idx upd coords)
    (small : (arrange axes t.shape).prod < 2 ^ 31) :
    (∃ r, applyIndexed A .indexedPut axes d d d t idx upd = some r ∧
      (coords.Nodup → applyGather axes d r idx = some upd) ∧
      ∀ upd', Fit A axes d d t idx upd' coords →
        applyIndexed A .indexedPut axes d d d r idx upd' =
          applyIndexed A .indexedPut axes d d d t idx upd') ∧
    ∃ part, applyGather axes d t idx = some part ∧
      applyIndexed A .indexedPut axes d d d t idx part = some t := by
  obtain ⟨r, made, -⟩ := put_entries real fit
  obtain ⟨part, taken, -⟩ := gather_ok (coordinates_of_fit fit small)
  have read : applyGather axes d t idx = some part := by rw [applyGather, real]; exact taken
  refine ⟨⟨r, made, fun distinct => put_gather real fit small distinct made, fun upd' fit' => ?_⟩,
    part, read, gather_put real fit small read⟩
  exact put_put real fit fit' made

def grid : NDArray Int := ⟨[2, 3], [3, 1, 4, 1, 5, 9], rfl⟩

def places : NDArray Int := ⟨[2, 1], [2, 0], rfl⟩

def columns : NDArray Int := ⟨[2, 2], [7, 8, 2, 6], rfl⟩

theorem columns_fit : Fit integers [1] .s32 .s32 grid places columns [[2], [0]] where
  axes_some := by decide
  distinct := by decide
  low := by decide
  shape := rfl
  rows i c there := by
    have all : ∀ i < 2, ∀ c ∈ [[2], [0]], [[2], [0]][i]? = some c →
        rowOf places 1 i = some (c.map Int.ofNat) := by decide
    exact all i (List.getElem?_eq_some_iff.mp there).1 c (List.mem_of_getElem? there) there
  inside := by decide
  updates := rfl
  target_typed := by
    unfold Arith.Typed
    decide
  updates_typed := by
    unfold Arith.Typed
    decide
  int32 := by decide

theorem columns_return : ∃ r, applyIndexed integers .indexedPut [1] .s32 .s32 .s32 grid places columns =
    some r ∧ r.data = [2, 1, 7, 6, 5, 8] ∧ applyGather [1] .s32 r places = some columns := by
  obtain ⟨⟨r, made, returned, -⟩, -⟩ := rows_laws integers rfl columns_fit (by decide)
  have run : (applyIndexed integers .indexedPut [1] .s32 .s32 .s32 grid places columns).map NDArray.data =
      some [2, 1, 7, 6, 5, 8] := by decide
  rw [made] at run
  exact ⟨r, made, Option.some.inj run, returned (by decide)⟩

end NxTinygrad.Rows
