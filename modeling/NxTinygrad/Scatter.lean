import NxTinygrad.Reductions

/- `_indexed` of operations.py: `indexed_add` and `indexed_put` as a scatter along the indexed axes
   made one. How a dtype converts and adds up values is a parameter. -/
namespace NxTinygrad.Scatter
open IR NDArray Reductions

/-- `cast` converts a value to a dtype; the values of a dtype are those it keeps. `total` is an
    element and what `scatter_reduce` adds to it, in the dtype of the element. -/
structure Arith (α : Type) where
  cast : Dtype → α → α
  total : Dtype → α → List α → α
  cast_cast : ∀ d x, cast d (cast d x) = cast d x

variable {α : Type}

def Arith.Typed (A : Arith α) (d : Dtype) (x : α) : Prop := A.cast d x = x

def wrap32 (z : Int) : Int := z.bmod (2 ^ 32)

def stridesOf : List Nat → List Nat
  | [] => []
  | _ :: ds => ds.prod :: stridesOf ds

def linear (sizes : List Nat) (row : List Int) : Int :=
  (List.zipWith (fun c (s : Nat) => wrap32 (wrap32 c * s)) row (stridesOf sizes)).foldl
    (fun acc x => wrap32 (acc + x)) 0

def rowOf (idx : NDArray Int) (n i : Nat) : Option (List Int) :=
  (List.range n).mapM fun j => idx.get? [i, j]

def hits (lin : List Int) (j : Nat) : List Nat :=
  (List.range lin.length).filter fun i => lin[i]? = some (j : Int)

/-- Each element of `t` with the elements of `src` that go to it; row `i` of `src` goes to row
    `lin[i]`. -/
def scatterWith (f : α → List α → α) (t src : NDArray α) (lin : List Int) : Option (NDArray α) :=
  build t.shape fun idx => match idx with
    | [] => none
    | j :: b => (t.get? (j :: b)).map fun x => f x ((hits lin j).filterMap fun i => src.get? (i :: b))

/-- `t.scatter_reduce(0, index, src, reduce="sum", include_self=True)`, where row `i` of `index` is
    `lin[i]` throughout. -/
def scatterSum (A : Arith α) (d : Dtype) : NDArray α → NDArray α → List Int → Option (NDArray α) :=
  scatterWith (A.total d)

def lastOr (x : α) (ws : List α) : α := ws.getLast?.getD x

def scatterLast : NDArray α → NDArray α → List Int → Option (NDArray α) := scatterWith lastOr

def indexed (A : Arith α) (op : IndexedOp) (axes : List Nat) (d : Dtype) (t : NDArray α)
    (idx : NDArray Int) (upd : NDArray α) : Option (NDArray α) := do
  let others := nonAxes axes t.shape.length
  let aSizes := arrange axes t.shape
  let bSizes := arrange others t.shape
  let rows ← idx.shape.head?
  let moved ← t.permute (axes ++ others)
  let t2 ← moved.reshape (aSizes.prod :: bSizes)
  let lin ← (List.range rows).mapM fun i => (rowOf idx axes.length i).map (linear aSizes)
  let src ← (upd.reshape (rows :: bSizes)).map (·.map (A.cast d))
  let out ← match op with
    | .indexedAdd => scatterSum A d t2 src lin
    | .indexedPut => scatterLast t2 src lin
  let out ← out.reshape (aSizes ++ bSizes)
  out.permute (inverse (axes ++ others) t.shape.length)

/-- `apply`, for a node of dtype `p`. The complex path knows neither operation. -/
def applyIndexed (A : Arith α) (op : IndexedOp) (axes : List Nat) (d u p : Dtype) (t : NDArray α)
    (idx : NDArray Int) (upd : NDArray α) : Option (NDArray α) :=
  if p.isComplex || d.isComplex || u.isComplex then none
  else (indexed A op axes d t idx upd).map (·.map (A.cast p))

/-- What Nx promises for the coordinates and the updates. -/
structure Fit (A : Arith α) (axes : List Nat) (d u : Dtype) (t : NDArray α) (idx : NDArray Int)
    (upd : NDArray α) (coords : List (List Nat)) : Prop where
  axes_some : axes ≠ []
  distinct : axes.Nodup
  low : ∀ a ∈ axes, a < t.shape.length
  shape : idx.shape = [coords.length, axes.length]
  rows : ∀ i c, coords[i]? = some c → rowOf idx axes.length i = some (c.map Int.ofNat)
  inside : ∀ c ∈ coords, Inside (arrange axes t.shape) c
  updates : upd.shape = coords.length :: arrange (nonAxes axes t.shape.length) t.shape
  target_typed : ∀ x ∈ t.data, A.Typed d x
  updates_typed : ∀ x ∈ upd.data, A.Typed u x
  int32 : (arrange axes t.shape).prod ≤ 2 ^ 31

theorem wrap32_small {n : Nat} (low : n < 2 ^ 31) : wrap32 n = n := by
  unfold wrap32
  rw [Int.bmod_eq_of_le_mul_two] <;> omega

theorem inside_prod : ∀ {shape idx : List Nat}, Inside shape idx → 0 < shape.prod
  | [], [], _ => Nat.one_pos
  | _ :: _, _ :: _, inside => by
    rw [List.prod_cons]
    exact Nat.mul_pos (Nat.lt_of_le_of_lt (Nat.zero_le _) inside.1) (inside_prod inside.2)

theorem linear_from : ∀ {sizes c : List Nat} {acc : Nat}, Inside sizes c →
    acc + offset sizes c < 2 ^ 31 →
    (List.zipWith (fun c (s : Nat) => wrap32 (wrap32 c * s)) (c.map Int.ofNat) (stridesOf sizes)).foldl
      (fun acc x => wrap32 (acc + x)) (acc : Int) = (acc + offset sizes c : Nat)
  | [], [], acc, _, _ => rfl
  | d :: ds, i :: is, acc, inside, small => by
    have rest := inside_prod inside.2
    have first : i ≤ i * ds.prod := Nat.le_mul_of_pos_right i rest
    simp only [offset] at small ⊢
    have here : wrap32 (wrap32 (i : Int) * ds.prod) = (i * ds.prod : Nat) := by
      rw [wrap32_small (by omega), ← Int.natCast_mul, wrap32_small (by omega)]
    have sum : wrap32 ((acc : Int) + (i * ds.prod : Nat)) = (acc + i * ds.prod : Nat) := by
      rw [← Int.natCast_add, wrap32_small (by omega)]
    have later := @linear_from ds is (acc + i * ds.prod) inside.2 (by omega)
    simp only [List.map_cons, stridesOf, List.zipWith_cons_cons, List.foldl_cons, Int.ofNat_eq_natCast]
    rw [here, sum]
    rw [Nat.add_assoc] at later
    exact later

theorem linear_offset {sizes c : List Nat} (inside : Inside sizes c) (small : sizes.prod ≤ 2 ^ 31) :
    linear sizes (c.map Int.ofNat) = offset sizes c := by
  have low := offset_lt inside
  have all := @linear_from sizes c 0 inside (by omega)
  simpa [linear] using all

theorem hits_map {β : Type} (f : β → Int) (g : β → α) (l : List β) (j : Nat) :
    (hits (l.map f) j).filterMap (fun i => (l.map g)[i]?) = (l.filter fun b => f b = j).map g := by
  have each : ∀ i ∈ List.range l.length,
      (if (l.map f)[i]? = some (j : Int) then (l.map g)[i]? else none) =
      l[i]?.bind fun b => if f b = j then some (g b) else none := by
    intro i _
    cases there : l[i]? with
    | none => simp [there]
    | some b => simp [there]
  have all : l.filterMap (fun b => if f b = j then some (g b) else none) =
      (l.filter fun b => f b = j).map g := by
    clear each
    induction l with
    | nil => rfl
    | cons b rest ih =>
      by_cases here : f b = j
      · rw [List.filterMap_cons, if_pos here, List.filter_cons_of_pos (by simpa using here),
          List.map_cons, ih]
      · rw [List.filterMap_cons, if_neg here, List.filter_cons_of_neg (by simpa using here), ih]
  rw [← all, ← range_filterMap (fun b => if f b = j then some (g b) else none) l,
    ← List.filterMap_congr each, hits, List.length_map, List.filterMap_filter]
  simp

def rowsAt (coords : List (List Nat)) (c : List Nat) : List Nat :=
  (List.range coords.length).filter fun i => coords[i]? = some c

theorem hits_rows {sizes c : List Nat} {coords : List (List Nat)} (inside : Inside sizes c)
    (all : ∀ c ∈ coords, Inside sizes c) :
    hits (coords.map fun c => (offset sizes c : Int)) (offset sizes c) = rowsAt coords c := by
  unfold hits rowsAt
  rw [List.length_map]
  refine List.filter_congr fun i _ => ?_
  rw [List.getElem?_map, decide_eq_decide]
  cases there : coords[i]? with
  | none => simp
  | some c' =>
    have inside' := all c' (List.mem_of_getElem? there)
    simp only [Option.map_some, Option.some.injEq, Int.natCast_inj]
    exact ⟨fun same => offset_inj inside' inside same, fun same => same ▸ rfl⟩

theorem axes_perm {axes : List Nat} {rank : Nat} (distinct : axes.Nodup) (low : ∀ a ∈ axes, a < rank) :
    (axes ++ nonAxes axes rank).Perm (List.range rank) := by
  have mine : axes.Perm ((List.range rank).filter fun a => !decide (a ∉ axes)) := by
    refine (List.perm_ext_iff_of_nodup distinct (List.nodup_range.filter _)).mpr fun a => ?_
    have := low a
    simp
    tauto
  refine (mine.append_right _).trans (List.perm_append_comm.trans ?_)
  exact List.filter_append_perm (fun a => decide (a ∉ axes)) _

theorem arrange_append (axes axes' idx : List Nat) :
    arrange (axes ++ axes') idx = arrange axes idx ++ arrange axes' idx := List.filterMap_append

section run
variable {A : Arith α} {axes : List Nat} {d u p : Dtype} {t upd : NDArray α} {idx : NDArray Int}
variable {coords : List (List Nat)}

def joined (A : Arith α) (op : IndexedOp) (d : Dtype) : α → List α → α :=
  match op with
  | .indexedAdd => A.total d
  | .indexedPut => lastOr

def updatesAt (axes : List Nat) (t upd : NDArray α) (coords : List (List Nat))
    (pos : List Nat) : List α :=
  (rowsAt coords (arrange axes pos)).filterMap fun i =>
    upd.get? (i :: arrange (nonAxes axes t.shape.length) pos)

theorem scatterWith_ok (f : α → List α → α) {t2 : NDArray α} (src : NDArray α)
    (lin : List Int) {n : Nat}
    {dims : List Nat} (shape : t2.shape = n :: dims) : ∃ out, scatterWith f t2 src lin = some out ∧
      out.shape = n :: dims ∧ ∀ j b, Inside (n :: dims) (j :: b) → out.get? (j :: b) =
        (t2.get? (j :: b)).map fun x => f x ((hits lin j).filterMap fun i => src.get? (i :: b)) := by
  obtain ⟨out, made⟩ : ∃ out, scatterWith f t2 src lin = some out := by
    refine build_ok fun idx inside => ?_
    cases idx with
    | nil => simp [shape, Inside] at inside
    | cons j b => simpa using get?_isSome.mpr inside
  obtain ⟨dims', gets⟩ := build_eq.mp made
  exact ⟨out, made, dims'.trans shape, fun j b inside => gets (j :: b) (shape ▸ inside)⟩

theorem arrange_count {axes idx : List Nat} (low : ∀ a ∈ axes, a < idx.length) :
    (arrange axes idx).length = axes.length :=
  filterMap_length fun a mem => by simpa using low a mem

theorem place_split {axes pos shape : List Nat} (distinct : axes.Nodup)
    (low : ∀ a ∈ axes, a < shape.length)
    (inside : Inside shape pos) : (arrange axes pos).length = (arrange axes shape).length ∧
      Inside (arrange axes shape) (arrange axes pos) ∧
      Inside (arrange (nonAxes axes shape.length) shape) (arrange (nonAxes axes shape.length) pos) := by
  have place := inside_arrange (axes_perm distinct low) rfl inside
  rw [arrange_append, arrange_append] at place
  have count : (arrange axes pos).length = (arrange axes shape).length := by
    rw [arrange_count (inside.length ▸ low), arrange_count low]
  exact ⟨count, (inside_append count).mp place⟩

theorem indexed_ok (fit : Fit A axes d u t idx upd coords) (op : IndexedOp) :
    ∃ out, indexed A op axes d t idx upd = some out ∧ out.shape = t.shape ∧
      ∀ pos, Inside t.shape pos → out.get? pos = (t.get? pos).map fun x =>
        joined A op d x ((updatesAt axes t upd coords pos).map (A.cast d)) := by
  have order := axes_perm fit.distinct fit.low
  obtain ⟨moved, permuted, moved_shape, moved_get⟩ := permute_ok order
  rw [arrange_append] at moved_shape
  obtain ⟨t2, flattened⟩ : ∃ t2, moved.reshape ((arrange axes t.shape).prod ::
      arrange (nonAxes axes t.shape.length) t.shape) = some t2 := reshape_ok (by simp [moved_shape])
  have lin : (List.range coords.length).mapM (fun i =>
      (rowOf idx axes.length i).map (linear (arrange axes t.shape))) =
      some (coords.map fun c => (offset (arrange axes t.shape) c : Int)) := by
    refine range_mapM fun i c there => ?_
    rw [fit.rows i c there, Option.map_some,
      linear_offset (fit.inside c (List.mem_of_getElem? there)) fit.int32]
  have updates : upd.reshape (coords.length :: arrange (nonAxes axes t.shape.length) t.shape) =
      some upd := by
    rw [← fit.updates, reshape_self]
  obtain ⟨out, scattered, out_shape, out_get⟩ := scatterWith_ok (joined A op d) (upd.map (A.cast d))
    (coords.map fun c => (offset (arrange axes t.shape) c : Int)) (reshape_shape flattened)
  obtain ⟨split, unflattened⟩ : ∃ split, out.reshape (arrange axes t.shape ++
      arrange (nonAxes axes t.shape.length) t.shape) = some split := reshape_ok (by simp [out_shape])
  obtain ⟨back, restored, back_shape, back_get⟩ := permute_back order
    ((reshape_shape unflattened).trans (arrange_append ..).symm)
  refine ⟨back, ?_, back_shape, fun pos inside => ?_⟩
  · have chosen : (match op with
        | .indexedAdd => scatterSum A d t2 (upd.map (A.cast d))
            (coords.map fun c => (offset (arrange axes t.shape) c : Int))
        | .indexedPut => scatterLast t2 (upd.map (A.cast d))
            (coords.map fun c => (offset (arrange axes t.shape) c : Int))) = some out := by
      cases op <;> exact scattered
    have rows : idx.shape.head? = some coords.length := by rw [fit.shape]; rfl
    simp only [indexed, rows, permuted, flattened, lin, updates, Option.map_some, Option.bind_eq_bind,
      Option.bind_some]
    cases op <;> simp [chosen, unflattened, restored]
  · obtain ⟨count, here, rest⟩ := place_split fit.distinct fit.low inside
    have place := (inside_append count).mpr ⟨here, rest⟩
    have flat : Inside ((arrange axes t.shape).prod :: arrange (nonAxes axes t.shape.length) t.shape)
        (offset (arrange axes t.shape) (arrange axes pos) ::
          arrange (nonAxes axes t.shape.length) pos) := ⟨offset_lt here, rest⟩
    have same : offset (arrange axes t.shape ++ arrange (nonAxes axes t.shape.length) t.shape)
        (arrange axes pos ++ arrange (nonAxes axes t.shape.length) pos) =
        offset ((arrange axes t.shape).prod :: arrange (nonAxes axes t.shape.length) t.shape)
          (offset (arrange axes t.shape) (arrange axes pos) ::
            arrange (nonAxes axes t.shape.length) pos) := offset_append count
    have first : t2.get? (offset (arrange axes t.shape) (arrange axes pos) ::
        arrange (nonAxes axes t.shape.length) pos) = t.get? pos := by
      rw [← moved_get pos inside, arrange_append]
      exact get?_reshape flattened (moved_shape ▸ place) flat (moved_shape ▸ same)
    have last : split.get? (arrange axes pos ++ arrange (nonAxes axes t.shape.length) pos) =
        out.get? (offset (arrange axes t.shape) (arrange axes pos) ::
          arrange (nonAxes axes t.shape.length) pos) :=
      get?_reshape unflattened (out_shape ▸ flat) place (out_shape ▸ same.symm)
    rw [back_get pos inside, arrange_append, last, out_get _ _ flat, first, hits_rows here fit.inside]
    refine congrArg (Option.map · (t.get? pos)) (funext fun x => congrArg _ ?_)
    rw [updatesAt, List.map_filterMap]
    exact List.filterMap_congr fun i _ => get?_map _ _ _

end run

def Real (d u p : Dtype) : Prop := d.isComplex = false ∧ u.isComplex = false ∧ p.isComplex = false

/-- `indexed_add`: in dtype `p`, each element plus all updates for its position. -/
def AddsUp (A : Arith α) (d u p : Dtype) : Prop :=
  ∀ (axes : List Nat) (t : NDArray α) (idx : NDArray Int) (upd : NDArray α) (coords : List (List Nat)),
    Fit A axes d u t idx upd coords → ∃ r, applyIndexed A .indexedAdd axes d u p t idx upd = some r ∧
      r.shape = t.shape ∧ ∀ pos, Inside t.shape pos → r.get? pos = (t.get? pos).map fun x =>
        A.cast p (A.total p (A.cast p x) ((updatesAt axes t upd coords pos).map (A.cast p)))

/-- `indexed_put`: in dtype `p`, the update of a position that has one, the element elsewhere. -/
def Puts (A : Arith α) (d u p : Dtype) : Prop :=
  ∀ (axes : List Nat) (t : NDArray α) (idx : NDArray Int) (upd : NDArray α) (coords : List (List Nat)),
    Fit A axes d u t idx upd coords → coords.Nodup →
    ∃ r, applyIndexed A .indexedPut axes d u p t idx upd = some r ∧
      r.shape = t.shape ∧ ∀ pos, Inside t.shape pos →
        (∀ i, coords[i]? = some (arrange axes pos) → r.get? pos =
          (upd.get? (i :: arrange (nonAxes axes t.shape.length) pos)).map (A.cast p)) ∧
        (arrange axes pos ∉ coords → r.get? pos = (t.get? pos).map (A.cast p))

/-- Adding up in the target's dtype and converting the sum is adding up in the other. -/
def SumsSurvive (A : Arith α) (d u p : Dtype) : Prop :=
  ∀ (x : α) (us : List α), A.Typed d x → (∀ w ∈ us, A.Typed u w) →
    A.cast p (A.total d x (us.map (A.cast d))) = A.cast p (A.total p (A.cast p x) (us.map (A.cast p)))

/-- Updates survive the detour through the target's dtype. -/
def UpdatesSurvive (A : Arith α) (d u p : Dtype) : Prop :=
  ∀ w, A.Typed u w → A.cast p (A.cast d w) = A.cast p w

section laws
variable {A : Arith α} {axes : List Nat} {d u p : Dtype} {t upd : NDArray α} {idx : NDArray Int}
variable {coords : List (List Nat)}

theorem real_iff : Real d u p ↔ (p.isComplex || d.isComplex || u.isComplex) = false := by
  simp only [Real, Bool.or_eq_false_iff]
  tauto

theorem rowsAt_one (distinct : coords.Nodup) {i : Nat} {c : List Nat} (there : coords[i]? = some c) :
    rowsAt coords c = [i] := by
  have low : i < coords.length := (List.getElem?_eq_some_iff.mp there).1
  have only : ∀ k ∈ List.range coords.length, decide (coords[k]? = some c) = (k == i) := by
    intro k mem
    have low' := List.mem_range.mp mem
    rw [Bool.eq_iff_iff, decide_eq_true_eq, beq_iff_eq]
    constructor
    · intro here
      exact (List.getElem?_inj low' distinct).mp (here.trans there.symm)
    · rintro rfl
      exact there
  rw [rowsAt, List.filter_congr only, List.filter_beq,
    List.count_eq_one_of_mem List.nodup_range (List.mem_range.mpr low)]
  rfl

theorem rowsAt_none {c : List Nat} (absent : c ∉ coords) : rowsAt coords c = [] := by
  refine List.filter_eq_nil_iff.mpr fun i _ there => absent ?_
  exact List.mem_of_getElem? (by simpa using there)

theorem typed_get (all : ∀ x ∈ t.data, A.Typed d x) {pos : List Nat} {x : α}
    (here : t.get? pos = some x) :
    A.Typed d x := by
  unfold get? at here
  split at here
  · exact all x (List.mem_of_getElem? here)
  · cases here

theorem adds_up (real : Real d u p) (survive : SumsSurvive A d u p) : AddsUp A d u p := by
  intro axes t idx upd coords fit
  obtain ⟨out, made, shape, gets⟩ := indexed_ok fit .indexedAdd
  refine ⟨out.map (A.cast p), by rw [applyIndexed, real_iff.mp real, made]; rfl, shape,
    fun pos inside => ?_⟩
  rw [get?_map, gets pos inside, Option.map_map]
  cases here : t.get? pos with
  | none => rfl
  | some x =>
    refine congrArg some (survive x _ (typed_get fit.target_typed here) fun w mem => ?_)
    obtain ⟨i, _, there⟩ := List.mem_filterMap.mp mem
    exact typed_get fit.updates_typed there

theorem puts (real : Real d u p) (survive : UpdatesSurvive A d u p) : Puts A d u p := by
  intro axes t idx upd coords fit distinct
  obtain ⟨out, made, shape, gets⟩ := indexed_ok fit .indexedPut
  refine ⟨out.map (A.cast p), by rw [applyIndexed, real_iff.mp real, made]; rfl, shape,
    fun pos inside => ?_⟩
  obtain ⟨x, here⟩ := Option.isSome_iff_exists.mp (get?_isSome.mpr inside)
  rw [get?_map, gets pos inside, here, updatesAt]
  refine ⟨fun i there => ?_, fun absent => ?_⟩
  · have low := (List.getElem?_eq_some_iff.mp there).1
    have row : Inside upd.shape (i :: arrange (nonAxes axes t.shape.length) pos) := by
      rw [fit.updates]
      exact ⟨low, (place_split fit.distinct fit.low inside).2.2⟩
    obtain ⟨w, update⟩ := Option.isSome_iff_exists.mp (get?_isSome.mpr row)
    have kept := survive w (typed_get fit.updates_typed update)
    simp [rowsAt_one distinct there, update, joined, lastOr, kept]
  · rw [rowsAt_none absent]
    rfl

def vector (l : List α) : NDArray α := ⟨[l.length], l, by simp⟩

def column (count : Nat) : NDArray Int := ⟨[count, 1], List.replicate count 0, by simp⟩

theorem vector_get (l : List α) (i : Nat) : (vector l).get? [i] = l[i]? := by
  unfold get? vector
  split
  · simp [offset]
  · rename_i outside
    simp only [Inside, and_true, Nat.not_lt] at outside
    exact (List.getElem?_eq_none outside).symm

theorem column_row {count i : Nat} (low : i < count) : rowOf (column count) 1 i = some [0] := by
  have inside : Inside (column count).shape [i, 0] := ⟨low, Nat.one_pos, trivial⟩
  have here : (column count).get? [i, 0] = some 0 := by
    rw [get?_eq inside]
    simp [column, offset, low]
  simp [rowOf, List.range_succ, here]

theorem one_fit {x : α} {us : List α} (typed : A.Typed d x) (typed' : ∀ w ∈ us, A.Typed u w) :
    Fit A [0] d u (vector [x]) (column us.length) (vector us) (List.replicate us.length [0]) where
  axes_some := by simp
  distinct := by simp
  low := by simp [vector]
  shape := by simp [column]
  rows i c there := by
    rw [List.eq_of_mem_replicate (List.mem_of_getElem? there)]
    have low := (List.getElem?_eq_some_iff.mp there).1
    rw [List.length_replicate] at low
    exact column_row low
  inside c mem := by
    rw [List.eq_of_mem_replicate mem]
    exact ⟨Nat.one_pos, trivial⟩
  updates := by
    rw [List.length_replicate]
    rfl
  target_typed := by simpa [vector] using typed
  updates_typed := typed'
  int32 := by simp [arrange, vector]

theorem one_updates {x : α} {us : List α} :
    updatesAt [0] (vector [x]) (vector us) (List.replicate us.length [0]) [0] = us := by
  have rows : rowsAt (List.replicate us.length [0]) (arrange [0] [0]) = List.range us.length := by
    unfold rowsAt
    rw [List.length_replicate]
    refine List.filter_eq_self.mpr fun i mem => ?_
    simp [List.mem_range.mp mem, arrange]
  have others : arrange (nonAxes [0] (vector [x]).shape.length) [0] = [] := rfl
  rw [updatesAt, rows, others]
  simp only [vector_get, range_get]

theorem sums_survive (adds : AddsUp A d u p) : SumsSurvive A d u p := by
  intro x us typed typed'
  have fit := one_fit typed typed'
  obtain ⟨r, made, -, gets⟩ := adds [0] _ _ _ _ fit
  obtain ⟨out, made', -, gets'⟩ := indexed_ok fit .indexedAdd
  have zero : Inside (vector [x]).shape [0] := ⟨Nat.one_pos, trivial⟩
  have here : (vector [x]).get? [0] = some x := vector_get [x] 0
  have code := gets' [0] zero
  have spec := gets [0] zero
  rw [here, one_updates, Option.map_some] at code spec
  unfold applyIndexed at made
  split at made
  · cases made
  · rw [made', Option.map_some, Option.some.injEq] at made
    rw [← made, get?_map, code] at spec
    exact Option.some.inj spec

theorem updates_survive (all : Puts A d u p) : UpdatesSurvive A d u p := by
  intro w typed
  have fit := @one_fit α A d u (A.cast d w) [w] (A.cast_cast d w) (by simpa using typed)
  obtain ⟨r, made, -, gets⟩ := all [0] _ _ _ _ fit (List.nodup_singleton _)
  obtain ⟨out, made', -, gets'⟩ := indexed_ok fit .indexedPut
  have zero : Inside (vector [A.cast d w]).shape [0] := ⟨Nat.one_pos, trivial⟩
  have here : (vector [A.cast d w]).get? [0] = some (A.cast d w) := vector_get _ 0
  have code := gets' [0] zero
  have spec := (gets [0] zero).1 0 rfl
  have update : (vector [w]).get? [0] = some w := vector_get [w] 0
  rw [here, one_updates, Option.map_some] at code
  unfold applyIndexed at made
  split at made
  · cases made
  · rw [made', Option.map_some, Option.some.injEq] at made
    rw [← made, get?_map, code] at spec
    exact Option.some.inj (spec.trans (congrArg (Option.map (A.cast p)) update))

theorem real_of (op : IndexedOp)
    (all : ∀ t idx upd coords, Fit A [0] d u t idx upd coords → coords.Nodup →
    ∃ r, applyIndexed A op [0] d u p t idx upd = some r) : Real d u p := by
  have fit : Fit A [0] d u ⟨[0], [], rfl⟩ (column 0) (vector []) [] :=
    ⟨by simp, by simp, by simp, rfl, by simp, by simp,
      rfl, by simp, by simp [vector], by simp [arrange]⟩
  obtain ⟨r, made⟩ := all _ _ _ _ fit .nil
  unfold applyIndexed at made
  split at made
  · cases made
  · rename_i real
    exact real_iff.mpr (Bool.eq_false_iff.mpr real)

/-- Both operations follow Nx in dtype `p` exactly for real dtypes in which the detour through the
    target's dtype changes nothing. -/
theorem scatter_follows_iff (A : Arith α) (d u p : Dtype) :
    (AddsUp A d u p ↔ Real d u p ∧ SumsSurvive A d u p) ∧
      (Puts A d u p ↔ Real d u p ∧ UpdatesSurvive A d u p) := by
  refine ⟨⟨fun adds => ⟨?_, sums_survive adds⟩, fun ⟨real, survive⟩ => adds_up real survive⟩,
    ⟨fun all => ⟨?_, updates_survive all⟩, fun ⟨real, survive⟩ => puts real survive⟩⟩
  · refine real_of (A := A) .indexedAdd fun t idx upd coords fit _ => ?_
    obtain ⟨r, made, -⟩ := adds [0] t idx upd coords fit
    exact ⟨r, made⟩
  · refine real_of (A := A) .indexedPut fun t idx upd coords fit distinct => ?_
    obtain ⟨r, made, -⟩ := all [0] t idx upd coords fit distinct
    exact ⟨r, made⟩

theorem updates_survive_iff (A : Arith α) {d u p : Dtype} (target : ∀ x, A.Typed d x → A.Typed p x)
    (update : ∀ w, A.Typed u w → A.Typed p w) :
    UpdatesSurvive A d u p ↔ ∀ w, A.Typed u w → A.Typed d w := by
  constructor
  · intro survive w typed
    have kept : A.cast p (A.cast d w) = A.cast d w := target _ (A.cast_cast d w)
    have same : A.cast p w = w := update w typed
    have lossless := survive w typed
    rwa [kept, same] at lossless
  · intro values w typed
    rw [show A.cast d w = w from values w typed]

theorem same_dtype_survives (A : Arith α) (d u : Dtype) :
    SumsSurvive A d u d ∧ UpdatesSurvive A d u d := by
  refine ⟨fun x us typed _ => ?_, fun w _ => A.cast_cast d w⟩
  rw [show A.cast d x = x from typed]

end laws

def bits : Dtype → Nat
  | .s8 | .u8 => 8
  | .s16 | .u16 => 16
  | .s32 | .u32 => 32
  | _ => 64

def isSigned : Dtype → Bool
  | .s8 | .s16 | .s32 | .s64 => true
  | _ => false

/-- Integer dtypes; the sum of a scatter is not reduced before the final cast. -/
def integers : Arith Int where
  cast d z := if isSigned d then z.bmod (2 ^ bits d) else z % 2 ^ bits d
  total _ x us := x + us.sum
  cast_cast d x := by
    split
    · exact Int.bmod_bmod
    · exact Int.emod_emod_of_dvd _ (dvd_refl _)

theorem cast_emod (d : Dtype) (z : Int) : integers.cast d z % 2 ^ bits d = z % 2 ^ bits d := by
  simp only [integers]
  split
  · have power : ((2 ^ bits d : Nat) : Int) = 2 ^ bits d := by push_cast; rfl
    rw [← power]
    exact Int.bmod_emod
  · exact Int.emod_emod_of_dvd z (dvd_refl _)

theorem cast_congr {d : Dtype} {x y : Int} (same : x % 2 ^ bits d = y % 2 ^ bits d) :
    integers.cast d x = integers.cast d y := by
  simp only [integers]
  split
  · have power : ((2 ^ bits d : Nat) : Int) = 2 ^ bits d := by push_cast; rfl
    rw [← power] at same
    rw [← Int.emod_bmod x, same, Int.emod_bmod]
  · exact same

theorem wide_target_survives {d p : Dtype} (wide : bits p ≤ bits d) (u : Dtype) :
    SumsSurvive integers d u p ∧ UpdatesSurvive integers d u p := by
  have divides : (2 ^ bits p : Int) ∣ 2 ^ bits d := pow_dvd_pow 2 wide
  have narrow (z : Int) : integers.cast d z % 2 ^ bits p = z % 2 ^ bits p := by
    rw [← Int.emod_emod_of_dvd (integers.cast d z) divides, cast_emod, Int.emod_emod_of_dvd z divides]
  have sums (us : List Int) : (us.map (integers.cast d)).sum % 2 ^ bits p =
      (us.map (integers.cast p)).sum % 2 ^ bits p := by
    induction us with
    | nil => rfl
    | cons w us ih =>
      simp only [List.map_cons, List.sum_cons]
      rw [Int.add_emod, narrow, ih, Int.add_emod (integers.cast p w), cast_emod]
  refine ⟨fun x us typed _ => cast_congr ?_, fun w _ => cast_congr (narrow w)⟩
  show (x + _) % _ = (integers.cast p x + _) % _
  rw [Int.add_emod, sums, Int.add_emod (integers.cast p x), cast_emod]

/-- An s32 update of an s8 target: 300 becomes 44. -/
theorem update_truncated :
    (applyIndexed integers .indexedPut [0] .s8 .s32 .s32 (vector [1]) (column 1) (vector [300])).map
      NDArray.data = some [44] ∧
    (applyIndexed integers .indexedAdd [0] .s8 .s32 .s32 (vector [1]) (column 1) (vector [300])).map
      NDArray.data = some [45] ∧
    ¬ Puts integers .s8 .s32 .s32 ∧ ¬ AddsUp integers .s8 .s32 .s32 := by
  refine ⟨by decide, by decide, fun all => ?_, fun adds => ?_⟩
  · have typed : integers.cast .s32 300 = 300 := by decide
    exact absurd (updates_survive all 300 typed) (by decide)
  · have typed : integers.cast .s8 0 = 0 := by decide
    have typed' : ∀ w ∈ [300], integers.cast .s32 w = w := by decide
    exact absurd (sums_survive adds 0 [300] typed typed') (by decide)

end NxTinygrad.Scatter
