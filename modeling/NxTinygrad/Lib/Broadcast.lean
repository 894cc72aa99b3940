import NxTinygrad.Lib.NDArray

/- Operations on arrays of two shapes, aligned at the last axis, where an axis of size 1 goes with
   any size; and the rows of an array. -/
namespace NDArray

def alignDim (d d' : Nat) : Option Nat :=
  if d = d' then some d else if d = 1 then some d' else if d' = 1 then some d else none

def alignAll : List Nat → List Nat → Option (List Nat)
  | d :: ds, d' :: ds' => do
      let e ← alignDim d d'
      let es ← alignAll ds ds'
      some (e :: es)
  | [], [] => some []
  | _, _ => none

def padOnes (rank : Nat) (shape : List Nat) : List Nat :=
  List.replicate (rank - shape.length) 1 ++ shape

def common (shape shape' : List Nat) : Option (List Nat) :=
  alignAll (padOnes (max shape.length shape'.length) shape)
    (padOnes (max shape.length shape'.length) shape')

def project (shape idx : List Nat) : List Nat :=
  List.zipWith (fun d i => if d = 1 then 0 else i) shape (idx.drop (idx.length - shape.length))

variable {α β γ : Type}

def pointwise (f : α → β → γ) (t : NDArray α) (t' : NDArray β) : Option (NDArray γ) := do
  let shape ← common t.shape t'.shape
  build shape fun idx => do
    let x ← t.get? (project t.shape idx)
    let y ← t'.get? (project t'.shape idx)
    some (f x y)

def row (t : NDArray α) (i : Nat) : Option (NDArray α) :=
  match t.shape with
  | [] => none
  | d :: ds => if i < d then build ds fun idx => t.get? (i :: idx) else none

def stackRows : List (NDArray α) → Option (NDArray α)
  | [] => none
  | t :: rest =>
      if rest.all fun u => u.shape == t.shape then
        build ((rest.length + 1) :: t.shape) fun idx => match idx with
          | [] => none
          | i :: idx => (t :: rest)[i]?.bind (·.get? idx)
      else none

variable {shape idx : List Nat} {d : Nat}

theorem alignAll_self (shape : List Nat) : alignAll shape shape = some shape := by
  induction shape with
  | nil => rfl
  | cons d ds ih => simp [alignAll, alignDim, ih]

theorem common_self (shape : List Nat) : common shape shape = some shape := by
  simp [common, padOnes, alignAll_self]

theorem alignAll_ones (shape : List Nat) :
    alignAll (List.replicate shape.length 1) shape = some shape ∧
      alignAll shape (List.replicate shape.length 1) = some shape := by
  induction shape with
  | nil => exact ⟨rfl, rfl⟩
  | cons d ds ih =>
    by_cases one : d = 1
    · simp [List.replicate_succ, alignAll, alignDim, one, ih]
    · simp [List.replicate_succ, alignAll, alignDim, one, Ne.symm one, ih]

theorem common_scalar (shape : List Nat) :
    common [] shape = some shape ∧ common shape [] = some shape := by
  simpa [common, padOnes] using alignAll_ones shape

theorem common_front (d : Nat) (shape : List Nat) : common (d :: shape) shape = some (d :: shape) ∧
    common shape (d :: shape) = some (d :: shape) := by
  by_cases one : d = 1
  · subst one
    simpa [common, padOnes, List.replicate_succ] using alignAll_self (1 :: shape)
  · simp [common, padOnes, alignAll, alignDim, alignAll_self, one, Ne.symm one]

theorem zipWith_inside : ∀ {shape idx : List Nat}, Inside shape idx →
    List.zipWith (fun d i => if d = 1 then 0 else i) shape idx = idx
  | [], [], _ => rfl
  | d :: ds, i :: is, inside => by
    have first : (if d = 1 then 0 else i) = i := by
      have low := inside.1
      split <;> omega
    rw [List.zipWith_cons_cons, first, zipWith_inside inside.2]

theorem project_self (inside : Inside shape idx) : project shape idx = idx := by
  rw [project, inside.length, Nat.sub_self, List.drop_zero, zipWith_inside inside]

theorem project_scalar (idx : List Nat) : project [] idx = [] := rfl

theorem project_front {i : Nat} (inside : Inside shape idx) : project shape (i :: idx) = idx := by
  have len := inside.length
  have one : (i :: idx).length - shape.length = 1 := by
    rw [List.length_cons]
    omega
  rw [project, one, List.drop_succ_cons, List.drop_zero, zipWith_inside inside]

theorem pointwise_eq {f : α → β → γ} {t : NDArray α} {t' : NDArray β} {r : NDArray γ}
    (fits : common t.shape t'.shape = some shape) : pointwise f t t' = some r ↔ r.shape = shape ∧
      ∀ idx, Inside shape idx → r.get? idx = (t.get? (project t.shape idx)).bind fun x =>
        (t'.get? (project t'.shape idx)).map (f x) := by
  simp only [pointwise, fits, Option.bind_eq_bind, Option.bind_some, build_eq]
  refine and_congr_right fun _ => forall_congr' fun idx => imp_congr_right fun _ => ?_
  rw [show (fun x => (t'.get? (project t'.shape idx)).bind fun y => some (f x y)) =
    fun x => (t'.get? (project t'.shape idx)).map (f x) from funext fun x => Option.map_eq_bind.symm]

theorem row_eq {t r : NDArray α} {i : Nat} : t.row i = some r ↔
    ∃ d ds, t.shape = d :: ds ∧ i < d ∧ r.shape = ds ∧ ∀ idx, Inside ds idx →
    r.get? idx = t.get? (i :: idx) := by
  unfold row
  split
  · rename_i scalar
    simp [scalar]
  · rename_i d ds split
    rw [Option.ite_none_right_eq_some, build_eq, split]
    constructor
    · rintro ⟨low, shape, entries⟩
      exact ⟨d, ds, rfl, low, shape, entries⟩
    · rintro ⟨_, _, same, low, shape, entries⟩
      cases same
      exact ⟨low, shape, entries⟩

theorem stackRows_eq {t r : NDArray α} {rest : List (NDArray α)} : stackRows (t :: rest) = some r ↔
    (∀ u ∈ rest, u.shape = t.shape) ∧ r.shape = (rest.length + 1) :: t.shape ∧
      ∀ i idx, i < rest.length + 1 → Inside t.shape idx →
        r.get? (i :: idx) = (t :: rest)[i]?.bind (·.get? idx) := by
  rw [stackRows, Option.ite_none_right_eq_some, build_eq]
  refine and_congr (by simp [List.all_eq_true]) (and_congr_right fun _ => ?_)
  constructor
  · intro entries i idx low inside
    exact entries (i :: idx) ⟨low, inside⟩
  · intro entries idx inside
    cases idx with
    | nil => cases inside
    | cons i idx => exact entries i idx inside.1 inside.2

theorem stackRows_ok {t : NDArray α} {rest : List (NDArray α)} (all : ∀ u ∈ rest, u.shape = t.shape) :
    ∃ r, stackRows (t :: rest) = some r := by
  rw [stackRows, if_pos (by simpa [List.all_eq_true] using all)]
  refine build_ok fun idx inside => ?_
  cases idx with
  | nil => cases inside
  | cons i idx =>
    have there : i < (t :: rest).length := inside.1
    have same : ((t :: rest)[i]).shape = t.shape := by
      rcases List.mem_cons.mp (List.getElem_mem there) with here | later
      · rw [here]
      · exact all _ later
    have entry : ((t :: rest)[i]?.bind (·.get? idx)).isSome := by
      rw [List.getElem?_eq_getElem there, Option.bind_some]
      exact get?_isSome.mpr (same ▸ inside.2)
    exact entry

theorem row_ok {t : NDArray α} {i d : Nat} {ds : List Nat} (split : t.shape = d :: ds) (low : i < d) :
    ∃ r, t.row i = some r := by
  simp only [row, split, low, if_true]
  exact build_ok fun idx inside => get?_isSome.mpr (split ▸ ⟨low, inside⟩)

section fits
variable {f : α → β → γ} {t : NDArray α} {t' : NDArray β}

theorem pointwise_ok (fits : common t.shape t'.shape = some shape)
    (inside : ∀ idx, Inside shape idx →
      Inside t.shape (project t.shape idx) ∧ Inside t'.shape (project t'.shape idx)) :
    ∃ r, pointwise f t t' = some r := by
  simp only [pointwise, fits, Option.bind_eq_bind, Option.bind_some]
  refine build_ok fun idx there => ?_
  obtain ⟨left, right⟩ := inside idx there
  obtain ⟨x, read⟩ := Option.isSome_iff_exists.mp (get?_isSome.mpr left)
  obtain ⟨y, read'⟩ := Option.isSome_iff_exists.mp (get?_isSome.mpr right)
  simp [read, read']

theorem pointwise_same (left : t.shape = shape) (right : t'.shape = shape) :
    common t.shape t'.shape = some shape ∧ ∃ r, pointwise f t t' = some r := by
  have fits : common t.shape t'.shape = some shape := by rw [left, right, common_self]
  refine ⟨fits, pointwise_ok fits fun idx inside => ?_⟩
  rw [left, right, project_self inside]
  exact ⟨inside, inside⟩

theorem pointwise_behind (left : t.shape = shape) (right : t'.shape = d :: shape) :
    common t.shape t'.shape = some (d :: shape) ∧ ∃ r, pointwise f t t' = some r := by
  have fits : common t.shape t'.shape = some (d :: shape) := by
    rw [left, right]
    exact (common_front d shape).2
  refine ⟨fits, pointwise_ok fits fun idx inside => ?_⟩
  rw [left, right, project_self inside]
  cases idx with
  | nil => cases inside
  | cons i idx => exact ⟨by rw [project_front inside.2]; exact inside.2, inside⟩

theorem pointwise_front (left : t.shape = d :: shape) (right : t'.shape = shape) :
    common t.shape t'.shape = some (d :: shape) ∧ ∃ r, pointwise f t t' = some r := by
  have fits : common t.shape t'.shape = some (d :: shape) := by
    rw [left, right]
    exact (common_front d shape).1
  refine ⟨fits, pointwise_ok fits fun idx inside => ?_⟩
  rw [left, right, project_self inside]
  cases idx with
  | nil => cases inside
  | cons i idx => exact ⟨inside, by rw [project_front inside.2]; exact inside.2⟩

end fits

section align
variable {ds ds' es : List Nat} {d' e : Nat}

theorem alignDim_fits (fits : alignDim d d' = some e) : (d = 1 ∨ d = e) ∧ (d' = 1 ∨ d' = e) := by
  unfold alignDim at fits
  split_ifs at fits <;> cases fits <;> simp_all

theorem alignDim_again (fits : alignDim d d' = some e) : alignDim e d' = some e := by
  unfold alignDim at fits ⊢
  split_ifs at fits <;> cases fits <;> simp_all

theorem alignAll_cons : alignAll (d :: ds) (d' :: ds') = some es ↔
    ∃ e es', alignDim d d' = some e ∧ alignAll ds ds' = some es' ∧ es = e :: es' := by
  simp only [alignAll, Option.bind_eq_bind, Option.bind_eq_some_iff, Option.some_inj]
  constructor
  · rintro ⟨e, first, es', rest, rfl⟩
    exact ⟨e, es', first, rest, rfl⟩
  · rintro ⟨e, es', first, rest, rfl⟩
    exact ⟨e, first, es', rest, rfl⟩

theorem alignAll_again (fits : alignAll ds ds' = some es) : alignAll es ds' = some es := by
  induction ds generalizing ds' es with
  | nil =>
    cases ds' with
    | nil =>
      cases fits
      rfl
    | cons d' ds' => cases fits
  | cons d ds ih =>
    cases ds' with
    | nil => cases fits
    | cons d' ds' =>
      obtain ⟨e, es', first, rest, rfl⟩ := alignAll_cons.mp fits
      exact alignAll_cons.mpr ⟨e, es', alignDim_again first, ih rest, rfl⟩

theorem alignAll_inside (fits : alignAll ds ds' = some es) (inside : Inside es idx) :
    Inside ds (List.zipWith (fun d i => if d = 1 then 0 else i) ds idx) ∧
      Inside ds' (List.zipWith (fun d i => if d = 1 then 0 else i) ds' idx) := by
  induction ds generalizing ds' es idx with
  | nil =>
    cases ds' with
    | nil => exact ⟨trivial, trivial⟩
    | cons d' ds' => cases fits
  | cons d ds ih =>
    cases ds' with
    | nil => cases fits
    | cons d' ds' =>
      obtain ⟨e, es', first, rest, rfl⟩ := alignAll_cons.mp fits
      cases idx with
      | nil => cases inside
      | cons i is =>
        obtain ⟨left, right⟩ := alignDim_fits first
        have low := inside.1
        obtain ⟨later, later'⟩ := ih rest inside.2
        refine ⟨⟨?_, later⟩, ⟨?_, later'⟩⟩
        · dsimp only
          split <;> omega
        · dsimp only
          split <;> omega

theorem alignAll_length (fits : alignAll ds ds' = some es) : es.length = ds.length := by
  induction ds generalizing ds' es with
  | nil =>
    cases ds' with
    | nil =>
      cases fits
      rfl
    | cons d' ds' => cases fits
  | cons d ds ih =>
    cases ds' with
    | nil => cases fits
    | cons d' ds' =>
      obtain ⟨e, es', _, rest, rfl⟩ := alignAll_cons.mp fits
      simp [ih rest]

theorem alignAll_append (len : ds.length = ds'.length) (last : alignDim d d' = some e) :
    alignAll (ds ++ [d]) (ds' ++ [d']) = (alignAll ds ds').map (· ++ [e]) := by
  induction ds generalizing ds' with
  | nil =>
    cases ds' with
    | nil => simp [alignAll, last]
    | cons d' ds' => cases len
  | cons c ds ih =>
    cases ds' with
    | nil => cases len
    | cons c' ds' =>
      rw [List.cons_append, List.cons_append, alignAll, alignAll, ih (by simpa using len)]
      cases alignDim c c' with
      | none => rfl
      | some e' => cases alignAll ds ds' <;> rfl

end align

section common
variable {shape' both : List Nat} {d' e : Nat}

theorem padOnes_length {rank : Nat} (low : shape.length ≤ rank) :
    (padOnes rank shape).length = rank := by
  simp [padOnes, low]

theorem padOnes_append (rank : Nat) :
    padOnes (rank + 1) (shape ++ [d]) = padOnes rank shape ++ [d] := by
  simp [padOnes, Nat.add_sub_add_right]

theorem common_length (fits : common shape shape' = some both) :
    both.length = max shape.length shape'.length := by
  rw [alignAll_length fits, padOnes_length (Nat.le_max_left ..)]

theorem common_again (fits : common shape shape' = some both) : common both shape' = some both := by
  have len := common_length fits
  have again := alignAll_again fits
  unfold common
  have rank : max both.length shape'.length = both.length := by omega
  rw [rank]
  rw [← len] at again
  simpa [padOnes] using again

theorem common_append (last : alignDim d d' = some e) :
    common (shape ++ [d]) (shape' ++ [d']) = (common shape shape').map (· ++ [e]) := by
  have rank : max (shape ++ [d]).length (shape' ++ [d']).length =
      max shape.length shape'.length + 1 := by
    rw [List.length_append, List.length_append, List.length_singleton, List.length_singleton]
    omega
  rw [common, common, rank, padOnes_append, padOnes_append]
  refine alignAll_append ?_ last
  rw [padOnes_length (Nat.le_max_left ..), padOnes_length (Nat.le_max_right ..)]

theorem project_append {i : Nat} (len : shape.length ≤ idx.length) :
    project (shape ++ [d]) (idx ++ [i]) = project shape idx ++ [if d = 1 then 0 else i] := by
  have drop : (idx ++ [i]).length - (shape ++ [d]).length = idx.length - shape.length := by
    rw [List.length_append, List.length_append, List.length_singleton, List.length_singleton]
    omega
  rw [project, project, drop, List.drop_append_of_le_length (by omega),
    List.zipWith_append (by simp; omega)]
  rfl

theorem project_pad {rank : Nat} (len : idx.length = rank)
    (inside : Inside (padOnes rank shape)
      (List.zipWith (fun d i => if d = 1 then 0 else i) (padOnes rank shape) idx)) :
    Inside shape (project shape idx) := by
  have cut : idx = idx.take (rank - shape.length) ++ idx.drop (rank - shape.length) :=
    (List.take_append_drop _ idx).symm
  rw [padOnes, cut, List.zipWith_append (by simp; omega)] at inside
  rw [project, len]
  exact ((inside_append (by simp; omega)).mp inside).2

theorem project_inside (fits : common shape shape' = some both) (inside : Inside both idx) :
    Inside shape (project shape idx) ∧ Inside shape' (project shape' idx) := by
  have len := inside.length.trans (common_length fits)
  obtain ⟨left, right⟩ := alignAll_inside fits inside
  exact ⟨project_pad len left, project_pad len right⟩

end common

section laws
variable {δ ε : Type} {t : NDArray α} {t' : NDArray β}

theorem pointwise_map (f : δ → ε → γ) (g : α → δ) (h : β → ε) (t : NDArray α) (t' : NDArray β) :
    pointwise f (t.map g) (t'.map h) = pointwise (fun x y => f (g x) (h y)) t t' := by
  unfold pointwise
  cases fits : common t.shape t'.shape with
  | none => simp [map, fits]
  | some shape =>
    have fits' : common (t.map g).shape (t'.map h).shape = some shape := fits
    simp only [fits', Option.bind_eq_bind, Option.bind_some, get?_map]
    congr 1
    funext idx
    change ((t.get? (project t.shape idx)).map g).bind
        (fun x => ((t'.get? (project t'.shape idx)).map h).bind
      fun y => some (f x y)) = _
    cases t.get? (project t.shape idx) <;> cases t'.get? (project t'.shape idx) <;> rfl

theorem map_pointwise (f : α → β → γ) (g : γ → δ) (t : NDArray α) (t' : NDArray β) :
    (pointwise f t t').map (map g) = pointwise (fun x y => g (f x y)) t t' := by
  unfold pointwise
  cases common t.shape t'.shape with
  | none => rfl
  | some shape =>
    simp only [Option.bind_eq_bind, Option.bind_some, build_map]
    congr 1
    funext idx
    cases t.get? (project t.shape idx) <;> cases t'.get? (project t'.shape idx) <;> rfl

theorem pointwise_some {f : α → β → γ} {r : NDArray γ} (made : pointwise f t t' = some r) :
    common t.shape t'.shape = some r.shape ∧ ∀ idx, Inside r.shape idx →
      r.get? idx = (t.get? (project t.shape idx)).bind fun x =>
      (t'.get? (project t'.shape idx)).map (f x) := by
  cases fits : common t.shape t'.shape with
  | none => simp [pointwise, fits] at made
  | some shape =>
    obtain ⟨rfl, entries⟩ := (pointwise_eq fits).mp made
    exact ⟨rfl, entries⟩

theorem pointwise_common (f : α → β → γ) (fits : common t.shape t'.shape = some shape) :
    ∃ r, pointwise f t t' = some r := pointwise_ok fits fun _ inside => project_inside fits inside

theorem pointwise_shape (f : α → β → γ) (t : NDArray α) (t' : NDArray β) :
    (pointwise f t t').map NDArray.shape = common t.shape t'.shape := by
  cases fits : common t.shape t'.shape with
  | none => simp [pointwise, fits]
  | some shape =>
    obtain ⟨r, made⟩ := pointwise_common f fits
    rw [made, Option.map_some, ← fits, (pointwise_some made).1]

theorem pointwise_both {f : α → β → γ} {g : α → β → δ} {r : NDArray γ} {r' : NDArray δ} (h : γ → δ → ε)
    (made : pointwise f t t' = some r) (made' : pointwise g t t' = some r') :
    pointwise h r r' = pointwise (fun x y => h (f x y) (g x y)) t t' := by
  obtain ⟨fits, entries⟩ := pointwise_some made
  obtain ⟨fits', entries'⟩ := pointwise_some made'
  have same : r'.shape = r.shape := Option.some_inj.mp (fits'.symm.trans fits)
  have together : common r.shape r'.shape = some r.shape := by rw [same, common_self]
  obtain ⟨out, made''⟩ := pointwise_common h together
  rw [made'']
  obtain ⟨dims, values⟩ := (pointwise_eq together).mp made''
  refine ((pointwise_eq fits).mpr ⟨dims, fun idx inside => ?_⟩).symm
  rw [values idx inside, same, project_self inside, entries idx inside, entries' idx (same ▸ inside)]
  cases t.get? (project t.shape idx) <;> cases t'.get? (project t'.shape idx) <;> rfl

theorem pointwise_again {f : α → β → γ} {r : NDArray γ} (h : γ → β → ε)
    (made : pointwise f t t' = some r) :
    pointwise h r t' = pointwise (fun x y => h (f x y) y) t t' := by
  obtain ⟨fits, entries⟩ := pointwise_some made
  have together := common_again fits
  obtain ⟨out, made'⟩ := pointwise_common h together
  rw [made']
  obtain ⟨dims, values⟩ := (pointwise_eq together).mp made'
  refine ((pointwise_eq fits).mpr ⟨dims, fun idx inside => ?_⟩).symm
  rw [values idx inside, project_self inside, entries idx inside]
  cases t.get? (project t.shape idx) <;> cases t'.get? (project t'.shape idx) <;> rfl

theorem pointwise_tabulate (f : α → β → γ) (g : List Nat → α) (h : List Nat → β) (shape : List Nat) :
    pointwise f (tabulate shape g) (tabulate shape h) =
    some (tabulate shape fun idx => f (g idx) (h idx)) := by
  refine (pointwise_eq (common_self shape)).mpr ⟨rfl, fun idx (inside : Inside shape idx) => ?_⟩
  have here : project (tabulate shape g).shape idx = idx := project_self inside
  have here' : project (tabulate shape h).shape idx = idx := project_self inside
  rw [here, here', get?_tabulate inside, get?_tabulate inside, get?_tabulate inside]
  rfl

end laws

def Spreads (full : List Nat) (t : NDArray α) (g : List Nat → α) : Prop :=
  List.Forall₂ (fun d e => d = e ∨ d = 1) t.shape full ∧ ∀ idx, Inside full idx →
    t.get? (List.zipWith (fun d i => if d = 1 then 0 else i) t.shape idx) = some (g idx)

section spreads
variable {full ds ds' es idx : List Nat} {t : NDArray α} {t' : NDArray β} {g : List Nat → α}
  {h : List Nat → β}

theorem Spreads.map (f : α → γ) (spread : Spreads full t g) : Spreads full (t.map f) (f ∘ g) := by
  refine ⟨spread.1, fun idx inside => ?_⟩
  have here := spread.2 idx inside
  rw [get?_map]
  exact congrArg (Option.map f) here

theorem Spreads.expand (spread : Spreads full t g) : ∃ r, t.expand full = some r ∧ r.shape = full ∧
    ∀ idx, Inside full idx → r.get? idx = some (g idx) := by
  obtain ⟨r, made⟩ := expand_ok spread.1
  have entries := made
  rw [NDArray.expand, if_pos spread.1] at entries
  obtain ⟨shape, gets⟩ := build_eq.mp entries
  exact ⟨r, made, shape, fun idx inside => (gets idx inside).trans (spread.2 idx inside)⟩

theorem alignAll_spread (left : List.Forall₂ (fun d e => d = e ∨ d = 1) ds full)
    (right : List.Forall₂ (fun d e => d = e ∨ d = 1) ds' full) : ∃ es, alignAll ds ds' = some es ∧
      List.Forall₂ (fun d e => d = e ∨ d = 1) es full ∧ ∀ idx,
        (List.zipWith (fun d i => if d = 1 then 0 else i) ds
          (List.zipWith (fun d i => if d = 1 then 0 else i) es idx) =
            List.zipWith (fun d i => if d = 1 then 0 else i) ds idx) ∧
        List.zipWith (fun d i => if d = 1 then 0 else i) ds'
          (List.zipWith (fun d i => if d = 1 then 0 else i) es idx) =
            List.zipWith (fun d i => if d = 1 then 0 else i) ds' idx := by
  induction left generalizing ds' with
  | nil =>
    cases right
    exact ⟨[], rfl, .nil, fun idx => ⟨rfl, rfl⟩⟩
  | @cons d f ds full here _ ih =>
    cases right with
    | @cons d' _ ds' _ here' rest' =>
      obtain ⟨es, aligned, fits, reads⟩ := ih rest'
      obtain ⟨e, first, fits', read, read'⟩ : ∃ e, alignDim d d' = some e ∧ (e = f ∨ e = 1) ∧
          (d ≠ 1 → e ≠ 1) ∧ (d' ≠ 1 → e ≠ 1) := by
        unfold alignDim
        split_ifs <;> grind
      refine ⟨e :: es, alignAll_cons.mpr ⟨e, es, first, aligned, rfl⟩, .cons fits' fits, fun idx => ?_⟩
      cases idx with
      | nil => exact ⟨rfl, rfl⟩
      | cons i is =>
        simp only [List.zipWith_cons_cons, (reads is).1, (reads is).2]
        constructor
        · by_cases one : d = 1
          · simp [one]
          · simp [one, read one]
        · by_cases one : d' = 1
          · simp [one]
          · simp [one, read' one]

theorem Spreads.pointwise (f : α → β → γ) (spread : Spreads full t g) (spread' : Spreads full t' h) :
    ∃ r, NDArray.pointwise f t t' = some r ∧ Spreads full r fun idx => f (g idx) (h idx) := by
  obtain ⟨es, aligned, fits, reads⟩ := alignAll_spread spread.1 spread'.1
  have len : t.shape.length = full.length := spread.1.length_eq
  have len' : t'.shape.length = full.length := spread'.1.length_eq
  have count : es.length = full.length := fits.length_eq
  have both : common t.shape t'.shape = some es := by
    simp only [common, padOnes, len, len', Nat.max_self, Nat.sub_self, List.replicate_zero,
      List.nil_append, aligned]
  obtain ⟨r, made⟩ := pointwise_common f both
  obtain ⟨shape, gets⟩ := (pointwise_eq both).mp made
  refine ⟨r, made, shape ▸ fits, fun idx inside => ?_⟩
  have low := inside_expand fits inside
  have drop (s : List Nat) (same : s.length = full.length) (i : List Nat) (there : Inside es i) :
      project s i = List.zipWith (fun d i => if d = 1 then 0 else i) s i := by
    rw [project, there.length, count, same, Nat.sub_self, List.drop_zero]
  rw [shape, gets _ low, drop _ len _ low, drop _ len' _ low, (reads idx).1, (reads idx).2,
    spread.2 idx inside, spread'.2 idx inside]
  rfl

end spreads

theorem mapM_get {f : α → Option β} {l : List α} {ys : List β} (made : l.mapM f = some ys) :
    ys.length = l.length ∧ ∀ k : Nat, ys[k]? = l[k]?.bind f := by
  induction l generalizing ys with
  | nil =>
    cases made
    simp
  | cons x rest ih =>
    rw [List.mapM_cons] at made
    obtain ⟨y, first, made⟩ := Option.bind_eq_some_iff.mp made
    obtain ⟨zs, later, made⟩ := Option.bind_eq_some_iff.mp made
    cases made
    obtain ⟨len, entries⟩ := ih later
    refine ⟨by simp [len], fun k => ?_⟩
    cases k with
    | zero => simp [first]
    | succ k => simpa using entries k

end NDArray
