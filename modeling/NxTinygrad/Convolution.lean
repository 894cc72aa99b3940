import NxTinygrad.Padding
import NxTinygrad.Reductions
import NxTinygrad.Lib.Einstein

/- `_conv` of operations.py: `Tensor.conv2d` between permutations; input dilation and padding are done
   before it. -/
namespace NxTinygrad.Convolution
open IR Lowering NDArray Padding Reductions

variable {α : Type} [CommSemiring α]

/-- `slice(0, stop)` on one axis and `slice(None)` on the others. -/
def cropAxis (x : NDArray α) (axis stop : Nat) : Option (NDArray α) :=
  look x (x.shape.mapIdx fun j s => if j = axis then .slice s 0 stop 1 else .all s) none

def dilateAxis (x : NDArray α) (axis d : Nat) : Option (NDArray α) := do
  let shape := x.shape
  let n ← shape[axis]?
  let x ← x.reshape (shape.take (axis + 1) ++ [1] ++ shape.drop (axis + 1))
  let x ← padWith x ((List.replicate x.shape.length (0, 0)).set (axis + 1) (0, (d : Int) - 1)) 0
  let x ← x.reshape (shape.take axis ++ [n * d] ++ shape.drop (axis + 1))
  cropAxis x axis ((n - 1) * d + 1)

def dilateFrom (x : NDArray α) : Nat → List Nat → Option (NDArray α)
  | _, [] => some x
  | axis, d :: ds =>
      if d ≤ 1 then dilateFrom x (axis + 1) ds
      else (dilateAxis x axis d).bind fun x => dilateFrom x (axis + 1) ds

def dilate (x : NDArray α) (dilation : List Nat) : Option (NDArray α) := dilateFrom x 2 dilation

def conv2d (x w : NDArray α) (groups : Nat) (strides dilations : List Nat) : Option (NDArray α) :=
  match x.shape, w.shape with
  | bs :: channels :: spatial, cout :: cin :: kernel =>
    if groups * cin = channels ∧ 0 < groups ∧ groups ∣ cout ∧ Fits spatial kernel strides dilations then
      some (tabulate (bs :: cout :: outDims spatial kernel strides dilations) fun idx => match idx with
        | b :: o :: p => ((List.range cin).map fun c => ((indices kernel).map fun k =>
            x.entry (b :: (o / (cout / groups) * cin + c) :: windowAt strides dilations p k) *
              w.entry (o :: c :: k)).sum).sum
        | _ => 0)
    else none
  | _, _ => none

def conv (a : ConvOpts) (x w : NDArray α) : Except Padding.Raised (NDArray α) :=
  if a.batchGroupSize ≠ 1 then
    .error (.unsupportedOperation "conv batch_group_size != 1 is not supported")
  else orRaise .typeError do
    let x ← x.permute a.inputPermutation
    let w ← w.permute a.kernelPermutation
    let x ← (if a.inputDilation.any (· ≠ 1) then dilate x a.inputDilation else some x)
    let padConfig := (0, 0) :: (0, 0) :: a.padding
    let x ← (if padConfig.any fun p => p.1 ≠ 0 || p.2 ≠ 0 then padWith x padConfig 0 else some x)
    let out ← conv2d x w a.featureGroupSize a.strides a.kernelDilation
    out.permute (inverse a.outputPermutation a.outputPermutation.length)

/-- The sizes of what is spread with `d - 1` zeros between neighbours and then padded. -/
def spreadSizes : List Nat → List Nat → List (Int × Int) → List Nat
  | n :: ns, d :: ds, (lo, hi) :: ps =>
      (((n - 1) * d + 1 : Nat) + lo + hi).toNat :: spreadSizes ns ds ps
  | _, _, _ => []

/-- The index of the input whose entry is at an index of what is spread and padded, if there is one. -/
def spreadSource : List Nat → List Nat → List (Int × Int) → List Nat → Option (List Nat)
  | n :: ns, d :: ds, (lo, _) :: ps, j :: js =>
      if lo ≤ j ∧ (d : Int) ∣ j - lo ∧ (j - lo) / d < n then
        (spreadSource ns ds ps js).map (((j - lo : Int) / d).toNat :: ·)
      else none
  | _, _, _, _ => some []

/-- A convolution that Nx accepts: the sizes of the canonical operands, with `cin` input and `rcout`
    output channels in a group. -/
structure Accepted (a : ConvOpts) (x w : NDArray α) (bs cin rcout : Nat) (spatial kernel : List Nat) :
    Prop where
  batch : a.batchGroupSize = 1
  groups : 0 < a.featureGroupSize
  inputOrder : a.inputPermutation.Perm (List.range x.shape.length)
  input : arrange a.inputPermutation x.shape = bs :: (a.featureGroupSize * cin) :: spatial
  kernelOrder : a.kernelPermutation.Perm (List.range w.shape.length)
  weights : arrange a.kernelPermutation w.shape = (a.featureGroupSize * rcout) :: cin :: kernel
  outputOrder : a.outputPermutation.Perm (List.range (spatial.length + 2))
  dilations : List.Forall₂ (fun n d => 0 < n ∧ 1 ≤ d) spatial a.inputDilation
  paddings : a.padding.length = spatial.length
  fits : Fits (spreadSizes spatial a.inputDilation a.padding) kernel a.strides a.kernelDilation

def inputAt (a : ConvOpts) (x : NDArray α) (spatial : List Nat) (b c : Nat) (j : List Nat) : α :=
  match spreadSource spatial a.inputDilation a.padding j with
  | some q => x.entry (restore a.inputPermutation x.shape.length (b :: c :: q))
  | none => 0

def direct (a : ConvOpts) (x w : NDArray α) (cin rcout : Nat) (spatial kernel : List Nat) (b o : Nat)
    (p : List Nat) : α :=
  ((List.range cin).map fun c => ((indices kernel).map fun k =>
    w.entry (restore a.kernelPermutation w.shape.length (o :: c :: k)) *
      inputAt a x spatial b (o / rcout * cin + c) (windowAt a.strides a.kernelDilation p k)).sum).sum

section dilation
variable {x : NDArray α} {pre post shape idx : List Nat} {n d : Nat}

theorem place_middle {ws ws' : List Window} {w : Window} {i k : List Nat} (first : place ws i = some i)
    (last : place ws' k = some k) (len : ws.length = i.length) (j : Nat) :
    place (ws ++ w :: ws') (i ++ j :: k) = (w.read j).map fun j' => i ++ j' :: k := by
  rw [place_append len, first, Option.bind_some, place, last]
  cases w.read j <;> rfl

theorem fits_middle {u : Nat → Window} {w : Window} {m : Nat} (each : ∀ s, (u s).Fits s)
    (here : w.Fits m) :
    List.Forall₂ Window.Fits (pre ++ m :: post) (pre.map u ++ w :: post.map u) := by
  have rest (l : List Nat) : List.Forall₂ Window.Fits l (l.map u) := by
    rw [List.forall₂_map_right_iff, List.forall₂_same]
    exact fun s _ => each s
  exact List.rel_append (rest pre) (.cons here (rest post))

theorem zipWith_set {β γ δ : Type} (f : β → γ → δ) (pre post : List β) (m : β) (z y : γ) :
    List.zipWith f (pre ++ m :: post) ((List.replicate (pre ++ m :: post).length z).set pre.length y) =
      pre.map (f · z) ++ f m y :: post.map (f · z) := by
  induction pre with
  | nil =>
    have same : List.zipWith f post (List.replicate post.length z) = post.map (f · z) := by
      induction post with
      | nil => rfl
      | cons b rest ih => simp [List.replicate_succ, ih]
    simp [List.replicate_succ, same]
  | cons b rest ih => simpa [List.replicate_succ] using ih

theorem padAxis_ok {m e : Nat} (shape : x.shape = pre ++ m :: post) : ∃ r,
    padWith x ((List.replicate x.shape.length (0, 0)).set pre.length (0, (e : Int))) 0 = some r ∧
      r.shape = pre ++ (m + e) :: post ∧ ∀ i j k, Inside pre i → j < m + e → Inside post k →
        r.get? (i ++ j :: k) = if j < m then x.get? (i ++ j :: k) else some 0 := by
  have windows : List.zipWith (fun s (p : Int × Int) => Window.pad s p.1 p.2) x.shape
      ((List.replicate x.shape.length (0, 0)).set pre.length (0, (e : Int))) =
      pre.map (fun s => .pad s 0 0) ++ .pad m 0 e :: post.map fun s => .pad s 0 0 := by
    rw [shape]
    exact zipWith_set (fun s (p : Int × Int) => Window.pad s p.1 p.2) pre post m (0, 0) (0, (e : Int))
  have size : (Window.pad m 0 e).size = m + e := by
    simp only [Window.pad]
    omega
  have sizes : (pre.map (fun s => Window.pad s 0 0) ++ .pad m 0 e ::
      post.map fun s => Window.pad s 0 0).map Window.size = pre ++ (m + e) :: post := by
    rw [List.map_append, List.map_cons, unpadded_sizes, unpadded_sizes, size]
  obtain ⟨r, made⟩ := @look_ok α _ x (some 0)
    (shape ▸ @fits_middle pre post _ _ m (fun s => pad_fits s 0 0) (pad_fits m 0 e)) (.inl rfl)
  refine ⟨r, by rw [padWith, windows, made], (look_shape made).trans sizes,
    fun i j k first low last => ?_⟩
  have inside : Inside (pre ++ (m + e) :: post) (i ++ j :: k) :=
    (inside_append first.length).mpr ⟨first, low, last⟩
  have read : (Window.pad m 0 e).read j = if j < m then some j else none := by
    simp only [Window.pad]
    by_cases here : j < m
    · rw [if_pos here, if_pos (by omega)]
      simp
    · rw [if_neg here, if_neg (by omega)]
  rw [get?_look made (sizes ▸ inside), place_middle (place_unpadded first) (place_unpadded last)
    (by simp [first.length]), read]
  by_cases here : j < m
  · rw [if_pos here, if_pos here]
    rfl
  · rw [if_neg here, if_neg here]
    rfl

omit [CommSemiring α] in
theorem cropAxis_ok {m stop : Nat} (shape : x.shape = pre ++ m :: post) (low : stop ≤ m) : ∃ r,
    cropAxis x pre.length stop = some r ∧ r.shape = pre ++ stop :: post ∧
      ∀ i j k, Inside pre i → j < stop → Inside post k →
      r.get? (i ++ j :: k) = x.get? (i ++ j :: k) := by
  have windows : (x.shape.mapIdx fun j s => if j = pre.length then Window.slice s 0 stop 1
    else .all s) =
      pre.map .all ++ .slice m 0 stop 1 :: post.map .all := by
    rw [shape]
    exact mapIdx_at (fun s => Window.slice s 0 stop 1) Window.all pre post m
  have whole (l : List Nat) : (l.map Window.all).map Window.size = l := by
    rw [List.map_map]
    exact List.map_id l
  have size : (Window.slice m 0 stop 1).size = stop := by
    simp only [Window.slice, Nat.div_one]
    omega
  have sizes : (pre.map Window.all ++ .slice m 0 stop 1 :: post.map Window.all).map Window.size =
      pre ++ stop :: post := by
    rw [List.map_append, List.map_cons, whole, whole, size]
  obtain ⟨r, made⟩ := @look_ok α _ x none
    (shape ▸ @fits_middle pre post _ _ m all_fits (slice_fits m 0 stop Nat.one_pos))
    (.inr fun w mem => by
      simp only [List.mem_append, List.mem_map, List.mem_cons] at mem
      rcases mem with ⟨s, -, rfl⟩ | rfl | ⟨s, -, rfl⟩ <;> exact fun _ _ => rfl)
  refine ⟨r, by rw [cropAxis, windows, made], (look_shape made).trans sizes,
    fun i j k first here last => ?_⟩
  have inside : Inside (pre ++ stop :: post) (i ++ j :: k) :=
    (inside_append first.length).mpr ⟨first, here, last⟩
  have read : (Window.slice m 0 stop 1).read j = some j := by simp [Window.slice]
  rw [get?_look made (sizes ▸ inside), place_middle (place_all first) (place_all last)
    (by simp [first.length]), read]
  rfl

theorem dilateAxis_ok (shape : x.shape = pre ++ n :: post) (entries : 0 < n) (step : 1 < d) :
    ∃ r, dilateAxis x pre.length d = some r ∧ r.shape = pre ++ ((n - 1) * d + 1) :: post ∧
      ∀ i j k, Inside pre i → j < (n - 1) * d + 1 → Inside post k →
        r.get? (i ++ j :: k) = if d ∣ j then x.get? (i ++ j / d :: k) else some 0 := by
  have axis : x.shape[pre.length]? = some n := by simp [shape]
  have front : x.shape.take (pre.length + 1) = pre ++ [n] := by
    rw [shape, List.take_length_add_append]
    rfl
  have back : x.shape.drop (pre.length + 1) = post := by
    rw [shape, List.drop_length_add_append]
    rfl
  have start : x.shape.take pre.length = pre := by rw [shape, List.take_left]
  obtain ⟨x1, opened⟩ : ∃ x1, x.reshape (pre ++ ([n, 1] ++ post)) = some x1 :=
    reshape_ok (by simp [shape])
  have dims1 : x1.shape = (pre ++ [n]) ++ 1 :: post := by simpa using reshape_shape opened
  obtain ⟨x2, padded, dims2, gets2⟩ := @padAxis_ok α _ x1 (pre ++ [n]) post 1 (d - 1) dims1
  rw [Nat.add_sub_cancel' (Nat.le_of_lt step)] at dims2 gets2
  have dims2 : x2.shape = pre ++ ([n, d] ++ post) := by simpa using dims2
  obtain ⟨x3, merged⟩ : ∃ x3, x2.reshape (pre ++ ([n * d] ++ post)) = some x3 :=
    reshape_ok (by simp [dims2, Nat.mul_assoc])
  have room : (n - 1) * d + 1 ≤ n * d := by
    obtain ⟨n, rfl⟩ : ∃ k, n = k + 1 := ⟨n - 1, by omega⟩
    rw [Nat.add_sub_cancel, Nat.succ_mul]
    omega
  obtain ⟨r, cropped, dims, gets⟩ := cropAxis_ok (reshape_shape merged) room
  refine ⟨r, ?_, dims, fun i j k first low last => ?_⟩
  · have pad : ((d - 1 : Nat) : Int) = (d : Int) - 1 := by omega
    rw [List.length_append, List.length_singleton, pad] at padded
    rw [dilateAxis, axis, front, back, start]
    simp only [Option.bind_eq_bind, Option.bind_some, List.append_assoc, List.cons_append,
      List.nil_append] at opened merged ⊢
    simp only [opened, padded, merged, cropped, Option.bind_some]
  · have quotient : j / d < n := Nat.div_lt_of_lt_mul (by rw [Nat.mul_comm]; omega)
    have rest : j % d < d := Nat.mod_lt _ (by omega)
    have outer : r.get? (i ++ j :: k) = x2.get? (i ++ ([j / d, j % d] ++ k)) := by
      rw [gets i j k first low last]
      exact @get?_middle α x2 x3 pre [n, d] [n * d] post i [j / d, j % d] [j] k dims2 merged first
        ⟨quotient, rest, trivial⟩ ⟨by omega, trivial⟩ last (by simp)
          (by simp [offset, Nat.div_add_mod'])
    have inner : x2.get? (i ++ ([j / d, j % d] ++ k)) =
        if j % d < 1 then x1.get? (i ++ ([j / d, j % d] ++ k)) else some 0 := by
      have := gets2 (i ++ [j / d])
        (j % d) k ((inside_append first.length).mpr ⟨first, quotient, trivial⟩) rest last
      simpa using this
    have here : x1.get? (i ++ ([j / d, 0] ++ k)) = x.get? (i ++ ([j / d] ++ k)) :=
      @get?_middle α x x1 pre [n] [n, 1] post i [j / d] [j / d, 0] k shape opened first
        ⟨quotient, trivial⟩ ⟨quotient, Nat.one_pos, trivial⟩ last (by simp) (by simp [offset])
    rw [outer, inner]
    by_cases divides : d ∣ j
    · have none_left := Nat.mod_eq_zero_of_dvd divides
      rw [if_pos divides, none_left, if_pos Nat.one_pos, here]
      rfl
    · have left : ¬ j % d < 1 := fun small => divides (Nat.dvd_of_mod_eq_zero (by omega))
      rw [if_neg divides, if_neg left]

def thin : List Nat → List Nat → Option (List Nat)
  | d :: ds, j :: js => if d ∣ j then (thin ds js).map (j / d :: ·) else none
  | _, _ => some []

def dilated (n d : Nat) : Nat := (n - 1) * d + 1

theorem thin_inside {spatial ds j q : List Nat}
    (each : List.Forall₂ (fun n d => 0 < n ∧ 1 ≤ d) spatial ds)
    (inside : Inside (List.zipWith dilated spatial ds) j) (there : thin ds j = some q) :
      Inside spatial q := by
  induction each generalizing j q with
  | nil =>
    cases j with
    | nil =>
      cases there
      trivial
    | cons i is => cases inside
  | @cons n d ns ds here _ ih =>
    cases j with
    | nil => cases inside
    | cons j js =>
      simp only [thin] at there
      split at there
      · rename_i divides
        obtain ⟨q, rest, rfl⟩ := Option.map_eq_some_iff.mp there
        refine ⟨?_, ih inside.2 rest⟩
        obtain ⟨a, rfl⟩ := divides
        have low : d * a < (n - 1) * d + 1 := inside.1
        rw [Nat.mul_div_cancel_left a here.2]
        have : a ≤ n - 1 := Nat.le_of_mul_le_mul_left (by rw [Nat.mul_comm d (n - 1)]; omega) here.2
        omega
      · cases there

theorem dilateFrom_ok {spatial ds : List Nat} (shape : x.shape = pre ++ spatial)
    (each : List.Forall₂ (fun n d => 0 < n ∧ 1 ≤ d) spatial ds) : ∃ r,
    dilateFrom x pre.length ds = some r ∧ r.shape = pre ++ List.zipWith dilated spatial ds ∧
      ∀ i j, Inside pre i → Inside (List.zipWith dilated spatial ds) j →
        r.get? (i ++ j) = match thin ds j with
          | some q => x.get? (i ++ q)
          | none => some 0 := by
  induction each generalizing x pre with
  | nil =>
    refine ⟨x, rfl, shape, fun i j first last => ?_⟩
    obtain rfl := List.length_eq_zero_iff.mp last.length
    rfl
  | @cons n d ns ds here rest ih =>
    have next : pre.length + 1 = (pre ++ [dilated n d]).length := by simp
    rcases Nat.lt_or_ge 1 d with step | alone
    · obtain ⟨x', spread, dims, gets⟩ := dilateAxis_ok shape here.1 step
      obtain ⟨r, looped, dims', gets'⟩ := @ih x' (pre ++ [dilated n d]) (by simp [dims, dilated])
      refine ⟨r, ?_, by simp [dims'], fun i j first last => ?_⟩
      · rw [dilateFrom, if_neg (Nat.not_le.mpr step), spread, Option.bind_some, next, looped]
      · cases j with
        | nil => cases last
        | cons j js =>
          have here := gets' (i ++ [j]) js
            ((inside_append first.length).mpr ⟨first, last.1, trivial⟩) last.2
          simp only [List.append_assoc, List.singleton_append] at here
          rw [here]
          cases thinned : thin ds js with
          | none => simp only [thin, thinned, Option.map_none, ite_self]
          | some q =>
            simp only [gets i j q first last.1 (thin_inside rest last.2 thinned), thin, thinned,
              Option.map_some]
            by_cases divides : d ∣ j
            · rw [if_pos divides, if_pos divides]
            · rw [if_neg divides, if_neg divides]
    · obtain rfl : d = 1 := by omega
      have same : dilated n 1 = n := by
        unfold dilated
        omega
      obtain ⟨r, looped, dims', gets'⟩ := @ih x (pre ++ [dilated n 1]) (by simp [shape, same])
      refine ⟨r, ?_, by simp [dims'], fun i j first last => ?_⟩
      · rw [dilateFrom, if_pos le_rfl, next, looped]
      · cases j with
        | nil => cases last
        | cons j js =>
          have here := gets' (i ++ [j]) js
            ((inside_append first.length).mpr ⟨first, last.1, trivial⟩) last.2
          simp only [List.append_assoc, List.singleton_append] at here
          rw [here]
          cases thinned : thin ds js <;> simp [thin, thinned]

theorem dilate_any (x : NDArray α) (ds : List Nat) :
    (if ds.any (· ≠ 1) then dilate x ds else some x) = dilate x ds := by
  have ones : ∀ (ds : List Nat) (k : Nat), (∀ d ∈ ds, d = 1) → dilateFrom x k ds = some x := by
    intro ds
    induction ds with
    | nil => exact fun k _ => rfl
    | cons d ds ih =>
      intro k all
      rw [dilateFrom, if_pos (all d (List.mem_cons_self ..)).le]
      exact ih (k + 1) fun e mem => all e (List.mem_cons_of_mem _ mem)
  split
  · rfl
  · rename_i none
    refine (ones ds 2 fun d mem => ?_).symm
    by_contra other
    exact none (List.any_eq_true.mpr ⟨d, mem, by simpa using other⟩)

end dilation

section spread
variable {spatial ds : List Nat} {ps : List (Int × Int)}

theorem spread_sizes (spatial ds : List Nat) (ps : List (Int × Int)) :
    (pads (List.zipWith dilated spatial ds) ps).map Window.size = spreadSizes spatial ds ps := by
  induction spatial generalizing ds ps with
  | nil => rfl
  | cons n ns ih =>
    cases ds with
    | nil => rfl
    | cons d ds =>
      cases ps with
      | nil => rfl
      | cons p ps => exact congrArg (_ :: ·) (ih ds ps)

theorem spread_fit (len : ds.length = spatial.length) (len' : ps.length = spatial.length) :
    List.Forall₂ Window.Fits (List.zipWith dilated spatial ds)
    (pads (List.zipWith dilated spatial ds) ps) :=
  pads_fit (by rw [List.length_zipWith, len, Nat.min_self, len'])

theorem below_dilated {n d q : Nat} (entries : 0 < n) (step : 1 ≤ d) (divides : d ∣ q) :
    q / d < n ↔ q < dilated n d := by
  obtain ⟨a, rfl⟩ := divides
  rw [Nat.mul_div_cancel_left a step, dilated, Nat.lt_succ_iff, Nat.mul_comm,
    Nat.mul_le_mul_right_iff step]
  omega

theorem spread_place {j : List Nat} (each : List.Forall₂ (fun n d => 0 < n ∧ 1 ≤ d) spatial ds)
    (len : ps.length = spatial.length) (inside : Inside (spreadSizes spatial ds ps) j) :
    spreadSource spatial ds ps j =
    (place (pads (List.zipWith dilated spatial ds) ps) j).bind (thin ds) := by
  induction each generalizing ps j with
  | nil =>
    obtain rfl := List.length_eq_zero_iff.mp len
    obtain rfl := List.length_eq_zero_iff.mp inside.length
    rfl
  | @cons n d ns ds here _ ih =>
    cases ps with
    | nil => cases len
    | cons p ps =>
      obtain ⟨lo, hi⟩ := p
      cases j with
      | nil => cases inside
      | cons j js =>
        have later := ih (by simpa using len) inside.2
        have read : place (pads (List.zipWith dilated (n :: ns) (d :: ds)) ((lo, hi) :: ps)) (j :: js) =
            ((Window.pad (dilated n d) lo hi).read j).bind fun i =>
              (place (pads (List.zipWith dilated ns ds) ps) js).map (i :: ·) := rfl
        rw [read, spreadSource, later]
        by_cases low : lo ≤ j
        · obtain ⟨q, shift⟩ : ∃ q : Nat, (j : Int) - lo = q := ⟨((j : Int) - lo).toNat, by omega⟩
          have window : (Window.pad (dilated n d) lo hi).read j = if q < dilated n d then some q
            else none := by
            simp only [Window.pad, shift, Int.toNat_natCast]
            exact if_congr (by omega) rfl rfl
          have quotient : (((j : Int) - lo) / d).toNat = q / d := by
            rw [shift, ← Int.natCast_div, Int.toNat_natCast]
          have there : (lo ≤ j ∧ (d : Int) ∣ j - lo ∧ (j - lo) / d < n) ↔ d ∣ q ∧ q < dilated n d := by
            rw [shift, Int.natCast_dvd_natCast, ← Int.natCast_div, Int.ofNat_lt]
            exact ⟨fun all => ⟨all.2.1, (below_dilated here.1 here.2 all.2.1).mp all.2.2⟩,
              fun all => ⟨low, all.1, (below_dilated here.1 here.2 all.1).mpr all.2⟩⟩
          rw [window, if_congr there rfl rfl, quotient]
          by_cases within : q < dilated n d
          · rw [if_pos within, if_congr (and_iff_left within) rfl rfl]
            cases place (pads (List.zipWith dilated ns ds) ps) js <;> simp [thin]
          · rw [if_neg within, if_neg fun all => within all.2]
            rfl
        · have window : (Window.pad (dilated n d) lo hi).read j = none := if_neg fun all => low all.1
          rw [window, if_neg fun all => low all.1]
          rfl

theorem spread_inside {j q : List Nat} (each : List.Forall₂ (fun n d => 0 < n ∧ 1 ≤ d) spatial ds)
    (len : ps.length = spatial.length) (inside : Inside (spreadSizes spatial ds ps) j)
    (there : spreadSource spatial ds ps j = some q) : Inside spatial q := by
  rw [spread_place each len inside] at there
  obtain ⟨i, padded, thinned⟩ := Option.bind_eq_some_iff.mp there
  have low := place_inside (spread_fit each.length_eq.symm len) (by rwa [spread_sizes]) padded
  exact thin_inside each low thinned

theorem padded_ok {x : NDArray α} {bs channels : Nat} (shape : x.shape = bs :: channels :: spatial)
    (each : List.Forall₂ (fun n d => 0 < n ∧ 1 ≤ d) spatial ds) (len : ps.length = spatial.length) :
    ∃ wide r, dilate x ds = some wide ∧ wide.shape.length = spatial.length + 2 ∧
      padWith wide ((0, 0) :: (0, 0) :: ps) 0 = some r ∧
      r.shape = bs :: channels :: spreadSizes spatial ds ps ∧
      ∀ b c j, b < bs → c < channels → Inside (spreadSizes spatial ds ps) j →
        r.get? (b :: c :: j) = match spreadSource spatial ds ps j with
          | some q => x.get? (b :: c :: q)
          | none => some 0 := by
  have count : ds.length = spatial.length := each.length_eq.symm
  obtain ⟨wide, looped, dims, gets⟩ := @dilateFrom_ok α _ x [bs, channels] spatial ds shape each
  have windows : List.zipWith (fun s (p : Int × Int) => Window.pad s p.1 p.2) wide.shape
      ((0, 0) :: (0, 0) :: ps) =
      [bs, channels].map (fun s => .pad s 0 0) ++ pads (List.zipWith dilated spatial ds) ps := by
    rw [dims]
    rfl
  have fits : List.Forall₂ Window.Fits wide.shape
      ([bs, channels].map (fun s => .pad s 0 0) ++ pads (List.zipWith dilated spatial ds) ps) := by
    rw [dims]
    exact .cons (pad_fits bs 0 0) (.cons (pad_fits channels 0 0) (spread_fit count len))
  have sizes : ([bs, channels].map (fun s => Window.pad s 0 0) ++ pads
      (List.zipWith dilated spatial ds) ps).map Window.size =
      bs :: channels :: spreadSizes spatial ds ps := by
    rw [List.map_append, unpadded_sizes, spread_sizes]
    rfl
  obtain ⟨r, made⟩ := @look_ok α _ wide (some 0) fits (.inl rfl)
  refine ⟨wide, r, looped, by simp [dims, count], by rw [padWith, windows, made],
    (look_shape made).trans sizes, fun b c j batch channel inside => ?_⟩
  have front : Inside [bs, channels] [b, c] := ⟨batch, channel, trivial⟩
  have place : place ([bs, channels].map (fun s => .pad s 0 0) ++ pads
      (List.zipWith dilated spatial ds) ps) (b :: c :: j) =
      (place (pads (List.zipWith dilated spatial ds) ps) j).map fun q => b :: c :: q := by
    have both := @place_append ([bs, channels].map fun s => .pad s 0 0)
      (pads (List.zipWith dilated spatial ds) ps) [b, c] j rfl
    rwa [place_unpadded front, Option.bind_some] at both
  have inside' : Inside (([bs, channels].map (fun s => Window.pad s 0 0) ++
      pads (List.zipWith dilated spatial ds) ps).map Window.size) (b :: c :: j) := by
    rw [sizes]
    exact ⟨batch, channel, inside⟩
  rw [get?_look made inside', place, spread_place each len inside]
  cases there : NDArray.place (pads (List.zipWith dilated spatial ds) ps) j with
  | none => rfl
  | some i =>
    have low := place_inside (spread_fit count len) (by rwa [spread_sizes]) there
    exact gets [b, c] i front low

end spread

section conv
variable {a : ConvOpts} {x w : NDArray α} {bs cin rcout : Nat} {spatial kernel : List Nat}

theorem spreadSizes_length {ds : List Nat} {ps : List (Int × Int)} (len : ds.length = spatial.length)
    (len' : ps.length = spatial.length) : (spreadSizes spatial ds ps).length = spatial.length := by
  have count := (spread_fit len len').length_eq
  rw [← spread_sizes, List.length_map, ← count, List.length_zipWith, len, Nat.min_self]

theorem entry_permuted {t moved : NDArray α} {axes shape idx : List Nat}
    (order : axes.Perm (List.range t.shape.length)) (made : t.permute axes = some moved)
    (dims : arrange axes t.shape = shape) (inside : Inside shape idx) :
    moved.entry idx = t.entry (restore axes t.shape.length idx) := by
  rw [entry, entry, permute_at order made (dims ▸ inside)]

theorem conv2d_ok {x w : NDArray α} {groups : Nat} {spatial strides dilations : List Nat}
    (shape : x.shape = bs :: (groups * cin) :: spatial)
    (shape' : w.shape = (groups * rcout) :: cin :: kernel)
    (some_group : 0 < groups) (fits : Fits spatial kernel strides dilations) : ∃ out,
    conv2d x w groups strides dilations = some out ∧
      out.shape = bs :: (groups * rcout) :: outDims spatial kernel strides dilations ∧
      ∀ b o p, Inside out.shape (b :: o :: p) → out.get? (b :: o :: p) =
        some ((List.range cin).map fun c => ((indices kernel).map fun k =>
          x.entry (b :: (o / rcout * cin + c) :: windowAt strides dilations p k) *
            w.entry (o :: c :: k)).sum).sum := by
  rw [conv2d, shape, shape']
  refine ⟨_, if_pos ⟨rfl, some_group, Nat.dvd_mul_right .., fits⟩, rfl, fun b o p inside => ?_⟩
  have inside : Inside (bs :: (groups * rcout) :: outDims spatial kernel strides dilations)
      (b :: o :: p) := inside
  rw [get?_tabulate inside, Nat.mul_div_cancel_left _ some_group]

theorem conv_direct (accepted : Accepted a x w bs cin rcout spatial kernel) :
    ∃ r canonical, conv a x w = .ok r ∧ r.permute a.outputPermutation = some canonical ∧
      canonical.shape = bs :: (a.featureGroupSize * rcout) ::
        outDims (spreadSizes spatial a.inputDilation a.padding) kernel a.strides a.kernelDilation ∧
      ∀ b o p, Inside canonical.shape (b :: o :: p) →
        canonical.get? (b :: o :: p) = some (direct a x w cin rcout spatial kernel b o p) := by
  have count := accepted.dilations.length_eq.symm
  obtain ⟨x', permuted, dims, -⟩ := permute_ok accepted.inputOrder
  rw [accepted.input] at dims
  obtain ⟨w', permuted', dims', -⟩ := permute_ok accepted.kernelOrder
  rw [accepted.weights] at dims'
  obtain ⟨wide, padded, spread, rank, added, dims'', gets⟩ :=
    padded_ok dims accepted.dilations accepted.paddings
  obtain ⟨out, summed, shape, entries⟩ := conv2d_ok dims'' dims' accepted.groups accepted.fits
  have axes : a.outputPermutation.length = out.shape.length := by
    rw [accepted.outputOrder.length_eq, List.length_range, shape, List.length_cons, List.length_cons,
      outDims_length accepted.fits, spreadSizes_length count accepted.paddings]
  have order : a.outputPermutation.Perm (List.range out.shape.length) := by
    rw [← axes, accepted.outputOrder.length_eq, List.length_range]
    exact accepted.outputOrder
  obtain ⟨r, restored, again⟩ := permute_inverse order
  refine ⟨r, out, ?_, again, shape, fun b o p inside => ?_⟩
  · have config : ((0, 0) :: (0, 0) :: a.padding).length = wide.shape.length := by
      rw [List.length_cons, List.length_cons, accepted.paddings, rank]
    rw [conv, if_neg (not_not.mpr accepted.batch), bind_step permuted, bind_step permuted', dilate_any,
      bind_step spread]
    dsimp only
    rw [pad_any wide config 0, bind_step added, bind_step summed, axes, restored, orRaise]
  · rw [entries b o p inside]
    rw [shape] at inside
    obtain ⟨batch, channel, place⟩ := inside
    have group : o / rcout < a.featureGroupSize :=
      Nat.div_lt_of_lt_mul (by rw [Nat.mul_comm]; exact channel)
    refine congrArg (fun l : List α => some l.sum) (List.map_congr_left fun c mem => ?_)
    have low := List.mem_range.mp mem
    have channel' : o / rcout * cin + c < a.featureGroupSize * cin := by
      have := Nat.mul_le_mul_right cin (Nat.succ_le_of_lt group)
      rw [Nat.succ_mul] at this
      omega
    refine congrArg List.sum (List.map_congr_left fun k mem => ?_)
    have window := windowAt_inside accepted.fits place (mem_indices.mp mem)
    have weight := entry_permuted accepted.kernelOrder permuted' accepted.weights
      (show Inside _ (o :: c :: k) from ⟨channel, low, mem_indices.mp mem⟩)
    have input : padded.entry (b :: (o / rcout * cin + c) :: windowAt a.strides a.kernelDilation p k) =
        inputAt a x spatial b (o / rcout * cin + c) (windowAt a.strides a.kernelDilation p k) := by
      rw [entry, gets b _ _ batch channel' window, inputAt]
      cases there : spreadSource spatial a.inputDilation a.padding
        (windowAt a.strides a.kernelDilation p k) with
      | none => rfl
      | some q =>
        have inside := spread_inside accepted.dilations accepted.paddings window there
        exact entry_permuted accepted.inputOrder permuted accepted.input ⟨batch, channel', inside⟩
    rw [input, weight, mul_comm]

end conv

/-- Channels last, two groups, an entry added before and one cropped after. -/
def layout : ConvOpts :=
  ⟨[1], [(1, -1)], [2], [2], 2, 1, [0, 2, 1], [2, 1, 0], [1, 2, 0]⟩

def image : NDArray Int := ⟨[1, 3, 2], [1, 10, 2, 20, 3, 30], rfl⟩

def filter : NDArray Int := ⟨[2, 1, 2], [1, 3, 2, 4], rfl⟩

theorem channels_last_direct : ∃ r canonical, conv layout image filter = .ok r ∧
    r.permute [1, 2, 0] = some canonical ∧ canonical.shape = [1, 2, 3] ∧
      ∀ b o p, Inside canonical.shape (b :: o :: p) →
        canonical.get? (b :: o :: p) = some (direct layout image filter 1 1 [3] [2] b o p) :=
  @conv_direct Int _ layout image filter 1 1 1 [3] [2]
    ⟨rfl, by decide, by decide, rfl, by decide, rfl, by decide, by simp [layout], rfl, by decide⟩

example : (conv layout image filter).toOption = some ⟨[3, 1, 2], [0, 0, 5, 110, 0, 0], rfl⟩ := by
  decide +kernel

end NxTinygrad.Convolution
