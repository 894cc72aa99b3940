import NxTinygrad.ComplexOps
import NxTinygrad.Lib.Strands

/- `_concatenate`, `_stack` and `_slice` along one axis: parts that are put together and cut out again. -/
namespace NxTinygrad.Parts
open NDArray ComplexOps

variable {α : Type}

def concatenate (ts : List (NDArray α)) (axis : Nat) : Option (NDArray α) :=
  match ts with
  | [t] => some t
  | ts => cat ts axis

def insertOne (shape : List Nat) (axis : Nat) : List Nat := shape.take axis ++ 1 :: shape.drop axis

def stack (ts : List (NDArray α)) (axis : Nat) : Option (NDArray α) := do
  concatenate (← ts.mapM fun x => x.reshape (insertOne x.shape axis)) axis

/-- Start, length and stride for each axis, of `length` entries along `axis` and of all along the others. -/
def along (shape : List Nat) (axis start length : Nat) : List (Int × Nat × Nat) :=
  shape.mapIdx fun a d => if a = axis then ((start : Int), length, 1) else (0, d, 1)

def cut (t : NDArray α) (axis start length : Nat) : Option (NDArray α) :=
  ComplexOps.getItem t (along t.shape axis start length)

def cuts (t : NDArray α) (axis : Nat) : Nat → List Nat → Option (List (NDArray α))
  | _, [] => some []
  | start, l :: ls => do
      let first ← cut t axis start l
      some (first :: (← cuts t axis (start + l) ls))

def size (axis : Nat) (t : NDArray α) : Nat := t.shape.getD axis 0

variable {pre post i k : List Nat} {t r : NDArray α} {axis n start l : Nat}

theorem along_between (pre post : List Nat) (n start l : Nat) :
    along (pre ++ n :: post) pre.length start l =
      pre.map (fun d => (0, d, 1)) ++ ((start : Int), l, 1) :: post.map fun d => (0, d, 1) := by
  exact mapIdx_at (fun _ => ((start : Int), l, 1)) (fun d => (0, d, 1)) pre post n

theorem whole_window (d : Nat) : sliceWindow d 0 d 1 = .all d := by
  have fits : (0 : Nat) + d ≤ d := by omega
  have here : sliceWindow d (0 : Nat) d 1 = _ := sliceWindow_eq fits
  simp only [Nat.cast_zero] at here
  rw [here]
  simp [Window.all]

theorem whole_windows (shape : List Nat) :
    List.zipWith (fun d (s : Int × Nat × Nat) => sliceWindow d s.1 s.2.1 s.2.2) shape
      (shape.map fun d => (0, d, 1)) = shape.map .all := by
  rw [List.zipWith_map_right, List.zipWith_self]
  exact List.map_congr_left fun d _ => whole_window d

theorem cut_strands (dims : t.shape = pre ++ n :: post) (low : start + l ≤ n) :
    ∃ out, cut t pre.length start l = some out ∧ out.shape = pre ++ l :: post ∧
      ∀ i k, Inside pre i → Inside post k →
        strand pre.length out i k = ((strand pre.length t i k).drop start).take l := by
  let window : Window := ⟨l, fun j => some (start + j)⟩
  have windows : List.zipWith (fun d (s : Int × Nat × Nat) => sliceWindow d s.1 s.2.1 s.2.2) t.shape
      (along t.shape pre.length start l) = pre.map .all ++ window :: post.map .all := by
    have here : sliceWindow n start l 1 = window := by
      rw [sliceWindow_eq low]
      simp [window]
    rw [dims, along_between, List.zipWith_append (by simp), List.zipWith_cons_cons, whole_windows,
      whole_windows, here]
  have count : (along t.shape pre.length start l).length = t.shape.length := by simp [along]
  have sizes : (pre.map Window.all ++ window :: post.map .all).map Window.size = pre ++ l :: post := by
    simp [Function.comp_def, Window.all, window]
  have fits : List.Forall₂ Window.Fits t.shape (pre.map .all ++ window :: post.map .all) := by
    have all : ∀ shape : List Nat, List.Forall₂ Window.Fits shape (shape.map .all) := by
      intro shape
      exact List.forall₂_map_right_iff.mpr (List.forall₂_same.mpr fun d _ => all_fits d)
    rw [dims]
    apply List.rel_append (all pre)
    refine .cons ?_ (all post)
    rintro j _ below ⟨⟩
    have below : j < l := below
    omega
  have whole : ∀ w ∈ pre.map Window.all ++ window :: post.map .all, w.Whole := by
    intro w mem j _
    simp only [List.mem_append, List.mem_map, List.mem_cons] at mem
    rcases mem with ⟨_, _, rfl⟩ | rfl | ⟨_, _, rfl⟩ <;> rfl
  obtain ⟨out, made⟩ : ∃ out, look t (pre.map .all ++ window :: post.map .all) none = some out :=
    look_ok fits (.inr whole)
  have shape := (look_shape made).trans sizes
  refine ⟨out, ?_, shape, fun i k first last => ?_⟩
  · rw [cut, ComplexOps.getItem, if_pos (Nat.le_of_eq count), windows, count, List.drop_length, List.map_nil,
      List.append_nil]
    exact made
  · apply strand_of_get shape
    · rw [List.length_take, List.length_drop, strand_length dims]
      omega
    · intro j below
      have inside : Inside (pre ++ l :: post) (i ++ j :: k) :=
        (inside_append first.length).mpr ⟨first, below, last⟩
      have read : place (pre.map Window.all ++ window :: post.map .all) (i ++ j :: k) =
          some (i ++ (start + j) :: k) := by
        rw [place_append (by rw [List.length_map, first.length]), place_all first, place, place_all last]
        rfl
      rw [get?_look made (sizes ▸ inside), read, List.getElem?_take_of_lt below, List.getElem?_drop,
        strand_get dims (by omega)]
      rfl

theorem shape_split_at (low : axis < t.shape.length) :
    ∃ pre n post, pre.length = axis ∧ t.shape = pre ++ n :: post := by
  refine ⟨t.shape.take axis, t.shape[axis], t.shape.drop (axis + 1), ?_, ?_⟩
  · exact List.length_take_of_le (Nat.le_of_lt low)
  · rw [List.getElem_cons_drop, List.take_append_drop]

theorem concatenate_strands {ts : List (NDArray α)} (some_part : ts ≠ [])
    (sized : ∀ u ∈ ts, ∃ n, u.shape = pre ++ n :: post) : ∃ r, concatenate ts pre.length = some r ∧
      r.shape = pre ++ (ts.map (size pre.length)).sum :: post ∧ ∀ i k, Inside pre i → Inside post k →
        strand pre.length r i k = (ts.map fun u => strand pre.length u i k).flatten := by
  cases ts with
  | nil => exact absurd rfl some_part
  | cons t rest =>
    cases rest with
    | nil =>
      obtain ⟨n, dims⟩ := sized t (List.mem_cons_self ..)
      refine ⟨t, rfl, ?_, fun i k _ _ => ?_⟩
      · rw [List.map_singleton, List.sum_singleton, size]
        rw [dims, getD_between]
      · rw [List.map_singleton, List.flatten_singleton]
    | cons u rest => exact cat_strands some_part sized

theorem concatenate_around {ts : List (NDArray α)} (made : concatenate ts axis = some r)
    (low : axis < r.shape.length) :
    ts ≠ [] ∧ ∃ pre post, pre.length = axis ∧ ∀ u ∈ ts, ∃ n, u.shape = pre ++ n :: post := by
  cases ts with
  | nil => cases made
  | cons t rest =>
    refine ⟨List.cons_ne_nil _ _, ?_⟩
    cases rest with
    | nil =>
      cases made
      obtain ⟨pre, n, post, len, dims⟩ := shape_split_at low
      refine ⟨pre, post, len, fun u mem => ?_⟩
      rw [List.mem_singleton.mp mem]
      exact ⟨n, dims⟩
    | cons u rest => exact cat_around made

theorem flatten_part {β : Type} {ls : List (List β)} {j : Nat} {x : List β} (there : ls[j]? = some x) :
    (ls.flatten.drop ((ls.take j).map List.length).sum).take x.length = x := by
  induction ls generalizing j with
  | nil => cases there
  | cons y ls ih =>
    cases j with
    | zero =>
      cases there
      simp
    | succ j =>
      rw [List.take_succ_cons, List.map_cons, List.sum_cons, List.flatten_cons, List.drop_append,
        List.drop_eq_nil_of_le (Nat.le_add_right _ _), Nat.add_sub_cancel_left, List.nil_append]
      exact ih there

theorem part_below {β : Type} {ls : List β} {f : β → Nat} {j : Nat} {x : β} (there : ls[j]? = some x) :
    ((ls.take j).map f).sum + f x ≤ (ls.map f).sum := by
  induction ls generalizing j with
  | nil => cases there
  | cons y ls ih =>
    cases j with
    | zero =>
      cases there
      simp
    | succ j =>
      have := ih there
      rw [List.take_succ_cons, List.map_cons, List.map_cons, List.sum_cons, List.sum_cons]
      omega

theorem cut_concatenate {ts : List (NDArray α)} {j : Nat} (made : concatenate ts axis = some r)
    (low : axis < r.shape.length) (there : ts[j]? = some t) :
    cut r axis ((ts.take j).map (size axis)).sum (size axis t) = some t := by
  obtain ⟨some_part, pre, post, rfl, sized⟩ := concatenate_around made low
  obtain ⟨r', made', dims, strands⟩ := concatenate_strands some_part sized
  cases made.symm.trans made'
  obtain ⟨n, dims'⟩ := sized t (List.mem_of_getElem? there)
  have length : size pre.length t = n := by rw [size, dims', getD_between]
  obtain ⟨out, cut_out, shape, same⟩ := cut_strands dims (part_below there)
  rw [cut_out]
  refine congrArg some (ext_strand (shape.trans (by rw [length])) dims' fun i k first last => ?_)
  rw [same i k first last, strands i k first last]
  have part : (ts.map fun u => strand pre.length u i k)[j]? = some (strand pre.length t i k) := by
    rw [List.getElem?_map, there, Option.map_some]
  have offsets : ((ts.map fun u => strand pre.length u i k).take j).map List.length =
      (ts.take j).map (size pre.length) := by
    rw [← List.map_take, List.map_map]
    refine List.map_congr_left fun u mem => ?_
    obtain ⟨m, dims''⟩ := sized u (List.mem_of_mem_take mem)
    rw [Function.comp_apply, strand_length dims'', size, dims'', getD_between]
  have back := flatten_part part
  rw [offsets, strand_length dims', ← length] at back
  exact back

theorem cuts_strands {ls : List Nat} (dims : t.shape = pre ++ n :: post) (low : start + ls.sum ≤ n) :
    ∃ ts, cuts t pre.length start ls = some ts ∧ ts.length = ls.length ∧
      (∀ u ∈ ts, ∃ m, u.shape = pre ++ m :: post) ∧ ts.map (size pre.length) = ls ∧
      ∀ i k, Inside pre i → Inside post k → (ts.map fun u => strand pre.length u i k) =
        ls.splitLengths ((strand pre.length t i k).drop start) := by
  induction ls generalizing start with
  | nil => exact ⟨[], rfl, rfl, fun _ mem => (List.not_mem_nil mem).elim, rfl, fun _ _ _ _ => rfl⟩
  | cons l ls ih =>
    rw [List.sum_cons] at low
    have here : start + l ≤ n := by omega
    have later : start + l + ls.sum ≤ n := by omega
    obtain ⟨first, made, shape, same⟩ := cut_strands dims here
    obtain ⟨ts, rest, len, sized, sizes, strands⟩ := ih later
    refine ⟨first :: ts, ?_, by simp [len], ?_, ?_, fun i k inside inside' => ?_⟩
    · simp only [cuts, made, rest, Option.bind_eq_bind, Option.bind_some]
    · intro u mem
      rcases List.mem_cons.mp mem with rfl | mem
      · exact ⟨l, shape⟩
      · exact sized u mem
    · rw [List.map_cons, sizes, size, shape, getD_between]
    · rw [List.map_cons, same i k inside inside', strands i k inside inside', List.splitLengths_cons,
        List.drop_drop]

theorem concatenate_cuts {ls : List Nat} (low : axis < t.shape.length) (some_part : ls ≠ [])
    (total : ls.sum = size axis t) :
    ∃ ts, cuts t axis 0 ls = some ts ∧ concatenate ts axis = some t := by
  obtain ⟨pre, n, post, rfl, dims⟩ := shape_split_at low
  have all : size pre.length t = n := by rw [size, dims, getD_between]
  have fits : 0 + ls.sum ≤ n := by omega
  obtain ⟨ts, made, len, sized, sizes, strands⟩ := cuts_strands dims fits
  have some_tensor : ts ≠ [] := by
    rintro rfl
    exact some_part (List.length_eq_zero_iff.mp len.symm)
  obtain ⟨r, joined, shape, same⟩ := concatenate_strands some_tensor sized
  refine ⟨ts, made, joined.trans (congrArg some ?_)⟩
  have shape' : r.shape = pre ++ n :: post := by rw [shape, sizes, total, all]
  apply ext_strand shape' dims
  intro i k inside inside'
  rw [same i k inside inside', strands i k inside inside', List.drop_zero]
  apply List.flatten_splitLengths
  rw [strand_length dims]
  omega

theorem concatenate_flatten {tss : List (List (NDArray α))} {rs : List (NDArray α)}
    (parts : List.Forall₂ (fun ts u => concatenate ts axis = some u) tss rs)
    (made : concatenate rs axis = some r) (low : axis < r.shape.length) :
    concatenate tss.flatten axis = some r := by
  obtain ⟨some_part, pre, post, rfl, sized⟩ := concatenate_around made low
  obtain ⟨r', made', dims, strands⟩ := concatenate_strands some_part sized
  cases made.symm.trans made'
  -- the parts of the parts, their sizes and their strands
  have inner : (∀ ts ∈ tss, ts ≠ []) ∧ (∀ u ∈ tss.flatten, ∃ n, u.shape = pre ++ n :: post) ∧
      (tss.flatten.map (size pre.length)).sum = (rs.map (size pre.length)).sum ∧
      ∀ i k, Inside pre i → Inside post k → (tss.flatten.map fun u => strand pre.length u i k).flatten =
        (rs.map fun u => strand pre.length u i k).flatten := by
    clear made made' dims strands some_part low
    induction parts with
    | nil =>
      exact ⟨fun _ mem => (List.not_mem_nil mem).elim, fun _ mem => (List.not_mem_nil mem).elim, rfl,
        fun _ _ _ _ => rfl⟩
    | @cons ts u tss rs joined _ ih =>
      obtain ⟨n, shape⟩ := sized u (List.mem_cons_self ..)
      obtain ⟨nonempty, sized', sizes, strands⟩ := ih fun v mem => sized v (List.mem_cons_of_mem _ mem)
      have rank : pre.length < u.shape.length := by
        rw [shape, List.length_append, List.length_cons]
        omega
      obtain ⟨some_tensor, pre', post', len, here⟩ := concatenate_around joined rank
      obtain ⟨u', joined', shape', strands'⟩ := concatenate_strands some_tensor here
      rw [len, joined] at joined'
      cases joined'
      obtain ⟨rfl, same⟩ := List.append_inj (shape'.symm.trans shape) len
      cases same
      refine ⟨?_, ?_, ?_, fun i k inside inside' => ?_⟩
      · intro v mem
        rcases List.mem_cons.mp mem with rfl | mem
        · exact some_tensor
        · exact nonempty v mem
      · intro v mem
        rcases List.mem_append.mp mem with mem | mem
        · exact here v mem
        · exact sized' v mem
      · have total : size pre'.length u = (ts.map (size pre'.length)).sum := by
          rw [size, shape', getD_between]
        rw [List.flatten_cons, List.map_append, List.sum_append, sizes, List.map_cons, List.sum_cons, total]
      · rw [List.flatten_cons, List.map_append, List.flatten_append, strands i k inside inside',
          List.map_cons, List.flatten_cons, strands' i k inside inside']
  obtain ⟨nonempty, sized', sizes, same⟩ := inner
  have some_tensor : tss.flatten ≠ [] := by
    intro none
    cases parts with
    | nil => exact some_part rfl
    | @cons ts _ _ _ _ _ =>
      exact nonempty ts (List.mem_cons_self ..) (List.flatten_eq_nil_iff.mp none ts (List.mem_cons_self ..))
  obtain ⟨r', joined, shape, strands'⟩ := concatenate_strands some_tensor sized'
  refine joined.trans (congrArg some (ext_strand shape ?_ fun i k inside inside' => ?_))
  · rw [dims, sizes]
  · rw [strands' i k inside inside', same i k inside inside', strands i k inside inside']

theorem insertOne_prod (shape : List Nat) (axis : Nat) : shape.prod = (insertOne shape axis).prod := by
  rw [insertOne, List.prod_append, List.prod_cons, Nat.one_mul, List.prod_take_mul_prod_drop]

theorem concatenate_rank {ts : List (NDArray α)} (made : concatenate ts axis = some r)
    (low : ∀ u ∈ ts, axis < u.shape.length) : axis < r.shape.length := by
  cases ts with
  | nil => cases made
  | cons t rest =>
    cases rest with
    | nil =>
      cases made
      exact low r (List.mem_cons_self ..)
    | cons u rest =>
      obtain ⟨rank, -, shape, -⟩ := cat_some made
      rw [shape, List.length_set]
      exact rank

theorem cut_stack {ts : List (NDArray α)} {j : Nat} (made : stack ts axis = some r)
    (low : ∀ u ∈ ts, axis ≤ u.shape.length) (there : ts[j]? = some t) :
    (cut r axis j 1).bind (·.reshape t.shape) = some t := by
  obtain ⟨parts, reshaped, joined⟩ := Option.bind_eq_some_iff.mp made
  obtain ⟨len, gets⟩ := NDArray.mapM_get reshaped
  have one : ∀ (m : Nat) (p : NDArray α), parts[m]? = some p →
      ∃ u, ts[m]? = some u ∧ u.reshape (insertOne u.shape axis) = some p ∧ size axis p = 1 ∧
        axis < p.shape.length := by
    intro m p at_m
    have from_m := gets m
    rw [at_m] at from_m
    obtain ⟨u, at_u, moved⟩ := Option.bind_eq_some_iff.mp from_m.symm
    have rank := low u (List.mem_of_getElem? at_u)
    refine ⟨u, at_u, moved, ?_, ?_⟩
    · rw [size, reshape_shape moved, insertOne]
      have := getD_between (u.shape.take axis) (u.shape.drop axis) 1
      rwa [List.length_take_of_le rank] at this
    · rw [reshape_shape moved, insertOne, List.length_append, List.length_cons,
        List.length_take_of_le rank]
      omega
  obtain ⟨p, at_p, moved⟩ : ∃ p, parts[j]? = some p ∧
      t.reshape (insertOne t.shape axis) = some p := by
    obtain ⟨p, moved⟩ := reshape_ok (insertOne_prod t.shape axis)
    exact ⟨p, by rw [gets j, there, Option.bind_some, moved], moved⟩
  have all : ∀ p ∈ parts, size axis p = 1 ∧ axis < p.shape.length := by
    intro p mem
    obtain ⟨m, at_m⟩ := List.mem_iff_getElem?.mp mem
    obtain ⟨_, _, _, this⟩ := one m p at_m
    exact this
  have offset : ((parts.take j).map (size axis)).sum = j := by
    have below := (List.getElem?_eq_some_iff.mp at_p).1
    rw [List.map_congr_left fun p mem => (all p (List.mem_of_mem_take mem)).1, List.map_const',
      List.sum_replicate, smul_eq_mul, Nat.mul_one, List.length_take_of_le (Nat.le_of_lt below)]
  have back := cut_concatenate joined (concatenate_rank joined fun p mem => (all p mem).2) at_p
  rw [offset, (all p (List.mem_of_getElem? at_p)).1] at back
  rw [back, Option.bind_some]
  obtain ⟨t', again⟩ := reshape_ok ((congrArg List.prod (reshape_shape moved)).trans
    (insertOne_prod t.shape axis).symm)
  rw [again]
  refine congrArg some (ext_get (reshape_shape again) fun idx _ => ?_)
  simp only [get?, reshape_shape again, reshape_data again, reshape_data moved]

/-- A part of a concatenation is sliced out again, slices that follow each other make up the tensor they were
    taken from, concatenations of concatenations are one, and a stacked tensor is sliced out again and
    squeezed. -/
theorem parts_laws (axis : Nat) :
    (∀ (ts : List (NDArray α)) r j t, concatenate ts axis = some r → axis < r.shape.length →
      ts[j]? = some t → cut r axis ((ts.take j).map (size axis)).sum (size axis t) = some t) ∧
    (∀ (t : NDArray α) ls, axis < t.shape.length → ls ≠ [] → ls.sum = size axis t →
      ∃ ts, cuts t axis 0 ls = some ts ∧ concatenate ts axis = some t) ∧
    (∀ (tss : List (List (NDArray α))) rs r,
      List.Forall₂ (fun ts u => concatenate ts axis = some u) tss rs → concatenate rs axis = some r →
      axis < r.shape.length → concatenate tss.flatten axis = some r) ∧
    ∀ (ts : List (NDArray α)) r j t, stack ts axis = some r → (∀ u ∈ ts, axis ≤ u.shape.length) →
      ts[j]? = some t → (cut r axis j 1).bind (·.reshape t.shape) = some t := by
  refine ⟨?_, ?_, ?_, ?_⟩
  · intro ts r j t made low there
    exact cut_concatenate made low there
  · intro t ls low some_part total
    exact concatenate_cuts low some_part total
  · intro tss rs r parts made low
    exact concatenate_flatten parts made low
  · intro ts r j t made low there
    exact cut_stack made low there

def five : NDArray Nat := ⟨[1, 5], [3, 1, 4, 1, 5], rfl⟩

theorem five_returns : ∃ ts, cuts five 1 0 [2, 0, 3] = some ts ∧
    ts.map NDArray.data = [[3, 1], [], [4, 1, 5]] ∧ concatenate ts 1 = some five := by
  obtain ⟨-, join, -⟩ := @parts_laws Nat 1
  obtain ⟨ts, made, joined⟩ := join five [2, 0, 3] (by decide) (by decide) rfl
  have run : (cuts five 1 0 [2, 0, 3]).map (·.map NDArray.data) = some [[3, 1], [], [4, 1, 5]] := by decide
  rw [made] at run
  exact ⟨ts, made, Option.some.inj run, joined⟩

end NxTinygrad.Parts
