import NxTinygrad.Expr
import NxTinygrad.ComplexOps

/- `_argreduce` of operations.py: the index of an extreme element along an axis or of all elements, the
   first one as tinygrad gives it or the last one through a flip. -/
namespace NxTinygrad.ArgReduce
open IR Lowering NDArray
open ComplexOps (flip)

variable {α : Type} [LinearOrder α]

def Below (op : ArgReduceOp) (x y : α) : Prop :=
  match op with
  | .argmax => x ≤ y
  | .argmin => y ≤ x

instance decidableBelow (op : ArgReduceOp) (x y : α) : Decidable (Below op x y) :=
  match op with
  | .argmax => inferInstanceAs (Decidable (x ≤ y))
  | .argmin => inferInstanceAs (Decidable (y ≤ x))

def first (op : ArgReduceOp) (row : List α) : Option Nat :=
  row.findIdx? fun x => row.all fun y => decide (Below op y x)

/-- The sizes or the index that a reduced axis has: none, or one if it is kept. -/
def kept (keepdim : Bool) (i : Nat) : List Nat := if keepdim then [i] else []

def along (op : ArgReduceOp) (x : NDArray α) (axis : Nat) (keepdim : Bool) : Option (NDArray Int) := do
  let d ← x.shape[axis]?
  build (x.shape.take axis ++ kept keepdim 1 ++ x.shape.drop (axis + 1)) fun idx => do
    let row ← (List.range d).mapM fun i =>
      x.get? (idx.take axis ++ i :: idx.drop (axis + (kept keepdim 0).length))
    (first op row).map Int.ofNat

/-- `x.argmax(ax, keepdim)`. Without an axis the tensor is flattened, and nothing is kept. -/
def reduce (op : ArgReduceOp) (x : NDArray α) (ax : Option Nat) (keepdim : Bool) :
    Option (NDArray Int) :=
  match ax with
  | none => do
      let flat ← x.reshape [x.shape.prod]
      along op flat 0 false
  | some axis => along op x axis keepdim

def argreduce (op : ArgReduceOp) (axis : Option Nat) (keep : Bool) (tie : TieBreak) (t : NDArray α) :
    Option (NDArray Int) :=
  match tie, axis with
  | .low, none => reduce op t none false
  | .low, some axis => reduce op t (some axis) keep
  | .high, none => do
      let flat ← t.reshape [t.shape.prod]
      let flipped ← flip flat [0]
      let r ← reduce op flipped none false
      let n : Nat ← flat.shape[0]?
      some (r.map fun i => (n : Int) - 1 - i)
  | .high, some axis => do
      let d : Nat ← t.shape[axis]?
      let flipped ← flip t [axis]
      let r ← reduce op flipped (some axis) keep
      some (r.map fun i => (d : Int) - 1 - i)

/-- The node that `Nx.argmax` or `Nx.argmin` is lowered to, as the worker runs it. -/
def runArgReduce (op : ArgReduceOp) (axis : Option Int) (keepAxis : Bool) (tieBreak : Option TieBreak)
    (t : NDArray α) : Option (NDArray Int) :=
  argreduce op (axis.map fun axis => (normalizeAxis axis t.shape.length).toNat) keepAxis
    (tieBreak.getD .low) t

def Extreme (op : ArgReduceOp) (row : Nat → Option α) (j : Nat) : Prop :=
  ∃ x, row j = some x ∧ ∀ k y, row k = some y → Below op y x

/-- The smallest index of an extreme entry, or the largest. -/
def Wins (op : ArgReduceOp) (tie : TieBreak) (row : Nat → Option α) (i : Nat) : Prop :=
  Extreme op row i ∧ ∀ j, Extreme op row j →
    match tie with
    | .low => i ≤ j
    | .high => j ≤ i

section row
variable {op : ArgReduceOp}

theorem below_total (x y : α) : Below op x y ∨ Below op y x := by
  cases op with
  | argmax => exact le_total x y
  | argmin => exact le_total y x

theorem Below.trans {x y z : α} (first : Below op x y) (second : Below op y z) : Below op x z := by
  cases op with
  | argmax => exact le_trans first second
  | argmin => exact le_trans second first

theorem extreme_exists {row : List α} (entries : row ≠ []) : ∃ x ∈ row, ∀ y ∈ row, Below op y x := by
  induction row with
  | nil => exact absurd rfl entries
  | cons a rest ih =>
    have self : Below op a a := (below_total a a).elim id id
    rcases eq_or_ne rest [] with rfl | more
    · exact ⟨a, List.mem_cons_self, fun y mem => List.mem_singleton.mp mem ▸ self⟩
    · obtain ⟨x, mem, above⟩ := ih more
      rcases below_total a x with low | high
      · exact ⟨x, List.mem_cons_of_mem a mem, List.forall_mem_cons.mpr ⟨low, above⟩⟩
      · exact ⟨a, List.mem_cons_self,
          List.forall_mem_cons.mpr ⟨self, fun y there => (above y there).trans high⟩⟩

theorem extreme_row {row : List α} {j : Nat} : Extreme op (fun j => row[j]?) j ↔
    ∃ x, row[j]? = some x ∧ (row.all fun y => decide (Below op y x)) = true := by
  refine exists_congr fun x => and_congr_right fun _ => ?_
  rw [List.all_eq_true]
  constructor
  · intro all y mem
    obtain ⟨k, there⟩ := List.getElem?_of_mem mem
    exact decide_eq_true (all k y there)
  · exact fun all k y there => of_decide_eq_true (all y (List.mem_of_getElem? there))

theorem first_wins {row : List α} (entries : row ≠ []) : ∃ i, first op row = some i ∧ i < row.length ∧
    Wins op .low (fun j => row[j]?) i := by
  obtain ⟨x, mem, above⟩ := @extreme_exists α _ op row entries
  have found : (first op row).isSome := by
    rw [first, List.findIdx?_isSome, List.any_eq_true]
    exact ⟨x, mem, List.all_eq_true.mpr fun y there => decide_eq_true (above y there)⟩
  obtain ⟨i, here⟩ := Option.isSome_iff_exists.mp found
  obtain ⟨low, extreme, before⟩ := List.findIdx?_eq_some_iff_getElem.mp here
  refine ⟨i, here, low, extreme_row.mpr ⟨row[i], List.getElem?_eq_getElem low, extreme⟩,
    fun j other => ?_⟩
  obtain ⟨y, there, all⟩ := extreme_row.mp other
  obtain ⟨inside, rfl⟩ := List.getElem?_eq_some_iff.mp there
  by_contra earlier
  exact before j (by omega) all

theorem wins_reversed {row back : Nat → Option α} {d i : Nat}
    (reversed : ∀ j, j < d → back j = row (d - 1 - j))
    (outside : ∀ j, d ≤ j → row j = none ∧ back j = none) (low : i < d) (wins : Wins op .low back i) :
    Wins op .high row (d - 1 - i) := by
  have mirror (j : Nat) (low : j < d) : Extreme op back j ↔ Extreme op row (d - 1 - j) := by
    refine exists_congr fun x => and_congr (by rw [reversed j low]) ?_
    constructor
    · intro all k y there
      have inside : k < d := by
        by_contra beyond
        rw [(outside k (by omega)).1] at there
        cases there
      refine all (d - 1 - k) y ?_
      rwa [reversed _ (by omega), show d - 1 - (d - 1 - k) = k by omega]
    · intro all k y there
      have inside : k < d := by
        by_contra beyond
        rw [(outside k (by omega)).2] at there
        cases there
      exact all (d - 1 - k) y (by rwa [← reversed k inside])
  refine ⟨(mirror i low).mp wins.1, fun j extreme => ?_⟩
  have inside : j < d := by
    by_contra beyond
    obtain ⟨x, there, -⟩ := extreme
    rw [(outside j (by omega)).1] at there
    cases there
  have back_extreme : Extreme op back (d - 1 - j) := by
    rwa [mirror _ (by omega), show d - 1 - (d - 1 - j) = j by omega]
  have le : i ≤ d - 1 - j := wins.2 _ back_extreme
  show j ≤ d - 1 - i
  omega

end row

section tensors
variable {op : ArgReduceOp} {tie : TieBreak} {t : NDArray α} {pre post b c : List Nat} {d : Nat}

omit [LinearOrder α] in
theorem outside_axis (split : t.shape = pre ++ d :: post) (front : Inside pre b) {j : Nat}
    (high : d ≤ j) :
    t.get? (b ++ j :: c) = none := by
  refine if_neg fun inside => ?_
  rw [split, inside_append front.length] at inside
  exact absurd inside.2.1 (Nat.not_lt.mpr high)

omit [LinearOrder α] in
theorem flip_axis (split : t.shape = pre ++ d :: post) :
    ∃ u, flip t [pre.length] = some u ∧ u.shape = t.shape ∧
    ∀ b c j, Inside pre b → Inside post c → j < d →
    u.get? (b ++ j :: c) = t.get? (b ++ (d - 1 - j) :: c) := by
  have windows : (t.shape.mapIdx fun a s => if a ∈ [pre.length] then Window.flip s else .all s) =
      pre.map .all ++ .flip d :: post.map .all := by
    simp only [List.mem_singleton, split]
    exact mapIdx_at Window.flip .all pre post d
  have sizes (shape : List Nat) : (shape.map Window.all).map Window.size = shape := by
    simp [Function.comp_def, Window.all]
  have all_sizes : (pre.map Window.all ++ .flip d :: post.map Window.all).map Window.size =
      t.shape := by
    rw [List.map_append, List.map_cons, sizes, sizes, split]
    rfl
  have fits : List.Forall₂ Window.Fits t.shape
      (pre.map Window.all ++ .flip d :: post.map Window.all) := by
    have all_fit (shape : List Nat) : List.Forall₂ Window.Fits shape (shape.map .all) :=
      List.forall₂_map_right_iff.mpr (List.forall₂_same.mpr fun d _ => all_fits d)
    rw [split]
    exact List.rel_append (all_fit pre) (.cons (flip_fits d) (all_fit post))
  have whole : ∀ w ∈ pre.map Window.all ++ .flip d :: post.map Window.all, w.Whole := by
    have all_whole (shape : List Nat) : ∀ w ∈ shape.map Window.all, w.Whole := by
      intro w mem
      obtain ⟨d, -, rfl⟩ := List.mem_map.mp mem
      exact fun _ _ => rfl
    exact List.forall_mem_append.mpr
      ⟨all_whole pre, List.forall_mem_cons.mpr ⟨fun _ _ => rfl, all_whole post⟩⟩
  obtain ⟨u, made⟩ := @look_ok _ _ t none fits (.inr whole)
  refine ⟨u, ?_, (look_shape made).trans all_sizes, fun b c j front back low => ?_⟩
  · rw [ComplexOps.flip, if_pos, windows, made]
    refine ⟨List.nodup_singleton _, fun a mem => ?_⟩
    rw [List.mem_singleton.mp mem, split, List.length_append, List.length_cons]
    omega
  · have inside : Inside t.shape (b ++ j :: c) := by
      rw [split]
      exact (inside_append front.length).mpr ⟨front, low, back⟩
    rw [get?_look made (all_sizes.symm ▸ inside), place_append (by simp [front.length]),
      place_all front, Option.bind_some, place, place_all back]
    rfl

omit [LinearOrder α] in
theorem range_read {f : Nat → Option α} (all : ∀ j, j < d → ∃ x, f j = some x) : ∃ row : List α,
    (List.range d).mapM f = some row ∧ row.length = d ∧ ∀ j, j < d → row[j]? = f j := by
  induction d with
  | zero => exact ⟨[], rfl, rfl, fun j low => absurd low (Nat.not_lt_zero j)⟩
  | succ d ih =>
    obtain ⟨row, read, len, entries⟩ := ih fun j low => all j (Nat.lt_succ_of_lt low)
    obtain ⟨x, last⟩ := all d (Nat.lt_succ_self d)
    refine ⟨row ++ [x], ?_, by simp [len], fun j low => ?_⟩
    · rw [List.range_succ, List.mapM_append, bind_step read, List.mapM_cons, bind_step last]
      rfl
    · by_cases before : j < d
      · rw [List.getElem?_append_left (by omega), entries j before]
      · obtain rfl : j = d := by omega
        rw [last, ← len, List.getElem?_concat_length]

theorem kept_length (keepdim : Bool) (i j : Nat) :
    (kept keepdim i).length = (kept keepdim j).length := by
  cases keepdim <;> rfl

theorem kept_inside {keepdim : Bool} {k : List Nat} : Inside (kept keepdim 1) k ↔
    k = kept keepdim 0 := by
  cases keepdim with
  | false => cases k <;> simp [kept, Inside]
  | true =>
    cases k with
    | nil => simp [kept, Inside]
    | cons i is => cases is <;> simp [kept, Inside]

theorem along_ok (op : ArgReduceOp) (split : t.shape = pre ++ d :: post) (some_entry : 0 < d)
    (keepdim : Bool) :
    ∃ r, along op t pre.length keepdim = some r ∧ r.shape = pre ++ kept keepdim 1 ++ post ∧
      ∀ b c, Inside pre b → Inside post c → ∃ i : Nat, i < d ∧
        r.get? (b ++ kept keepdim 0 ++ c) = some (i : Int) ∧
        Wins op .low (fun j => t.get? (b ++ j :: c)) i := by
  have size : t.shape[pre.length]? = some d := by simp [split]
  have front : t.shape.take pre.length = pre := by rw [split, List.take_left' rfl]
  have back : t.shape.drop (pre.length + 1) = post := by
    rw [split, ← List.drop_drop, List.drop_left' rfl, List.drop_succ_cons, List.drop_zero]
  have rows : ∀ b c, Inside pre b → Inside post c → ∃ i : Nat, i < d ∧
      ((List.range d).mapM fun i => t.get? (b ++ i :: c)).bind (first op) = some i ∧
      Wins op .low (fun j => t.get? (b ++ j :: c)) i := by
    intro b c front back
    have there (j : Nat) (low : j < d) : ∃ x, t.get? (b ++ j :: c) = some x := by
      refine Option.isSome_iff_exists.mp (get?_isSome.mpr ?_)
      rw [split]
      exact (inside_append front.length).mpr ⟨front, low, back⟩
    obtain ⟨row, read, len, entries⟩ := range_read there
    have same : (fun j => t.get? (b ++ j :: c)) = fun j => row[j]? := by
      funext j
      by_cases low : j < d
      · exact (entries j low).symm
      · rw [outside_axis split front (Nat.le_of_not_lt low), List.getElem?_eq_none (by omega)]
    obtain ⟨i, found, low, wins⟩ := @first_wins α _ op row (List.length_pos_iff.mp (len ▸ some_entry))
    exact ⟨i, len ▸ low, by rw [read, Option.bind_some, found], same ▸ wins⟩
  have here : ∀ b c, Inside pre b → Inside post c →
      (b ++ kept keepdim 0 ++ c).take pre.length = b ∧
      (b ++ kept keepdim 0 ++ c).drop (pre.length + (kept keepdim 0).length) = c := by
    intro b c front back
    rw [← front.length, List.append_assoc]
    exact ⟨List.take_left' rfl, by rw [← List.length_append, ← List.append_assoc, List.drop_left' rfl]⟩
  obtain ⟨r, made⟩ : ∃ r, along op t pre.length keepdim = some r := by
    rw [along, bind_step size, front, back]
    refine build_ok fun idx inside => ?_
    obtain ⟨bk, c, rfl, first_part, last⟩ := inside_split inside
    obtain ⟨b, k, rfl, start, zero⟩ := inside_split first_part
    obtain rfl := kept_inside.mp zero
    obtain ⟨i, -, found, -⟩ := rows b c start last
    obtain ⟨row, read, won⟩ := Option.bind_eq_some_iff.mp found
    rw [(here b c start last).1, (here b c start last).2, bind_step read, won]
    rfl
  have gets := made
  rw [along, bind_step size, front, back] at gets
  obtain ⟨dims, gets⟩ := build_eq.mp gets
  refine ⟨r, made, dims, fun b c start last => ?_⟩
  obtain ⟨i, low, found, wins⟩ := rows b c start last
  obtain ⟨row, read, won⟩ := Option.bind_eq_some_iff.mp found
  refine ⟨i, low, ?_, wins⟩
  have inside : Inside (pre ++ kept keepdim 1 ++ post) (b ++ kept keepdim 0 ++ c) := by
    refine (inside_append ?_).mpr ⟨(inside_append start.length).mpr ⟨start, kept_inside.mpr rfl⟩, last⟩
    rw [List.length_append, List.length_append, start.length, kept_length keepdim 0 1]
  rw [gets _ inside, (here b c start last).1, (here b c start last).2, bind_step read, won]
  rfl

theorem axis_wins (op : ArgReduceOp) (tie : TieBreak) (split : t.shape = pre ++ d :: post)
    (some_entry : 0 < d)
    (keep : Bool) : ∃ r, argreduce op (some pre.length) keep tie t = some r ∧
      r.shape = pre ++ kept keep 1 ++ post ∧ ∀ b c, Inside pre b → Inside post c → ∃ i : Nat,
        r.get? (b ++ kept keep 0 ++ c) = some (i : Int) ∧
        Wins op tie (fun j => t.get? (b ++ j :: c)) i := by
  cases tie with
  | low =>
    obtain ⟨r, made, dims, gets⟩ := along_ok op split some_entry keep
    refine ⟨r, made, dims, fun b c front back => ?_⟩
    obtain ⟨i, -, found, wins⟩ := gets b c front back
    exact ⟨i, found, wins⟩
  | high =>
    obtain ⟨u, flipped, same, mirror⟩ := flip_axis split
    have split' : u.shape = pre ++ d :: post := same.trans split
    obtain ⟨r, made, dims, gets⟩ := along_ok op split' some_entry keep
    have size : t.shape[pre.length]? = some d := by simp [split]
    refine ⟨r.map fun i => (d : Int) - 1 - i, ?_, dims, fun b c front back => ?_⟩
    · rw [argreduce, bind_step size, bind_step flipped, reduce, bind_step made]
    · obtain ⟨i, low, found, wins⟩ := gets b c front back
      refine ⟨d - 1 - i, ?_, ?_⟩
      · rw [get?_map, found, Option.map_some]
        congr 1
        omega
      · exact wins_reversed (fun j inside => mirror b c j front back inside)
          (fun j high => ⟨outside_axis split front high, outside_axis split' front high⟩) low wins

theorem flat_wins (op : ArgReduceOp) (tie : TieBreak) (t : NDArray α)
    (some_entry : 0 < t.shape.prod) (keep : Bool) :
    ∃ r, argreduce op none keep tie t = some r ∧ r.shape = [] ∧ ∃ i : Nat, r.get? [] = some (i : Int) ∧
      Wins op tie (fun j => t.data[j]?) i := by
  obtain ⟨flat, flattened⟩ : ∃ flat, t.reshape [t.shape.prod] = some flat := reshape_ok (by simp)
  have dims := reshape_shape flattened
  have entries : (fun j => flat.get? ([] ++ j :: [])) = fun j => t.data[j]? := by
    funext j
    rw [← reshape_data flattened]
    exact get?_flat dims j
  have again (u : NDArray α) (shape : u.shape = [t.shape.prod]) :
      reduce op u none false = argreduce op (some 0) false .low u := by
    have same : u.reshape [u.shape.prod] = some u := by
      rw [shape, List.prod_singleton, ← shape]
      exact reshape_self u
    rw [reduce, bind_step same]
    rfl
  have line : argreduce op none keep tie t = argreduce op (some 0) false tie flat := by
    cases tie with
    | low =>
      rw [argreduce, reduce, bind_step flattened]
      rfl
    | high =>
      obtain ⟨u, flipped, same, -⟩ := @flip_axis α flat [] [] _ dims
      change ComplexOps.flip flat [0] = some u at flipped
      have size : flat.shape[0]? = some t.shape.prod := by rw [dims]; rfl
      rw [argreduce, bind_step flattened, bind_step flipped, again u (same.trans dims),
        argreduce, argreduce, bind_step size, bind_step flipped]
      refine bind_congr fun r => ?_
      rw [bind_step size]
  obtain ⟨r, made, shape, gets⟩ := @axis_wins α _ flat [] [] _ op tie dims some_entry false
  obtain ⟨i, found, wins⟩ := gets [] [] trivial trivial
  rw [entries] at wins
  exact ⟨r, line.trans made, shape, i, found, wins⟩

omit [LinearOrder α] in
theorem axis_normalized (split : t.shape = pre ++ d :: post) {axis : Int}
    (counted : axis = pre.length ∨ axis + t.shape.length = pre.length) :
    (normalizeAxis axis t.shape.length).toNat = pre.length := by
  have rank : t.shape.length = pre.length + (post.length + 1) := by simp [split]
  unfold normalizeAxis
  split <;> omega

/-- Along an axis at every position of the others, and over all elements in row-major order. -/
theorem ties_broken (op : ArgReduceOp) (tieBreak : Option TieBreak) (keepAxis : Bool) (t : NDArray α) :
    (∀ (pre : List Nat) (d : Nat) (post : List Nat) (axis : Int), t.shape = pre ++ d :: post → 0 < d →
      (axis = pre.length ∨ axis + t.shape.length = pre.length) →
        ∃ r, runArgReduce op (some axis) keepAxis tieBreak t = some r ∧
          r.shape = pre ++ kept keepAxis 1 ++ post ∧ ∀ b c, Inside pre b → Inside post c → ∃ i : Nat,
            r.get? (b ++ kept keepAxis 0 ++ c) = some (i : Int) ∧
              Wins op (tieBreak.getD .low) (fun j => t.get? (b ++ j :: c)) i) ∧
      (0 < t.shape.prod → ∃ r, runArgReduce op none keepAxis tieBreak t = some r ∧ r.shape = [] ∧
        ∃ i : Nat, r.get? [] = some (i : Int) ∧ Wins op (tieBreak.getD .low)
        (fun j => t.data[j]?) i) := by
  refine ⟨fun pre d post axis split some_entry counted => ?_, fun some_entry => ?_⟩
  · rw [runArgReduce, Option.map_some, axis_normalized split counted]
    exact axis_wins op _ split some_entry keepAxis
  · exact flat_wins op _ t some_entry keepAxis

example : runArgReduce .argmax (some (-1)) false (some .high)
    (⟨[2, 4], [1, 5, 2, 5, 9, 0, 9, 3], rfl⟩ : NDArray Nat) =
    some ⟨[2], [3, 2], rfl⟩ := by decide

end tensors

end NxTinygrad.ArgReduce
