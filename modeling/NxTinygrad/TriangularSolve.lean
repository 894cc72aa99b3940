import NxTinygrad.Lib.Broadcast
import NxTinygrad.Lib.AxisOrder
import Mathlib.Algebra.Field.Basic
import Mathlib.Algebra.Field.Rat

/- `_triangular_solve` of operations.py over a field. -/
namespace NxTinygrad.TriangularSolve
open NDArray

structure Attrs where
  transformA : String
  leftSide : Bool
  lower : Bool
  deriving DecidableEq, Repr

variable {F : Type} [Field F]

def orient (attrs : Attrs) (a : NDArray F) : Option (NDArray F × Bool) :=
  if attrs.transformA = "transpose" then (a.permute [1, 0]).map fun a => (a, !attrs.lower)
  else if attrs.transformA = "none" then some (a, attrs.lower)
  else none

def cell (a : NDArray F) (i j : Nat) : Option (NDArray F) := (a.row i).bind (·.row j)

def subtract (a : NDArray F) (i : Nat) (acc : NDArray F) (p : Nat × NDArray F) :
    Option (NDArray F) := do
  let aij ← cell a i p.1
  let product ← pointwise (· * ·) aij p.2
  pointwise (· - ·) acc product

/-- One round of the loop; `solved` holds the rows of the solution in the order they were found. -/
def solveRow (a rhs : NDArray F) (solved : List (Nat × NDArray F)) (i : Nat) :
    Option (List (Nat × NDArray F)) := do
  let start ← rhs.row i
  let acc ← solved.foldlM (subtract a i) start
  let aii ← cell a i i
  let xi ← pointwise (· / ·) acc aii
  some (solved ++ [(i, xi)])

def order (n : Nat) (lower : Bool) : List Nat := if lower then List.range n else (List.range n).reverse

def substitute (n : Nat) (lower : Bool) (a rhs : NDArray F) : Option (NDArray F) := do
  let solved ← (order n lower).foldlM (solveRow a rhs) []
  let rows ← (List.range n).mapM fun i => solved.lookup i
  stackRows rows

def triangularSolve (attrs : Attrs) (a b : NDArray F) : Option (NDArray F) :=
  if attrs.leftSide then do
    let (a, lower) ← orient attrs a
    let n ← a.shape.head?
    if b.shape.length = 1 then do
      let rhs ← b.reshape [n, 1]
      let stacked ← substitute n lower a rhs
      stacked.reshape [n]
    else substitute n lower a b
  else none

def val (t : NDArray F) (idx : List Nat) : F := (t.get? idx).getD 0

def Selected (lower : Bool) (i j : Nat) : Prop := if lower then j ≤ i else i ≤ j

instance (lower : Bool) (i j : Nat) : Decidable (Selected lower i j) := by
  unfold Selected
  infer_instance

def triangle (lower : Bool) (a : NDArray F) (β : List Nat) (i j : Nat) : F :=
  if Selected lower i j then val a (β ++ [i, j]) else 0

def operand (attrs : Attrs) (a : NDArray F) (β : List Nat) (i j : Nat) : F :=
  if attrs.transformA = "transpose" then triangle attrs.lower a β j i else triangle attrs.lower a β i j

/-- `op(a) * x = b` for every batch member, column by column; `tail` is `[]` for vectors. -/
def Solves (attrs : Attrs) (bs : List Nat) (n : Nat) (tail : List Nat) (a b x : NDArray F) : Prop :=
  x.shape = b.shape ∧ ∀ β i c, Inside bs β → i < n → Inside tail c →
    ((List.range n).map fun j => operand attrs a β i j * val x (β ++ j :: c)).sum = val b (β ++ i :: c)

def Triangular (lower : Bool) (bs : List Nat) (n : Nat) (a : NDArray F) : Prop :=
  ∀ β i j, Inside bs β → i < n → j < n → ¬ Selected lower i j → val a (β ++ [i, j]) = 0

variable (F) in
/-- Every result is a solution, for matrices with this batch shape. What the other triangle holds is
    left open, or zero where `strict`. -/
def SolvesAll (strict : Bool) (bs : List Nat) : Prop :=
  ∀ (attrs : Attrs) (n : Nat) (tail : List Nat) (a b x : NDArray F), a.shape = bs ++ [n, n] →
    b.shape = bs ++ n :: tail → tail.length ≤ 1 →
    (∀ β i, Inside bs β → i < n → val a (β ++ [i, i]) ≠ 0) →
    (strict = true → Triangular attrs.lower bs n a) →
    triangularSolve attrs a b = some x → Solves attrs bs n tail a b x

/-- No batch axis, or two of them the first of which is the longer. -/
def Answered (bs : List Nat) : Prop := bs = [] ∨ ∃ k d rest, bs = k :: d :: rest ∧ d < k

variable {bs tail shape : List Nat} {n m : Nat} {attrs : Attrs} {a b rhs x acc : NDArray F}

theorem val_some {t : NDArray F} {idx : List Nat} (inside : Inside t.shape idx) :
    t.get? idx = some (val t idx) := by
  obtain ⟨y, there⟩ := Option.isSome_iff_exists.mp (get?_isSome.mpr inside)
  rw [val, there, Option.getD_some]

theorem val_pointwise {f : F → F → F} {t t' r : NDArray F} (fits : common t.shape t'.shape = some shape)
    (made : pointwise f t t' = some r) : r.shape = shape ∧ ∀ idx, Inside shape idx →
      val r idx = f (val t (project t.shape idx)) (val t' (project t'.shape idx)) := by
  obtain ⟨shaped, entries⟩ := (pointwise_eq fits).mp made
  refine ⟨shaped, fun idx inside => ?_⟩
  have entry := entries idx inside
  rw [val_some (shaped ▸ inside)] at entry
  obtain ⟨y, left, entry⟩ := Option.bind_eq_some_iff.mp entry.symm
  obtain ⟨z, right, entry⟩ := Option.map_eq_some_iff.mp entry
  rw [← entry, val, val, left, right, Option.getD_some, Option.getD_some]

theorem val_row {t r : NDArray F} {i d : Nat} {ds : List Nat} (shaped : t.shape = d :: ds)
    (made : t.row i = some r) :
    i < d ∧ r.shape = ds ∧ ∀ idx, Inside ds idx → val r idx = val t (i :: idx) := by
  obtain ⟨d', ds', same, low, shaped', entries⟩ := row_eq.mp made
  rw [shaped] at same
  cases same
  exact ⟨low, shaped', fun idx inside => by rw [val, val, entries idx inside]⟩

theorem val_cell {r : NDArray F} {i j : Nat} (square : a.shape = [n, n]) (made : cell a i j = some r) :
    r.shape = [] ∧ val r [] = val a [i, j] := by
  obtain ⟨row, first, made⟩ := Option.bind_eq_some_iff.mp made
  obtain ⟨_, shaped, entries⟩ := val_row square first
  obtain ⟨low, shaped', entries'⟩ := val_row shaped made
  exact ⟨shaped', (entries' [] trivial).trans (entries [j] ⟨low, trivial⟩)⟩

section matrix
variable (square : a.shape = [n, n])
include square

theorem subtract_val {i : Nat} {p : Nat × NDArray F} {r : NDArray F} (wide : acc.shape = [m])
    (known : p.2.shape = [m]) (made : subtract a i acc p = some r) : r.shape = [m] ∧
      ∀ c < m, val r [c] = val acc [c] - val a [i, p.1] * val p.2 [c] := by
  simp only [subtract, Option.bind_eq_bind, Option.bind_eq_some_iff] at made
  obtain ⟨aij, read, product, times, made⟩ := made
  obtain ⟨scalar, entry⟩ := val_cell square read
  have fits : common aij.shape p.2.shape = some [m] := by
    rw [scalar, known]
    exact (common_scalar [m]).1
  obtain ⟨shaped, products⟩ := val_pointwise fits times
  have fits' : common acc.shape product.shape = some [m] := by
    rw [wide, shaped]
    exact common_self [m]
  obtain ⟨shaped', differences⟩ := val_pointwise fits' made
  refine ⟨shaped', fun c low => ?_⟩
  have inside : Inside [m] [c] := ⟨low, trivial⟩
  rw [differences [c] inside, wide, shaped, project_self inside, products [c] inside, scalar, known,
    project_self inside, project_scalar, entry]

def partialSum (a : NDArray F) (i c : Nat) (known : List (Nat × NDArray F)) : F :=
  (known.map fun p => val a [i, p.1] * val p.2 [c]).sum

theorem subtract_all {i : Nat} {known : List (Nat × NDArray F)} {r : NDArray F} (wide : acc.shape = [m])
    (all : ∀ p ∈ known, p.2.shape = [m]) (made : known.foldlM (subtract a i) acc = some r) :
    r.shape = [m] ∧ ∀ c < m, val r [c] = val acc [c] - partialSum a i c known := by
  induction known generalizing acc with
  | nil =>
    cases made
    exact ⟨wide, fun c _ => by simp [partialSum]⟩
  | cons p rest ih =>
    rw [List.foldlM_cons] at made
    obtain ⟨acc', first, made⟩ := Option.bind_eq_some_iff.mp made
    obtain ⟨wide', entries⟩ := subtract_val square wide (all p (List.mem_cons_self ..)) first
    obtain ⟨shaped, rest_entries⟩ := ih wide' (fun q mem => all q (List.mem_cons_of_mem p mem)) made
    refine ⟨shaped, fun c low => ?_⟩
    rw [rest_entries c low, entries c low, partialSum, partialSum, List.map_cons,
      List.sum_cons, sub_sub]

/-- The equation of row `i`, when the rows before it are known. -/
def RowSolved (a rhs : NDArray F) (m : Nat) (known : List (Nat × NDArray F)) (i : Nat)
    (xi : NDArray F) :
    Prop :=
  xi.shape = [m] ∧ ∀ c < m, val a [i, i] * val xi [c] + partialSum a i c known = val rhs [i, c]

theorem solveRow_val {i : Nat} {known known' : List (Nat × NDArray F)} (tall : rhs.shape = [n, m])
    (diagonal : ∀ i < n, val a [i, i] ≠ 0) (all : ∀ p ∈ known, p.2.shape = [m])
    (made : solveRow a rhs known i = some known') :
    ∃ xi, known' = known ++ [(i, xi)] ∧ RowSolved a rhs m known i xi := by
  simp only [solveRow, Option.bind_eq_bind, Option.bind_eq_some_iff] at made
  obtain ⟨start, read, acc, folded, aii, pivot, xi, divided, made⟩ := made
  cases made
  obtain ⟨low, wide, starts⟩ := val_row tall read
  obtain ⟨wide', entries⟩ := subtract_all square wide all folded
  obtain ⟨scalar, entry⟩ := val_cell square pivot
  have fits : common acc.shape aii.shape = some [m] := by
    rw [wide', scalar]
    exact (common_scalar [m]).2
  obtain ⟨shaped, quotients⟩ := val_pointwise fits divided
  refine ⟨xi, rfl, shaped, fun c small => ?_⟩
  have inside : Inside [m] [c] := ⟨small, trivial⟩
  rw [quotients [c] inside, wide', scalar, project_self inside, project_scalar, entry, entries c small,
    starts [c] inside, mul_div_cancel₀ _ (diagonal i low), sub_add_cancel]

def AllSolved (a rhs : NDArray F) (m : Nat) (known : List (Nat × NDArray F)) : Prop :=
  ∀ pre i xi post, known = pre ++ (i, xi) :: post → RowSolved a rhs m pre i xi

omit square in
theorem AllSolved.shapes {known : List (Nat × NDArray F)} (sound : AllSolved a rhs m known) :
    ∀ p ∈ known, p.2.shape = [m] := by
  intro p mem
  obtain ⟨pre, post, split⟩ := List.append_of_mem mem
  exact (sound pre p.1 p.2 post split).1

omit square in
theorem AllSolved.snoc {known : List (Nat × NDArray F)} {i : Nat} {xi : NDArray F}
    (sound : AllSolved a rhs m known) (last : RowSolved a rhs m known i xi) :
    AllSolved a rhs m (known ++ [(i, xi)]) := by
  intro pre j xj post split
  rcases List.eq_nil_or_concat post with rfl | ⟨front, p, rfl⟩
  · obtain ⟨rfl, same⟩ := List.append_inj' split rfl
    cases same
    exact last
  · rw [List.concat_eq_append, ← List.cons_append, ← List.append_assoc] at split
    obtain ⟨rfl, _⟩ := List.append_inj' split rfl
    exact sound pre j xj front rfl

theorem loop_solved {l : List Nat} {known final : List (Nat × NDArray F)} (tall : rhs.shape = [n, m])
    (diagonal : ∀ i < n, val a [i, i] ≠ 0) (sound : AllSolved a rhs m known)
    (made : l.foldlM (solveRow a rhs) known = some final) :
    AllSolved a rhs m final ∧ final.map Prod.fst = known.map Prod.fst ++ l := by
  induction l generalizing known with
  | nil =>
    cases made
    exact ⟨sound, by simp⟩
  | cons i rest ih =>
    rw [List.foldlM_cons] at made
    obtain ⟨known', first, made⟩ := Option.bind_eq_some_iff.mp made
    obtain ⟨xi, rfl, last⟩ := solveRow_val square tall diagonal sound.shapes first
    obtain ⟨all, keys⟩ := ih (sound.snoc last) made
    exact ⟨all, by simp [keys]⟩

end matrix

theorem order_perm (n : Nat) (lower : Bool) : (order n lower).Perm (List.range n) := by
  unfold order
  split
  · exact .refl _
  · exact List.reverse_perm _

theorem order_selected (n : Nat) (lower : Bool) :
    (order n lower).Pairwise fun j i => Selected lower i j ∧ ¬ Selected lower j i := by
  unfold order
  split
  · rename_i down
    refine List.pairwise_lt_range.imp fun {j i} less => ?_
    simp only [Selected, down, if_true]
    omega
  · rename_i up
    refine List.pairwise_reverse.mpr (List.pairwise_lt_range.imp fun {i j} less => ?_)
    simp only [Selected, up, Bool.false_eq_true, if_false]
    omega

theorem order_nodup (n : Nat) (lower : Bool) : (order n lower).Nodup :=
  (order_perm n lower).nodup_iff.mpr List.nodup_range

theorem lookup_mem {β : Type} {known : List (Nat × β)} (distinct : (known.map Prod.fst).Nodup)
    {p : Nat × β} (mem : p ∈ known) : known.lookup p.1 = some p.2 := by
  obtain ⟨pre, post, rfl⟩ := List.append_of_mem mem
  refine List.lookup_eq_some_iff.mpr ⟨pre, post, rfl, fun q earlier => ?_⟩
  rw [List.map_append, List.map_cons] at distinct
  have apart := (List.nodup_append.mp distinct).2.2 q.1 (List.mem_map_of_mem earlier) p.1
    (List.mem_cons_self ..)
  simpa using Ne.symm apart

theorem row_equation {lower : Bool} {known : List (Nat × NDArray F)} {i c : Nat} {xi : NDArray F}
    (sound : AllSolved a rhs m known) (keys : known.map Prod.fst = order n lower)
    (found : known.lookup i = some xi) (low : c < m) :
    (known.map fun p => triangle lower a [] i p.1 * val p.2 [c]).sum = val rhs [i, c] := by
  obtain ⟨pre, post, rfl, _⟩ := List.lookup_eq_some_iff.mp found
  have equation := (sound pre i xi post rfl).2 c low
  have sorted := order_selected n lower
  rw [← keys, List.map_append, List.map_cons] at sorted
  obtain ⟨_, later, earlier⟩ := List.pairwise_append.mp sorted
  have before : (pre.map fun p => triangle lower a [] i p.1 * val p.2 [c]).sum =
      partialSum a i c pre := by
    refine congrArg List.sum (List.map_congr_left fun p mem => ?_)
    have selected := (earlier p.1 (List.mem_map_of_mem mem) i (List.mem_cons_self ..)).1
    rw [triangle, if_pos selected, List.nil_append]
  have after : (post.map fun p => triangle lower a [] i p.1 * val p.2 [c]).sum = 0 := by
    refine List.sum_eq_zero fun y mem => ?_
    obtain ⟨p, there, rfl⟩ := List.mem_map.mp mem
    have unselected := ((List.pairwise_cons.mp later).1 p.1 (List.mem_map_of_mem there)).2
    rw [triangle, if_neg unselected, zero_mul]
  have here : triangle lower a [] i i = val a [i, i] :=
    if_pos (by unfold Selected; split <;> exact le_rfl)
  rw [List.map_append, List.map_cons, List.sum_append, List.sum_cons, before, after, here,
    add_zero, add_comm, equation]

theorem substitute_val {lower : Bool} (square : a.shape = [n, n]) (tall : rhs.shape = [n, m])
    (diagonal : ∀ i < n, val a [i, i] ≠ 0) (made : substitute n lower a rhs = some x) :
    x.shape = [n, m] ∧ ∀ i c, i < n → c < m →
      ((List.range n).map fun j => triangle lower a [] i j * val x [j, c]).sum = val rhs [i, c] := by
  simp only [substitute, Option.bind_eq_bind, Option.bind_eq_some_iff] at made
  obtain ⟨known, loop, rows, looked, made⟩ := made
  obtain ⟨sound, keys⟩ :=
    loop_solved square tall diagonal (fun pre i xi post none => by simp at none) loop
  rw [List.map_nil, List.nil_append] at keys
  have distinct : (known.map Prod.fst).Nodup := keys ▸ order_nodup n lower
  obtain ⟨len, at_row⟩ := mapM_get looked
  rw [List.length_range] at len
  have found (i : Nat) (low : i < n) : ∃ xi, known.lookup i = some xi ∧ rows[i]? = some xi := by
    have bound : i < rows.length := by omega
    have here := at_row i
    rw [List.getElem?_eq_getElem bound, List.getElem?_range low, Option.bind_some] at here
    exact ⟨_, here.symm, List.getElem?_eq_getElem bound⟩
  have shaped (i : Nat) (xi : NDArray F) (there : known.lookup i = some xi) : xi.shape = [m] := by
    obtain ⟨pre, post, split, _⟩ := List.lookup_eq_some_iff.mp there
    exact (sound pre i xi post split).1
  cases rows with
  | nil => cases made
  | cons first rest =>
    rw [List.length_cons] at len
    obtain ⟨_, shape, entries⟩ := stackRows_eq.mp made
    obtain ⟨x0, there, same⟩ := found 0 (by omega)
    cases same
    rw [shaped 0 first there, len] at shape
    have entry (j c : Nat) (xj : NDArray F) (low : j < n) (small : c < m)
        (there' : known.lookup j = some xj) :
        val x [j, c] = val xj [c] := by
      obtain ⟨_, same, at_j⟩ := found j low
      rw [there'] at same
      cases same
      have inside : Inside first.shape [c] := by rw [shaped 0 first there]; exact ⟨small, trivial⟩
      rw [val, val, entries j [c] (by omega) inside, at_j, Option.bind_some]
    refine ⟨shape, fun i c low small => ?_⟩
    obtain ⟨xi, there', _⟩ := found i low
    rw [← row_equation sound keys there' small]
    have perm := (order_perm n lower).symm.map fun j => triangle lower a [] i j * val x [j, c]
    rw [perm.sum_eq, ← keys, List.map_map]
    refine congrArg List.sum (List.map_congr_left fun p mem => ?_)
    have key : p.1 < n := by
      have there := List.mem_map_of_mem (f := Prod.fst) mem
      rw [keys] at there
      simpa using (order_perm n lower).mem_iff.mp there
    rw [Function.comp_apply, entry p.1 c p.2 key small (lookup_mem distinct mem)]

theorem orient_val {a' : NDArray F} {lower : Bool} (square : a.shape = [n, n])
    (made : orient attrs a = some (a', lower)) : a'.shape = [n, n] ∧ ∀ i j, i < n → j < n →
      triangle lower a' [] i j = operand attrs a [] i j ∧ (i = j → val a' [i, j] = val a [i, j]) := by
  unfold orient at made
  split at made
  · rename_i transposed
    obtain ⟨_, permuted, same⟩ := Option.map_eq_some_iff.mp made
    cases same
    have shape : [1, 0].filterMap (a.shape[·]?) = [n, n] := by simp [square]
    unfold permute at permuted
    rw [if_pos (by rw [square]; exact List.Perm.swap 0 1 []), shape, build_eq] at permuted
    obtain ⟨shaped, entries⟩ := permuted
    have entry (i j : Nat) (low : i < n) (low' : j < n) : val a' [i, j] = val a [j, i] := by
      have moved := entries [i, j] ⟨low, low', trivial⟩
      have back : (List.range a.shape.length).filterMap (fun k => [i, j][[1, 0].idxOf k]?) =
          [j, i] := by
        rw [square]
        rfl
      rw [val, val, moved, back]
    refine ⟨shaped, fun i j low low' => ⟨?_, fun same => by rw [entry i j low low', same]⟩⟩
    have flipped : Selected (!attrs.lower) i j ↔ Selected attrs.lower j i := by
      cases attrs.lower <;> simp [Selected]
    simp only [operand, transposed, if_true, triangle, flipped, List.nil_append, entry i j low low']
  · rename_i other
    split at made
    · cases made
      exact ⟨square, fun i j _ _ => ⟨by rw [operand, if_neg other], fun _ => rfl⟩⟩
    · cases made

theorem matrix_solved (square : a.shape = [n, n]) (tall : b.shape = n :: tail) (short : tail.length ≤ 1)
    (diagonal : ∀ i < n, val a [i, i] ≠ 0) (made : triangularSolve attrs a b = some x) :
    Solves attrs [] n tail a b x := by
  unfold triangularSolve at made
  split at made
  · simp only [Option.bind_eq_bind, Option.bind_eq_some_iff] at made
    obtain ⟨⟨a', lower⟩, oriented, n', first, made⟩ := made
    obtain ⟨square', entries⟩ := orient_val square oriented
    have diagonal' : ∀ i < n, val a' [i, i] ≠ 0 := fun i low => by
      rw [(entries i i low low).2 rfl]
      exact diagonal i low
    rw [square'] at first
    cases first
    have rows (x : NDArray F) (c i : Nat) (low : i < n) (y : List Nat → List Nat)
        (v : NDArray F) (same : ∀ j < n, val v (y [j]) = val x [j, c]) :
        ((List.range n).map fun j => operand attrs a [] i j * val v (y [j])).sum =
          ((List.range n).map fun j => triangle lower a' [] i j * val x [j, c]).sum := by
      refine congrArg List.sum (List.map_congr_left fun j mem => ?_)
      have low' := List.mem_range.mp mem
      rw [(entries i j low low').1, same j low']
    cases tail with
    | nil =>
      rw [tall, List.length_singleton, if_pos rfl] at made
      obtain ⟨rhs, column, made⟩ := Option.bind_eq_some_iff.mp made
      obtain ⟨stacked, solved, flat⟩ := Option.bind_eq_some_iff.mp made
      obtain ⟨shaped, equations⟩ := substitute_val square' (reshape_shape column) diagonal' solved
      have entry (j : Nat) (low : j < n) : val x [j] = val stacked [j, 0] := by
        have moved : x.get? [j] = stacked.get? [j, 0] := by
          refine get?_reshape flat ?_ ⟨low, trivial⟩ (by simp [shaped, offset])
          rw [shaped]
          exact ⟨low, Nat.one_pos, trivial⟩
        rw [val, val, moved]
      have given (i : Nat) (low : i < n) : val rhs [i, 0] = val b [i] := by
        have moved : rhs.get? [i, 0] = b.get? [i] := by
          refine get?_reshape column ?_ ⟨low, Nat.one_pos, trivial⟩ (by simp [tall, offset])
          rw [tall]
          exact ⟨low, trivial⟩
        rw [val, val, moved]
      refine ⟨(reshape_shape flat).trans tall.symm, fun β i c none low none' => ?_⟩
      cases β with
      | cons => cases none
      | nil =>
        cases c with
        | cons => cases none'
        | nil =>
          rw [List.nil_append, ← given i low, ← equations i 0 low Nat.one_pos]
          exact rows stacked 0 i low id x entry
    | cons m rest =>
      obtain rfl : rest = [] := List.eq_nil_of_length_eq_zero (by simpa using short)
      rw [tall, if_neg (by simp)] at made
      obtain ⟨shaped, equations⟩ := substitute_val square' tall diagonal' made
      refine ⟨shaped.trans tall.symm, fun β i c none low inside => ?_⟩
      cases β with
      | cons => cases none
      | nil =>
        cases c with
        | nil => exact inside.elim
        | cons c rest =>
          obtain rfl : rest = [] := List.eq_nil_of_length_eq_zero inside.2.length
          rw [List.nil_append, ← equations i c low inside.1]
          exact rows x c i low (· ++ [c]) x fun _ _ => rfl
  · cases made

section batch
variable {k e : Nat} {D : List Nat} (shaped : a.shape = k :: e :: D)
include shaped

theorem batch_raises (deep : D ≠ []) (short : e < k) : triangularSolve attrs a b = none := by
  by_contra returned
  obtain ⟨x, made⟩ := Option.ne_none_iff_exists'.mp returned
  unfold triangularSolve at made
  split at made
  · simp only [Option.bind_eq_bind, Option.bind_eq_some_iff] at made
    obtain ⟨⟨a', lower⟩, oriented, n, first, made⟩ := made
    have same : a' = a := by
      unfold orient at oriented
      split at oriented
      · obtain ⟨_, permuted, _⟩ := Option.map_eq_some_iff.mp oriented
        have rank : ¬ [1, 0].Perm (List.range a.shape.length) := fun perm => by
          have len := perm.length_eq
          rw [List.length_range, shaped] at len
          cases D with
          | nil => exact deep rfl
          | cons => simp at len
        rw [permute, if_neg rank] at permuted
        cases permuted
      · split at oriented <;> cases oriented
        rfl
    subst same
    rw [shaped] at first
    cases first
    have raises (rhs : NDArray F) : substitute k lower a' rhs = none := by
      by_contra returned
      obtain ⟨x, made⟩ := Option.ne_none_iff_exists'.mp returned
      obtain ⟨known, loop, _⟩ := Option.bind_eq_some_iff.mp made
      have mem : e ∈ order k lower := (order_perm k lower).mem_iff.mpr (List.mem_range.mpr short)
      obtain ⟨before, after, split⟩ := List.append_of_mem mem
      rw [split, List.foldlM_append] at loop
      obtain ⟨here, _, loop⟩ := Option.bind_eq_some_iff.mp loop
      rw [List.foldlM_cons] at loop
      obtain ⟨_, round, _⟩ := Option.bind_eq_some_iff.mp loop
      simp only [solveRow, Option.bind_eq_bind, Option.bind_eq_some_iff] at round
      obtain ⟨_, _, _, _, aii, pivot, _⟩ := round
      obtain ⟨row, read, pivot⟩ := Option.bind_eq_some_iff.mp pivot
      obtain ⟨_, shape, _⟩ := val_row shaped read
      exact Nat.lt_irrefl e (val_row shape pivot).1
    split at made
    · obtain ⟨rhs, _, made⟩ := Option.bind_eq_some_iff.mp made
      rw [raises rhs] at made
      cases made
    · rw [raises b] at made
      cases made
  · cases made

theorem cell_ok {i j : Nat} (low : i < k) (low' : j < e) : ∃ r, cell a i j = some r ∧ r.shape = D ∧
    ∀ idx, Inside D idx → val r idx = val a (i :: j :: idx) := by
  obtain ⟨row, read⟩ := row_ok shaped low
  obtain ⟨_, shape, entries⟩ := val_row shaped read
  obtain ⟨r, read'⟩ := row_ok shape low'
  obtain ⟨_, shape', entries'⟩ := val_row shape read'
  exact ⟨r, by rw [cell, read, Option.bind_some, read'], shape', fun idx inside =>
    (entries' idx inside).trans (entries (j :: idx) ⟨low', inside⟩)⟩

theorem subtract_all_ok {i : Nat} {known : List (Nat × NDArray F)} (low : i < k)
    (all : ∀ p ∈ known, p.1 < e ∧ p.2.shape = e :: D) (wide : acc.shape = e :: D) :
    ∃ r, known.foldlM (subtract a i) acc = some r ∧ r.shape = e :: D := by
  induction known generalizing acc with
  | nil => exact ⟨acc, rfl, wide⟩
  | cons p rest ih =>
    obtain ⟨column, wide'⟩ := all p (List.mem_cons_self ..)
    obtain ⟨aij, read, shape, _⟩ := cell_ok shaped low column
    obtain ⟨fits, product, times⟩ := pointwise_behind (f := (· * ·)) shape wide'
    have shape' := (val_pointwise fits times).1
    obtain ⟨fits', difference, minus⟩ := pointwise_same (f := (· - ·)) wide shape'
    obtain ⟨r, later, shape''⟩ := ih (fun q mem => all q (List.mem_cons_of_mem p mem))
      (val_pointwise fits' minus).1
    have first : subtract a i acc p = some difference := by
      simp only [subtract, read, times, minus, Option.bind_eq_bind, Option.bind_some]
    exact ⟨r, by rw [List.foldlM_cons, first]; exact later, shape''⟩

theorem solveRow_ok {i : Nat} {known : List (Nat × NDArray F)} (tall : rhs.shape = k :: e :: D)
    (low : i < k)
    (low' : i < e) (all : ∀ p ∈ known, p.1 < e ∧ p.2.shape = e :: D) :
    ∃ xi, solveRow a rhs known i = some (known ++ [(i, xi)]) ∧ xi.shape = e :: D ∧
      (known = [] → ∀ j idx, j < e → Inside D idx →
        val xi (j :: idx) = val rhs (i :: j :: idx) / val a (i :: i :: idx)) := by
  obtain ⟨start, read⟩ := row_ok tall low
  obtain ⟨_, wide, starts⟩ := val_row tall read
  obtain ⟨acc, folded, wide'⟩ := subtract_all_ok shaped low all wide
  obtain ⟨aii, pivot, shape, entries⟩ := cell_ok shaped low low'
  obtain ⟨fits, xi, divided⟩ := pointwise_front (f := (· / ·)) wide' shape
  obtain ⟨shape', quotients⟩ := val_pointwise fits divided
  refine ⟨xi, ?_, shape', fun none j idx small inside => ?_⟩
  · simp only [solveRow, read, folded, pivot, divided, Option.bind_eq_bind, Option.bind_some]
  · subst none
    cases folded
    have there : Inside (e :: D) (j :: idx) := ⟨small, inside⟩
    rw [quotients _ there, wide, shape, project_self there, project_front inside, starts _ there,
      entries idx inside]

theorem loop_ok {l : List Nat} {known : List (Nat × NDArray F)} (tall : rhs.shape = k :: e :: D)
    (low : ∀ i ∈ l, i < k ∧ i < e) (all : ∀ p ∈ known, p.1 < e ∧ p.2.shape = e :: D) :
    ∃ more, l.foldlM (solveRow a rhs) known = some (known ++ more) ∧ more.map Prod.fst = l ∧
      ∀ p ∈ more, p.2.shape = e :: D := by
  induction l generalizing known with
  | nil => exact ⟨[], by simp, rfl, by simp⟩
  | cons i rest ih =>
    obtain ⟨low_k, low_e⟩ := low i (List.mem_cons_self ..)
    obtain ⟨xi, round, shape, _⟩ := solveRow_ok shaped tall low_k low_e all
    have all' : ∀ p ∈ known ++ [(i, xi)], p.1 < e ∧ p.2.shape = e :: D := by
      intro p mem
      rcases List.mem_append.mp mem with old | new
      · exact all p old
      · rw [List.mem_singleton.mp new]
        exact ⟨low_e, shape⟩
    obtain ⟨more, run, keys, shapes⟩ := ih (fun j mem => low j (List.mem_cons_of_mem i mem)) all'
    refine ⟨(i, xi) :: more, ?_, by rw [List.map_cons, keys], ?_⟩
    · rw [List.foldlM_cons, round]
      exact run.trans (by rw [List.append_assoc, List.singleton_append])
    · intro p mem
      rcases List.mem_cons.mp mem with rfl | later
      · exact shape
      · exact shapes p later

theorem batch_returns (tall : rhs.shape = k :: e :: D) (some_row : 0 < k) (fits : k ≤ e) :
    ∃ x, substitute k true a rhs = some x ∧ x.shape = k :: e :: D ∧ ∀ j idx, j < e → Inside D idx →
      val x (0 :: j :: idx) = val rhs (0 :: j :: idx) / val a (0 :: 0 :: idx) := by
  obtain ⟨m, rfl⟩ : ∃ m, k = m + 1 := ⟨k - 1, by omega⟩
  have none : ∀ p ∈ ([] : List (Nat × NDArray F)), p.1 < e ∧ p.2.shape = e :: D := by simp
  obtain ⟨x0, round, shape, quotient⟩ := solveRow_ok shaped tall some_row (by omega) none
  have low : ∀ i ∈ (List.range m).map Nat.succ, i < m + 1 ∧ i < e := by
    intro i mem
    obtain ⟨j, there, rfl⟩ := List.mem_map.mp mem
    have := List.mem_range.mp there
    omega
  have first : ∀ p ∈ [(0, x0)], p.1 < e ∧ p.2.shape = e :: D := by
    intro p mem
    rw [List.mem_singleton.mp mem]
    exact ⟨by dsimp only; omega, shape⟩
  obtain ⟨more, run, keys, shapes⟩ := loop_ok shaped tall low first
  have loop : (order (m + 1) true).foldlM (solveRow a rhs) [] = some ((0, x0) :: more) := by
    rw [order, if_pos rfl, List.range_succ_eq_map, List.foldlM_cons, round]
    exact run
  have keys' : ((0, x0) :: more).map Prod.fst = List.range (m + 1) := by
    rw [List.map_cons, keys, List.range_succ_eq_map]
  have len : ((0, x0) :: more).length = m + 1 := by
    rw [← List.length_map (f := Prod.fst), keys', List.length_range]
  have looked : (List.range (m + 1)).mapM (fun i => ((0, x0) :: more).lookup i) =
      some (x0 :: more.map Prod.snd) := by
    rw [← len]
    refine range_mapM (g := Prod.snd) fun i p there => ?_
    have distinct : (((0, x0) :: more).map Prod.fst).Nodup := keys' ▸ List.nodup_range
    have key : p.1 = i := by
      have here := congrArg (Option.map Prod.fst) there
      rw [← List.getElem?_map, keys',
        List.getElem?_range (len ▸ (List.getElem?_eq_some_iff.mp there).1)]
        at here
      exact (Option.some.inj here).symm
    rw [← key]
    exact lookup_mem distinct (List.mem_of_getElem? there)
  have rows : ∀ u ∈ more.map Prod.snd, u.shape = x0.shape := by
    intro u mem
    obtain ⟨p, there, rfl⟩ := List.mem_map.mp mem
    rw [shapes p there, shape]
  obtain ⟨x, stacked⟩ := stackRows_ok rows
  obtain ⟨_, shape', entries⟩ := stackRows_eq.mp stacked
  refine ⟨x, ?_, ?_, fun j idx small inside => ?_⟩
  · simp only [substitute, loop, looked, Option.bind_eq_bind, Option.bind_some, stacked]
  · rw [shape', shape, List.length_map]
    rw [List.length_cons] at len
    rw [len]
  · have there : Inside x0.shape (j :: idx) := by
      rw [shape]
      exact ⟨small, inside⟩
    rw [val, entries 0 (j :: idx) (by omega) there, ← quotient rfl j idx small inside]
    rfl

end batch

def ofMatrix (bs : List Nat) (n : Nat) (f : Nat → Nat → F) : NDArray F :=
  tabulate (bs ++ [n, n]) fun idx => match idx.drop bs.length with
    | [i, j] => f i j
    | _ => 0

def onesBelow (i j : Nat) : F := if j ≤ i then 1 else 0

theorem val_ofMatrix {f : Nat → Nat → F} {β : List Nat} {i j : Nat} (inside : Inside bs β) (low : i < n)
    (low' : j < n) : val (ofMatrix bs n f) (β ++ [i, j]) = f i j := by
  have there : Inside (bs ++ [n, n]) (β ++ [i, j]) :=
    (inside_append inside.length).mpr ⟨inside, low, low', trivial⟩
  rw [val, ofMatrix, get?_tabulate there, List.drop_left' inside.length, Option.getD_some]

theorem inside_zeros (positive : ∀ d ∈ shape, 0 < d) : Inside shape (shape.map fun _ => 0) := by
  induction shape with
  | nil => trivial
  | cons d ds ih =>
    exact ⟨positive d (List.mem_cons_self ..), ih fun d' mem =>
      positive d' (List.mem_cons_of_mem d mem)⟩

theorem sum_first_two {f : Nat → F} (two : 2 ≤ n) (rest : ∀ j, f (j + 2) = 0) :
    ((List.range n).map f).sum = f 0 + f 1 := by
  obtain ⟨m, rfl⟩ : ∃ m, n = m + 2 := ⟨n - 2, by omega⟩
  have later : (((List.range m).map (· + 2)).map f).sum = 0 := by
    refine List.sum_eq_zero fun y mem => ?_
    rw [List.map_map] at mem
    obtain ⟨j, _, rfl⟩ := List.mem_map.mp mem
    exact rest j
  have first_two : List.range (m + 2) = 0 :: 1 :: (List.range m).map (· + 2) := by
    rw [List.range_succ_eq_map, List.range_succ_eq_map, List.map_cons, List.map_map]
    rfl
  rw [first_two, List.map_cons, List.map_cons, List.sum_cons, List.sum_cons, later, add_zero]

theorem ones_rows {β c : List Nat} (two : 2 ≤ n) (inside : Inside bs β) (inside' : Inside [n] c)
    (solved : Solves ⟨"none", true, true⟩ bs n [n] (ofMatrix bs n onesBelow)
      (ofMatrix bs n fun _ _ => (1 : F)) x) :
    val x (β ++ 0 :: c) = 1 ∧ val x (β ++ 0 :: c) + val x (β ++ 1 :: c) = 1 := by
  have entry (i j : Nat) (low : i < n) :
      operand ⟨"none", true, true⟩ (ofMatrix bs n onesBelow) β i j = onesBelow (F := F) i j := by
    simp only [operand, triangle, Selected, onesBelow, reduceIte, String.reduceEq]
    split
    · rename_i selected
      rw [val_ofMatrix inside low (by omega), onesBelow, if_pos selected]
    · rfl
  have right (i : Nat) (low : i < n) : val (ofMatrix bs n fun _ _ => (1 : F)) (β ++ i :: c) = 1 := by
    match c, inside' with
    | [c], inside' => exact val_ofMatrix inside low inside'.1
  constructor
  · have equation := solved.2 β 0 c inside (by omega) inside'
    rw [sum_first_two two fun j => by rw [entry 0 (j + 2) (by omega)]; simp [onesBelow],
      right 0 (by omega), entry 0 0 (by omega), entry 0 1 (by omega)] at equation
    simpa [onesBelow] using equation
  · have equation := solved.2 β 1 c inside (by omega) inside'
    rw [sum_first_two two fun j => by rw [entry 1 (j + 2) (by omega)]; simp [onesBelow],
      right 1 (by omega), entry 1 0 (by omega), entry 1 1 (by omega)] at equation
    simpa [onesBelow] using equation

theorem batch_unsolved {k : Nat} {rest : List Nat} (positive : ∀ d ∈ k :: rest, 0 < d)
    (fits : ¬ Answered (k :: rest)) : ∃ x, triangularSolve ⟨"none", true, true⟩
      (ofMatrix (k :: rest) (k + 1) onesBelow)
      (ofMatrix (k :: rest) (k + 1) fun _ _ => (1 : F)) = some x ∧
      ¬ Solves ⟨"none", true, true⟩ (k :: rest) (k + 1) [k + 1] (ofMatrix (k :: rest) (k + 1) onesBelow)
        (ofMatrix (k :: rest) (k + 1) fun _ _ => (1 : F)) x := by
  have some_row : 0 < k := positive k (List.mem_cons_self ..)
  have run {e : Nat} {D : List Nat} (split : rest ++ [k + 1, k + 1] = e :: D) (bound : k ≤ e) :
      ∃ x, triangularSolve ⟨"none", true, true⟩ (ofMatrix (k :: rest) (k + 1) onesBelow)
        (ofMatrix (k :: rest) (k + 1) fun _ _ => (1 : F)) = some x ∧
        ∀ j idx, j < e → Inside D idx → val x (0 :: j :: idx) =
          val (ofMatrix (k :: rest) (k + 1) fun _ _ => (1 : F)) (0 :: j :: idx) /
            val (ofMatrix (k :: rest) (k + 1) onesBelow) (0 :: 0 :: idx) := by
    have shaped (f : Nat → Nat → F) : (ofMatrix (k :: rest) (k + 1) f).shape = k :: e :: D := by
      rw [← split]
      rfl
    obtain ⟨x, made, _, entries⟩ :=
      batch_returns (shaped onesBelow) (shaped fun _ _ => 1) some_row bound
    refine ⟨x, ?_, entries⟩
    have deep : ¬ (k :: e :: D).length = 1 := by simp
    simp only [triangularSolve, orient, reduceIte, String.reduceEq, shaped, if_neg deep,
      List.head?_cons, Option.bind_eq_bind, Option.bind_some, made]
  cases rest with
  | nil =>
    obtain ⟨x, made, entries⟩ := run (e := k + 1) rfl (by omega)
    refine ⟨x, made, fun solved => ?_⟩
    have here : Inside [k] [0] := ⟨some_row, trivial⟩
    obtain ⟨first, second⟩ := ones_rows (c := [0]) (by omega) here ⟨by omega, trivial⟩ solved
    have read := entries 1 [0] (by omega) ⟨by omega, trivial⟩
    have top := val_ofMatrix (f := onesBelow (F := F)) here (by omega : 0 < k + 1)
      (by omega : 0 < k + 1)
    have right := val_ofMatrix (f := fun _ _ => (1 : F)) here (by omega : 1 < k + 1)
      (by omega : 0 < k + 1)
    rw [List.singleton_append] at top right first second
    rw [top, right, onesBelow, if_pos le_rfl, div_one] at read
    rw [List.singleton_append, first, read] at second
    exact one_ne_zero (add_eq_left.mp second)
  | cons d ds =>
    have bound : k ≤ d := by
      by_contra short
      exact fits (.inr ⟨k, d, ds, rfl, by omega⟩)
    obtain ⟨x, made, entries⟩ := run (D := ds ++ [k + 1, k + 1]) rfl bound
    refine ⟨x, made, fun solved => ?_⟩
    have some_column : 0 < d := by omega
    have zeros : Inside ds (ds.map fun _ => 0) := inside_zeros fun d' mem =>
      positive d' (List.mem_cons_of_mem k (List.mem_cons_of_mem d mem))
    have here : Inside (k :: d :: ds) (0 :: 0 :: ds.map fun _ => 0) := ⟨some_row, some_column, zeros⟩
    obtain ⟨first, second⟩ := ones_rows (c := [1]) (by omega) here ⟨by omega, trivial⟩ solved
    have read := entries 0 ((ds.map fun _ => 0) ++ [1, 1]) some_column
      ((inside_append zeros.length).mpr ⟨zeros, by omega, by omega, trivial⟩)
    have top := val_ofMatrix (f := onesBelow (F := F)) here (by omega : 1 < k + 1)
      (by omega : 1 < k + 1)
    have right := val_ofMatrix (f := fun _ _ => (1 : F)) here (by omega : 1 < k + 1)
      (by omega : 1 < k + 1)
    simp only [List.cons_append] at top right first second
    rw [top, right, onesBelow, if_pos le_rfl, div_one] at read
    rw [first, read] at second
    exact one_ne_zero (add_eq_left.mp second)

/-- The batch shapes for which every result is a solution. -/
theorem solves_all_iff (strict : Bool) (positive : ∀ d ∈ bs, 0 < d) : SolvesAll F strict bs ↔
    Answered bs := by
  constructor
  · intro all
    by_contra fits
    cases bs with
    | nil => exact fits (.inl rfl)
    | cons k rest =>
      obtain ⟨x, made, unsolved⟩ := batch_unsolved (F := F) positive fits
      refine unsolved (all _ (k + 1) [k + 1] _ _ x rfl rfl le_rfl (fun β i inside low => ?_)
        (fun _ β i j inside low low' other => ?_) made)
      · rw [val_ofMatrix inside low low, onesBelow, if_pos le_rfl]
        exact one_ne_zero
      · rw [val_ofMatrix inside low low']
        exact if_neg other
  · rintro (rfl | ⟨k, d, rest, rfl, short⟩) attrs n tail a b x square tall few diagonal _ made
    · exact matrix_solved square tall few (fun i low => diagonal [] i trivial low) made
    · rw [batch_raises square (by simp) short] at made
      cases made

/-- One upper triangular matrix as a batch: its first row is taken for its first entry. -/
theorem batch_of_one_unsolved :
    triangularSolve ⟨"none", true, false⟩ (⟨[1, 2, 2], [1, 1, 0, 1], rfl⟩ : NDArray ℚ)
    ⟨[1, 2], [1, 1], rfl⟩ =
        some ⟨[1, 2], [1, 1], rfl⟩ ∧
      Triangular false [1] 2 (⟨[1, 2, 2], [1, 1, 0, 1], rfl⟩ : NDArray ℚ) ∧
      (∀ i < 2, val (⟨[1, 2, 2], [1, 1, 0, 1], rfl⟩ : NDArray ℚ) [0, i, i] ≠ 0) ∧
      ¬ Solves ⟨"none", true, false⟩ [1] 2 [] (⟨[1, 2, 2], [1, 1, 0, 1], rfl⟩ : NDArray ℚ)
        ⟨[1, 2], [1, 1], rfl⟩ ⟨[1, 2], [1, 1], rfl⟩ := by
  refine ⟨by decide +kernel, fun β i j inside low low' other => ?_, by decide +kernel, fun solved => ?_⟩
  · obtain ⟨rfl, rfl⟩ : i = 1 ∧ j = 0 := by
      simp only [Selected, Bool.false_eq_true, if_false] at other
      omega
    match β, inside with
    | [0], _ => decide +kernel
  · have equation := solved.2 [0] 0 [] ⟨Nat.one_pos, trivial⟩ Nat.two_pos trivial
    revert equation
    decide +kernel

theorem solves_all_matrices : SolvesAll ℚ false [] ∧ SolvesAll ℚ false [3, 2] ∧ ¬ SolvesAll ℚ true [2] := by
  refine ⟨(solves_all_iff false (by simp)).mpr (.inl rfl),
    (solves_all_iff false (by simp)).mpr (.inr ⟨3, 2, [], rfl, by decide⟩), fun all => ?_⟩
  rcases (solves_all_iff true (by simp)).mp all with none | ⟨k, d, rest, same, _⟩
  · cases none
  · cases same

end NxTinygrad.TriangularSolve
