import NxTinygrad.Padding
import NxTinygrad.Scatter
import NxTinygrad.Lib.Broadcast
import NxTinygrad.Lib.Einstein
import Mathlib.Order.WithBot

/- `_window_scatter` of operations.py: the value of each window goes to the last extreme element of the
   window. -/
namespace NxTinygrad.WindowScatter
open IR NDArray Reductions
open Padding (padWith)
open Scatter (wrap32 stridesOf hits scatterWith)

abbrev Extended (α : Type) := WithBot (WithTop α)

def number {α : Type} (x : α) : Extended α := ((x : WithTop α) : WithBot (WithTop α))

variable {α : Type}

section source
variable [LinearOrder α]

def identity : WindowScatterOp → Extended α
  | .windowScatterMax => ⊥
  | .windowScatterMin => ((⊤ : WithTop α) : WithBot (WithTop α))

def pick : WindowScatterOp → Extended α → Extended α → Extended α
  | .windowScatterMax => max
  | .windowScatterMin => min

def best (op : WindowScatterOp) (row : List (Extended α)) : Extended α :=
  row.foldr (pick op) (identity op)

/-- `(flat_win == best).where(widx, -1).max(axis=rank)`, of one window. -/
def last (op : WindowScatterOp) (row : List (Extended α)) : Int :=
  (row.mapIdx fun i v => if v = best op row then (i : Int) else -1).foldr max (-1)

/-- `selected * source.reshape(tuple(out_dims) + (1,))` at entry `i` of the window at `o`. -/
def contribution [Semiring α] (op : WindowScatterOp) (flat : NDArray (Extended α)) (source : NDArray α)
    (count : Nat) (o : List Nat) (i : Nat) : Option α := do
  let row ← (List.range count).mapM fun i => flat.get? (o ++ [i])
  let s ← source.get? (o ++ [0])
  some ((if (i : Int) = last op row then 1 else 0) * s)

def contributions [Semiring α] (op : WindowScatterOp) (flat : NDArray (Extended α)) (source : NDArray α)
    (out : List Nat) (count : Nat) : Option (NDArray α) := do
  let source ← source.reshape (out ++ [1])
  build (out ++ [count]) fun idx =>
    idx[out.length]?.bind fun i => contribution op flat source count (idx.take out.length) i

end source

def arange (n : Nat) : NDArray Int := tabulate [n] fun idx => (idx.headD 0 : Nat)

/-- What axis `a` adds to the linear index. The cast that comes later takes it modulo 2^32, so that no
    width of these integers matters. -/
def term (rank : Nat) (out win strides pstrides : List Nat) (a : Nat) : Option (NDArray Int) := do
  let n ← out[a]?
  let m ← win[a]?
  let s ← strides[a]?
  let p ← pstrides[a]?
  let oc ← (arange n).reshape ((List.replicate (2 * rank) 1).set a n)
  let wc ← (arange m).reshape ((List.replicate (2 * rank) 1).set (rank + a) m)
  let coord ← pointwise (· + ·) (oc.map (· * (s : Int))) wc
  some (coord.map (· * (p : Int)))

/-- The loop that adds the terms up; `lin` is `None` before it. -/
def linear (rank : Nat) (out win strides pstrides : List Nat) : Option (Option (NDArray Int)) :=
  (List.range rank).foldlM (fun lin a => do
    let term ← term rank out win strides pstrides a
    match lin with
    | none => some (some term)
    | some lin => (pointwise (· + ·) lin term).map some) none

def pythonSlice (d : Nat) (start stop : Int) : Window :=
  let place (i : Int) : Nat := if i < 0 then (d + i).toNat else min i.toNat d
  ⟨place stop - place start, fun i => some (place start + i)⟩

def windowScatter [LinearOrder α] [Semiring α] (op : WindowScatterOp) (window strides : List Nat)
    (padding : List (Int × Int)) (init : α) (t source : NDArray α) : Option (NDArray α) := do
  let rank := t.shape.length
  let anyPadding := padding.any fun p => p.1 ≠ 0 || p.2 ≠ 0
  let padded ←
    (if anyPadding then padWith (t.map number) padding (identity op) else some (t.map number))
  let windows ← pool padded window strides (List.replicate window.length 1)
  let out := windows.shape.take rank
  let win := windows.shape.drop rank
  let flat ← windows.reshape (out ++ [win.prod])
  let contrib ← contributions op flat source out win.prod
  let contrib ← contrib.reshape (out ++ win)
  let lin ← linear rank out win strides (stridesOf padded.shape)
  let lin ← lin
  let lin ← lin.expand (out ++ win)
  let lin ← lin.reshape [(out ++ win).prod]
  let vals ← contrib.reshape [(out ++ win).prod]
  let zeros := tabulate [padded.shape.prod] fun _ => (0 : α)
  let scattered ← scatterWith (fun x us => x + us.sum) zeros vals (lin.data.map wrap32)
  let result ← scattered.reshape padded.shape
  let result := result.map (· + init)
  (if anyPadding then
    look result (List.zipWith (fun d (w : Int × Nat) => pythonSlice d w.1 (w.1 + w.2)) result.shape
      (List.zipWith (fun p d => (p.1, d)) padding t.shape)) none
  else some result)

def paddedShape (shape : List Nat) (padding : List (Int × Int)) : List Nat :=
  List.zipWith (fun (d : Nat) (p : Int × Int) => ((d : Int) + p.1 + p.2).toNat) shape padding

def counts (shape window strides : List Nat) (padding : List (Int × Int)) : List Nat :=
  outDims (paddedShape shape padding) window strides (List.replicate window.length 1)

/-- The place of a position of the operand in the padded operand. -/
def shift (padding : List (Int × Int)) (q : List Nat) : List Nat :=
  List.zipWith (fun (p : Int × Int) (i : Nat) => ((i : Int) + p.1).toNat) padding q

/-- The window at `o` has position `q` of the operand among its entries. -/
def Covers (window strides : List Nat) (padding : List (Int × Int)) (o q : List Nat) : Prop :=
  ∃ k ∈ indices window, windowAt strides (List.replicate window.length 1) o k = shift padding q

def Below [LE α] (op : WindowScatterOp) (x y : α) : Prop :=
  match op with
  | .windowScatterMax => x ≤ y
  | .windowScatterMin => y ≤ x

section spec
variable [LinearOrder α] [Semiring α]

/-- Position `q` is the last maximal (minimal) element of the window at `o`, in row-major order. -/
structure LastExtreme (op : WindowScatterOp) (window strides : List Nat) (padding : List (Int × Int))
    (t : NDArray α) (o q : List Nat) : Prop where
  inside : Inside t.shape q
  covered : Covers window strides padding o q
  extreme : ∀ q', Inside t.shape q' → Covers window strides padding o q' →
    Below op (t.entry q') (t.entry q)
  last : ∀ q', Inside t.shape q' → Covers window strides padding o q' → t.entry q' = t.entry q →
    offset t.shape q' ≤ offset t.shape q

/-- Padding that adds, windows inside the padded operand, and each of them overlaps the operand. -/
structure Accepted (window strides : List Nat) (padding : List (Int × Int)) (t : NDArray α) : Prop where
  paddings : List.Forall₂ (fun _ p => 0 ≤ p.1 ∧ 0 ≤ p.2) t.shape padding
  fits : Fits (paddedShape t.shape padding) window strides (List.replicate window.length 1)
  overlap : ∀ o ∈ indices (counts t.shape window strides padding),
    ∃ q ∈ indices t.shape, Covers window strides padding o q

/-- Each position has the initial value and the values of the windows whose last extreme element it is. -/
def Selects (op : WindowScatterOp) (window strides : List Nat) (padding : List (Int × Int))
    (t : NDArray α) :
    Prop :=
  ∃ sel : List Nat → List Nat,
    (∀ o, Inside (counts t.shape window strides padding) o →
    LastExtreme op window strides padding t o (sel o)) ∧
    ∀ (init : α) (source : NDArray α), source.shape = counts t.shape window strides padding →
      ∃ r, windowScatter op window strides padding init t source = some r ∧ r.shape = t.shape ∧
        ∀ q, Inside t.shape q → r.get? q = some (init +
          (((indices source.shape).filter fun o => sel o = q).map source.entry).sum)

end spec

section index
variable {full idx : List Nat}

theorem project_ones (count : Nat) (idx : List Nat) (len : idx.length = count) :
    List.zipWith (fun d i => if d = 1 then 0 else i) (List.replicate count 1) idx =
    List.replicate count 0 := by
  induction count generalizing idx with
  | zero => rfl
  | succ n ih =>
    cases idx with
    | nil => cases len
    | cons i is => simp [List.replicate_succ, ih is (by simpa using len)]

theorem offset_ones (count : Nat) : Inside (List.replicate count 1) (List.replicate count 0) ∧
    offset (List.replicate count 1) (List.replicate count 0) = 0 := by
  induction count with
  | zero => exact ⟨trivial, rfl⟩
  | succ n ih => exact ⟨⟨Nat.one_pos, ih.1⟩, by simp [List.replicate_succ, offset, ih.2]⟩

theorem replicate_set (pre post : List Nat) (n : Nat) :
    (List.replicate (pre ++ n :: post).length 1).set pre.length n =
      List.replicate pre.length 1 ++ n :: List.replicate post.length 1 := by
  induction pre with
  | nil => simp [List.replicate_succ]
  | cons b rest ih => simpa [List.replicate_succ] using ih

theorem arange_spreads {a n : Nat} (axis : full[a]? = some n) : ∃ r,
    (arange n).reshape ((List.replicate full.length 1).set a n) = some r ∧
      Spreads full r fun idx => (idx.getD a 0 : Nat) := by
  obtain ⟨low, here⟩ := List.getElem?_eq_some_iff.mp axis
  obtain ⟨pre, post, rfl, rfl⟩ : ∃ pre post, full = pre ++ n :: post ∧ pre.length = a :=
    ⟨full.take a, full.drop (a + 1), by rw [← here, List.getElem_cons_drop,
      List.take_append_drop], by simp; omega⟩
  rw [replicate_set]
  obtain ⟨r, moved⟩ : ∃ r,
      (arange n).reshape (List.replicate pre.length 1 ++ n :: List.replicate post.length 1) =
      some r := reshape_ok (by simp [arange, tabulate])
  refine ⟨r, moved, ?_, fun idx inside => ?_⟩
  · rw [reshape_shape moved]
    have ones (l : List Nat) :
        List.Forall₂ (fun d e => d = e ∨ d = 1) (List.replicate l.length 1) l := by
      induction l with
      | nil => exact .nil
      | cons b rest ih => exact .cons (.inr rfl) ih
    exact List.rel_append (ones pre) (.cons (.inl rfl) (ones post))
  · obtain ⟨i, jk, rfl, first, rest⟩ := inside_split inside
    cases jk with
    | nil => cases rest
    | cons j k =>
      have low : j < n := rest.1
      have place : List.zipWith (fun d i => if d = 1 then 0 else i) r.shape (i ++ j :: k) =
          List.replicate pre.length 0 ++ j :: List.replicate post.length 0 := by
        rw [reshape_shape moved, List.zipWith_append (by simp [first.length]),
          project_ones _ _ first.length, List.zipWith_cons_cons, project_ones _ _ rest.2.length]
        split
        · rw [show j = 0 by omega]
        · rfl
      have value : (arange n).get? [j] = some (j : Int) := by
        rw [arange, get?_tabulate (show Inside [n] [j] from ⟨low, trivial⟩)]
        rfl
      have entry : r.get? (List.replicate pre.length 0 ++ j :: List.replicate post.length 0) =
          (arange n).get? [j] := by
        refine get?_reshape moved (show Inside [n] [j] from ⟨low, trivial⟩) ?_ ?_
        · exact (inside_append (by simp)).mpr ⟨(offset_ones _).1, low, (offset_ones _).1⟩
        · rw [offset_append (by simp)]
          simp [arange, tabulate, offset, (offset_ones _).2]
      rw [place, entry, value]
      simp [first.length]

section linear
variable {rank : Nat} {out win strides pstrides : List Nat}

def axisTerm (rank : Nat) (strides pstrides : List Nat) (a : Nat) (idx : List Nat) : Int :=
  ((idx.getD a 0 : Nat) * (strides.getD a 0 : Nat) + (idx.getD (rank + a) 0 : Nat)) *
    (pstrides.getD a 0 : Nat)

theorem term_ok {a : Nat} (low : a < rank) (outs : out.length = rank) (wins : win.length = rank)
    (steps : strides.length = rank) (weights : pstrides.length = rank) :
    ∃ r, term rank out win strides pstrides a = some r ∧
      Spreads (out ++ win) r (axisTerm rank strides pstrides a) := by
  have axes : (out ++ win).length = 2 * rank := by rw [List.length_append, outs, wins, Nat.two_mul]
  obtain ⟨n, first⟩ : ∃ n, out[a]? = some n := ⟨_, List.getElem?_eq_getElem (outs.symm ▸ low)⟩
  obtain ⟨m, second⟩ : ∃ m, win[a]? = some m := ⟨_, List.getElem?_eq_getElem (wins.symm ▸ low)⟩
  obtain ⟨s, stride⟩ : ∃ s, strides[a]? = some s := ⟨_, List.getElem?_eq_getElem (steps.symm ▸ low)⟩
  obtain ⟨p, weight⟩ : ∃ p, pstrides[a]? = some p := ⟨_, List.getElem?_eq_getElem (weights.symm ▸ low)⟩
  obtain ⟨oc, moved, spread⟩ := @arange_spreads (out ++ win) a n
    (by rw [List.getElem?_append_left (by omega), first])
  obtain ⟨wc, moved', spread'⟩ := @arange_spreads (out ++ win) (rank + a) m
    (by rw [← outs, List.getElem?_append_right (by omega), Nat.add_sub_cancel_left, second])
  obtain ⟨coord, added, both⟩ := Spreads.pointwise (· + ·) (spread.map (· * (s : Int))) spread'
  rw [axes] at moved moved'
  refine ⟨coord.map (· * (p : Int)), ?_, ?_⟩
  · rw [term, bind_step first, bind_step second, bind_step stride, bind_step weight, bind_step moved,
      bind_step moved', bind_step added]
  · have value : axisTerm rank strides pstrides a = (fun x => x * (p : Int)) ∘ fun idx =>
        ((fun x => x * (s : Int)) ∘ fun idx => (idx.getD a 0 : Nat)) idx +
          (idx.getD (rank + a) 0 : Nat) := by
      funext idx
      simp [axisTerm, List.getD_eq_getElem?_getD, stride, weight]
    rw [value]
    exact both.map (· * (p : Int))

theorem linear_ok (some_axis : 0 < rank) (outs : out.length = rank) (wins : win.length = rank)
    (steps : strides.length = rank) (weights : pstrides.length = rank) :
    ∃ lin, linear rank out win strides pstrides = some (some lin) ∧ Spreads (out ++ win) lin fun idx =>
      ((List.range rank).map fun a => axisTerm rank strides pstrides a idx).sum := by
  have loop : ∀ k, 0 < k → k ≤ rank → ∃ lin, (List.range k).foldlM (fun lin a => do
      let term ← term rank out win strides pstrides a
      match lin with
      | none => some (some term)
      | some lin => (pointwise (· + ·) lin term).map some) none = some (some lin) ∧
      Spreads (out ++ win) lin fun idx =>
      ((List.range k).map fun a => axisTerm rank strides pstrides a idx).sum := by
    intro k some_step bound
    induction k with
    | zero => exact absurd some_step (Nat.lt_irrefl 0)
    | succ k ih =>
      obtain ⟨term, made, spread⟩ := term_ok (Nat.lt_of_succ_le bound) outs wins steps weights
      rw [List.range_succ, List.foldlM_append]
      rcases Nat.eq_zero_or_pos k with rfl | more
      · refine ⟨term, ?_, ?_⟩
        · simp [made]
        · simpa using spread
      · obtain ⟨lin, before, sum⟩ := ih more (Nat.le_of_succ_le bound)
        obtain ⟨next, added, both⟩ := sum.pointwise (· + ·) spread
        refine ⟨next, ?_, ?_⟩
        · rw [bind_step before, List.foldlM_cons, bind_step made]
          simp [added]
        · simpa using both
  exact loop rank some_axis le_rfl

theorem terms_sum : ∀ {shape window strides o k : List Nat}, shape.length = window.length →
    strides.length = window.length → o.length = window.length → k.length = window.length →
    ((List.range window.length).map fun a =>
    axisTerm window.length strides (stridesOf shape) a (o ++ k)).sum =
      (offset shape (windowAt strides (List.replicate window.length 1) o k) : Int)
  | [], [], [], [], [], _, _, _, _ => rfl
  | d :: ds, w :: ws, s :: ss, i :: o, j :: k, len, len', outs, wins => by
    have rest := @terms_sum ds ws ss o k (by simpa using len) (by simpa using len')
      (by simpa using outs)
      (by simpa using wins)
    have count : o.length = ws.length := by simpa using outs
    have later : ∀ a ∈ List.range ws.length,
        axisTerm (ws.length + 1) (s :: ss) (stridesOf (d :: ds)) (a + 1) (i :: o ++ j :: k) =
          axisTerm ws.length ss (stridesOf ds) a (o ++ k) := by
      intro a mem
      have low := List.mem_range.mp mem
      have first : (i :: o ++ j :: k).getD (a + 1) 0 = (o ++ k).getD a 0 := by
        simp [List.getD_eq_getElem?_getD, List.getElem?_append, count, low]
      have second : (i :: o ++ j :: k).getD (ws.length + 1 + (a + 1)) 0 =
          (o ++ k).getD (ws.length + a) 0 := by
        rw [show ws.length + 1 + (a + 1) = (ws.length + (a + 1)) + 1 by omega, List.cons_append,
          List.getD_cons_succ, List.getD_eq_getElem?_getD, List.getD_eq_getElem?_getD, ← count,
          List.getElem?_append_right (by omega), List.getElem?_append_right (by omega),
          Nat.add_sub_cancel_left, Nat.add_sub_cancel_left, List.getElem?_cons_succ]
      rw [axisTerm, first, second]
      rfl
    have start : axisTerm (ws.length + 1) (s :: ss) (stridesOf (d :: ds)) 0 (i :: o ++ j :: k) =
        ((i * s + j * 1) * ds.prod : Nat) := by
      have second : (i :: o ++ j :: k).getD (ws.length + 1 + 0) 0 = j := by
        simp [List.getD_eq_getElem?_getD, ← count]
      rw [axisTerm, second]
      simp [stridesOf]
    have shifted : (List.range ws.length).map
        ((fun a => axisTerm (ws.length + 1) (s :: ss) (stridesOf (d :: ds)) a
        (i :: o ++ j :: k)) ∘ Nat.succ) =
        (List.range ws.length).map fun a => axisTerm ws.length ss (stridesOf ds) a (o ++ k) :=
      List.map_congr_left later
    rw [List.length_cons, List.range_succ_eq_map, List.map_cons, List.sum_cons, List.map_map,
      shifted, rest, start, List.replicate_succ, windowAt, offset]
    push_cast
    rfl

end linear
end index

section padded
variable {shape p q : List Nat} {padding : List (Int × Int)}

theorem place_padded (paddings : List.Forall₂ (fun _ p => 0 ≤ p.1 ∧ 0 ≤ p.2) shape padding)
    (inside : Inside (paddedShape shape padding) p) :
    place (pads shape padding) p = some q ↔ Inside shape q ∧ shift padding q = p := by
  induction paddings generalizing p q with
  | nil =>
    cases p with
    | nil => cases q <;> simp [pads, place, Inside, shift]
    | cons i is => cases inside
  | @cons d w ds ws here _ ih =>
    cases p with
    | nil => cases inside
    | cons i is =>
      obtain ⟨lo, hi⟩ := w
      have read : place (pads (d :: ds) ((lo, hi) :: ws)) (i :: is) =
          ((Window.pad d lo hi).read i).bind fun j => (place (pads ds ws) is).map (j :: ·) := rfl
      rw [read]
      cases q with
      | nil =>
        cases (Window.pad d lo hi).read i <;> simp [Inside]
      | cons j q =>
        have rest := @ih is q inside.2
        have here : (Window.pad d lo hi).read i = some j ↔ j < d ∧ (j + lo).toNat = i := by
          have low := here.1
          simp only [Window.pad]
          split
          · rw [Option.some.injEq]
            omega
          · simp only [reduceCtorEq, false_iff]
            omega
        have both : shift ((lo, hi) :: ws) (j :: q) = i :: is ↔
            (j + lo).toNat = i ∧ shift ws q = is := by
          simp [shift]
        simp only [Option.bind_eq_some_iff, Option.map_eq_some_iff, List.cons.injEq, Inside, both]
        constructor
        · rintro ⟨j', first, q', second, rfl, rfl⟩
          exact ⟨⟨(here.mp first).1, (rest.mp second).1⟩, (here.mp first).2, (rest.mp second).2⟩
        · rintro ⟨⟨low, inside⟩, first, second⟩
          exact ⟨j, here.mpr ⟨low, first⟩, q, rest.mpr ⟨inside, second⟩, rfl, rfl⟩

section cells
variable [LinearOrder α] [Semiring α] {t : NDArray α} {op : WindowScatterOp}

def cell (op : WindowScatterOp) (t : NDArray α) (padding : List (Int × Int)) (p : List Nat) :
    Extended α :=
  match place (pads t.shape padding) p with
  | some q => number (t.entry q)
  | none => identity op

omit [LinearOrder α] in
theorem padded_ok (op : WindowScatterOp)
    (paddings : List.Forall₂ (fun _ p => 0 ≤ p.1 ∧ 0 ≤ p.2) t.shape padding) : ∃ padded,
    (if padding.any (fun p => p.1 ≠ 0 || p.2 ≠ 0) then padWith (t.map number) padding (identity op)
      else some (t.map number)) = some padded ∧ padded.shape = paddedShape t.shape padding ∧
      ∀ p, Inside (paddedShape t.shape padding) p → padded.get? p = some (cell op t padding p) := by
  have len : padding.length = t.shape.length := paddings.length_eq.symm
  have fits : List.Forall₂ Window.Fits (t.map (@number α)).shape (pads t.shape padding) := pads_fit len
  obtain ⟨padded, made⟩ := @look_ok _ _ (t.map number) (some (identity op)) fits (.inl rfl)
  refine ⟨padded, (Padding.pad_any (t.map number) len (identity op)).trans made,
    (look_shape made).trans (pads_sizes t.shape padding), fun p inside => ?_⟩
  rw [get?_look made (by rwa [pads_sizes]), cell]
  cases there : place (pads t.shape padding) p with
  | none => rfl
  | some q =>
    have low := ((place_padded paddings inside).mp there).1
    change (t.map number).get? q = some (number (t.entry q))
    rw [get?_map, get?_entry low]
    rfl

omit [LinearOrder α] in
theorem cell_shift {q : List Nat}
    (paddings : List.Forall₂ (fun _ p => 0 ≤ p.1 ∧ 0 ≤ p.2) t.shape padding)
    (inside : Inside t.shape q) (there : Inside (paddedShape t.shape padding) (shift padding q)) :
    cell op t padding (shift padding q) = number (t.entry q) := by
  rw [cell, (place_padded paddings there).mpr ⟨inside, rfl⟩]

end cells
end padded

/-! The last extreme entry of a window. -/

section rows
variable [LinearOrder α] {op : WindowScatterOp} {row : List (Extended α)}

theorem pick_bounds (op : WindowScatterOp) (x y : Extended α) :
    Below op x (pick op x y) ∧ Below op y (pick op x y) ∧ (pick op x y = x ∨ pick op x y = y) := by
  cases op with
  | windowScatterMax => exact ⟨le_max_left x y, le_max_right x y, max_choice x y⟩
  | windowScatterMin => exact ⟨min_le_left x y, min_le_right x y, min_choice x y⟩

theorem Below.trans {x y z : Extended α} (first : Below op x y) (second : Below op y z) :
    Below op x z := by
  cases op with
  | windowScatterMax => exact le_trans first second
  | windowScatterMin => exact le_trans second first

theorem below_number {x y : α} : Below op (number x) (number y) ↔ Below op x y := by
  cases op <;> simp [Below, number]

theorem number_above {x : α} : ¬ Below op (number x) (identity op) := by
  cases op <;> simp [Below, number, identity]

theorem best_above (op : WindowScatterOp) {v : Extended α} (mem : v ∈ row) :
    Below op v (best op row) := by
  induction row with
  | nil => cases mem
  | cons u rest ih =>
    obtain ⟨left, right, -⟩ := pick_bounds op u (best op rest)
    rcases List.mem_cons.mp mem with rfl | mem
    · exact left
    · exact (ih mem).trans right

theorem best_mem (op : WindowScatterOp) (entries : row ≠ []) : best op row ∈ row := by
  induction row with
  | nil => exact absurd rfl entries
  | cons u rest ih =>
    obtain ⟨left, -, choice⟩ := pick_bounds op u (best op rest)
    have split : best op (u :: rest) = pick op u (best op rest) := rfl
    rw [split]
    rcases choice with first | second
    · rw [first]
      exact List.mem_cons_self ..
    · cases rest with
      | nil =>
        have same : pick op u (identity op) = u := by cases op <;> simp [pick, identity]
        rw [show best op ([] : List (Extended α)) = identity op from rfl, same]
        exact List.mem_cons_self ..
      | cons v rest =>
        rw [second]
        exact List.mem_cons_of_mem _ (ih (by simp))

theorem foldr_max (l : List Int) :
    (∀ x ∈ l, x ≤ l.foldr max (-1)) ∧ (l.foldr max (-1) = -1 ∨ l.foldr max (-1) ∈ l) := by
  induction l with
  | nil => simp
  | cons a rest ih =>
    rw [List.foldr_cons]
    refine ⟨fun x mem => ?_, ?_⟩
    · rcases List.mem_cons.mp mem with rfl | mem
      · exact le_max_left _ _
      · exact (ih.1 x mem).trans (le_max_right _ _)
    · rcases max_choice a (rest.foldr max (-1)) with first | second
      · rw [first]
        exact .inr (List.mem_cons_self ..)
      · rw [second]
        exact ih.2.imp_right (List.mem_cons_of_mem _)

theorem last_spec (op : WindowScatterOp) (entries : row ≠ []) :
    ∃ i : Nat, last op row = i ∧ row[i]? = some (best op row) ∧
    ∀ j, row[j]? = some (best op row) → j ≤ i := by
  obtain ⟨above, among⟩ := foldr_max (row.mapIdx fun i v => if v = best op row then (i : Int) else -1)
  have below : ∀ j : Nat, row[j]? = some (best op row) → (j : Int) ≤ last op row := by
    intro j there
    refine above _ (List.mem_of_getElem? (i := j) ?_)
    rw [List.getElem?_mapIdx, there]
    simp
  obtain ⟨j, here⟩ := List.getElem?_of_mem (best_mem op entries)
  have positive : (0 : Int) ≤ last op row := (Int.natCast_nonneg j).trans (below j here)
  have mem := among.resolve_left (by
    change ¬ last op row = -1
    omega)
  obtain ⟨i, found⟩ := List.getElem?_of_mem mem
  change _ = some (last op row) at found
  rw [List.getElem?_mapIdx] at found
  obtain ⟨v, there, value⟩ := Option.map_eq_some_iff.mp found
  split at value
  · rename_i extreme
    refine ⟨i, value.symm, there.trans (congrArg some extreme), fun j here => ?_⟩
    have := below j here
    omega
  · omega

end rows

section order
variable {shape window strides o k k' q q' : List Nat} {padding : List (Int × Int)}

theorem digits_lt {n a b i j : Nat} (low : a < n) (low' : b < n) :
    i * n + a < j * n + b ↔ i < j ∨ i = j ∧ a < b := by
  rcases Nat.lt_trichotomy i j with less | rfl | more
  · have := Nat.mul_le_mul_right n (Nat.succ_le_of_lt less)
    rw [Nat.succ_mul] at this
    omega
  · omega
  · have := Nat.mul_le_mul_right n (Nat.succ_le_of_lt more)
    rw [Nat.succ_mul] at this
    omega

theorem shift_injective
    (paddings : List.Forall₂ (fun (_ : Nat) (p : Int × Int) => 0 ≤ p.1 ∧ 0 ≤ p.2) shape padding)
    (inside : Inside shape q) (inside' : Inside shape q')
    (same : shift padding q = shift padding q') : q = q' := by
  induction paddings generalizing q q' with
  | nil =>
    cases q with
    | nil => cases q' with
      | nil => rfl
      | cons => cases inside'
    | cons => cases inside
  | @cons d p ds ps here _ ih =>
    cases q with
    | nil => cases inside
    | cons i is =>
      cases q' with
      | nil => cases inside'
      | cons j js =>
        simp only [shift, List.zipWith_cons_cons, List.cons.injEq] at same
        have low := here.1
        rw [ih inside.2 inside'.2 same.2, show i = j by omega]

theorem paddedShape_length
    (paddings : List.Forall₂ (fun (_ : Nat) (p : Int × Int) => 0 ≤ p.1 ∧ 0 ≤ p.2) shape padding) :
    (paddedShape shape padding).length = shape.length := by
  rw [paddedShape, List.length_zipWith, ← paddings.length_eq, Nat.min_self]

theorem stridesOf_length (shape : List Nat) : (stridesOf shape).length = shape.length := by
  induction shape with
  | nil => rfl
  | cons d ds ih => exact congrArg Nat.succ ih

theorem fits_lengths : ∀ {ds ws ss ls : List Nat}, Fits ds ws ss ls →
    ws.length = ds.length ∧ ss.length = ds.length
  | [], [], [], [], _ => ⟨rfl, rfl⟩
  | _ :: _, _ :: _, _ :: _, _ :: _, fits => by
    obtain ⟨windows, steps⟩ := fits_lengths fits.2.2.2.2
    exact ⟨congrArg Nat.succ windows, congrArg Nat.succ steps⟩

theorem entries_ordered
    (paddings : List.Forall₂ (fun (_ : Nat) (p : Int × Int) => 0 ≤ p.1 ∧ 0 ≤ p.2) shape padding)
    (steps : strides.length = shape.length) (outs : o.length = shape.length)
    (len : window.length = shape.length)
    (entry : Inside window k) (entry' : Inside window k') (inside : Inside shape q)
    (inside' : Inside shape q')
    (here : windowAt strides (List.replicate window.length 1) o k = shift padding q)
    (here' : windowAt strides (List.replicate window.length 1) o k' = shift padding q') :
    offset window k < offset window k' ↔ offset shape q < offset shape q' := by
  induction paddings generalizing window strides o k k' q q' with
  | nil =>
    obtain rfl := List.length_eq_zero_iff.mp len
    simp [offset]
  | @cons d p ds ps first _ ih =>
    obtain ⟨w, window, rfl⟩ := List.exists_cons_of_length_eq_add_one len
    obtain ⟨s, strides, rfl⟩ := List.exists_cons_of_length_eq_add_one steps
    obtain ⟨a, o, rfl⟩ := List.exists_cons_of_length_eq_add_one outs
    obtain ⟨i, k, rfl⟩ := List.exists_cons_of_length_eq_add_one entry.length
    obtain ⟨j, k', rfl⟩ := List.exists_cons_of_length_eq_add_one entry'.length
    obtain ⟨x, q, rfl⟩ := List.exists_cons_of_length_eq_add_one inside.length
    obtain ⟨y, q', rfl⟩ := List.exists_cons_of_length_eq_add_one inside'.length
    simp only [List.length_cons, List.replicate_succ, windowAt, shift, List.zipWith_cons_cons,
      List.cons.injEq] at here here'
    have rest := ih (by simpa using steps) (by simpa using outs)
      (by simpa using len) entry.2 entry'.2 inside.2
      inside'.2 here.2 here'.2
    have low := first.1
    have less : i < j ↔ x < y := by omega
    have same : i = j ↔ x = y := by omega
    simp only [offset]
    rw [digits_lt (offset_lt entry.2) (offset_lt entry'.2), digits_lt (offset_lt inside.2)
      (offset_lt inside'.2), rest, less, same]

end order

section chosen
variable [LinearOrder α] [Semiring α] {op : WindowScatterOp} {window strides : List Nat}
variable {padding : List (Int × Int)} {t : NDArray α} {o q q' : List Nat}

theorem LastExtreme.unique (here : LastExtreme op window strides padding t o q)
    (here' : LastExtreme op window strides padding t o q') : q = q' := by
  have same : t.entry q = t.entry q' := by
    have le := here.extreme q' here'.inside here'.covered
    have le' := here'.extreme q here.inside here.covered
    cases op with
    | windowScatterMax => exact le_antisymm le' le
    | windowScatterMin => exact le_antisymm le le'
  exact offset_inj here.inside here'.inside
    (Nat.le_antisymm (here'.last q here.inside here.covered same)
    (here.last q' here'.inside here'.covered same.symm))

def row (op : WindowScatterOp) (window strides : List Nat) (padding : List (Int × Int)) (t : NDArray α)
    (o : List Nat) : List (Extended α) :=
  (indices window).map fun k =>
    cell op t padding (windowAt strides (List.replicate window.length 1) o k)

omit [LinearOrder α] in
theorem row_get {k : List Nat} (inside : Inside window k) :
    (row op window strides padding t o)[offset window k]? =
    some (cell op t padding (windowAt strides (List.replicate window.length 1) o k)) := by
  rw [row, List.getElem?_map, indices_get inside]
  rfl

theorem chosen (accepted : Accepted window strides padding t)
    (inside : Inside (counts t.shape window strides padding) o) : ∃ k q, Inside window k ∧
      last op (row op window strides padding t o) = offset window k ∧
      windowAt strides (List.replicate window.length 1) o k = shift padding q ∧
      LastExtreme op window strides padding t o q := by
  have within : ∀ k, Inside window k → Inside (paddedShape t.shape padding)
      (windowAt strides (List.replicate window.length 1) o k) :=
    fun k entry => windowAt_inside accepted.fits inside entry
  have covered : ∀ q k, Inside t.shape q → Inside window k →
      windowAt strides (List.replicate window.length 1) o k = shift padding q →
      (row op window strides padding t o)[offset window k]? = some (number (t.entry q)) := by
    intro q k low entry there
    rw [row_get entry, there, cell_shift accepted.paddings low (there ▸ within k entry)]
  obtain ⟨q₁, mem, k₁, entry₁, there₁⟩ := accepted.overlap o (mem_indices.mpr inside)
  have low₁ := mem_indices.mp mem
  have first := covered q₁ k₁ low₁ (mem_indices.mp entry₁) there₁
  have entries : row op window strides padding t o ≠ [] :=
    List.ne_nil_of_mem (List.mem_of_getElem? first)
  obtain ⟨i, spot, extreme, later⟩ := last_spec op entries
  obtain ⟨k, found⟩ : ∃ k, (indices window)[i]? = some k := by
    have bound := (List.getElem?_eq_some_iff.mp extreme).1
    rw [row, List.length_map] at bound
    exact ⟨_, List.getElem?_eq_getElem bound⟩
  have entry := mem_indices.mp (List.mem_of_getElem? found)
  have number_of := offset_of_get found
  subst number_of
  rw [row_get entry] at extreme
  have value := Option.some.inj extreme
  have inner := within k entry
  cases there : place (pads t.shape padding)
    (windowAt strides (List.replicate window.length 1) o k) with
  | none =>
    -- only the identity is there, and no number is below it
    rw [cell, there] at value
    have above := best_above op (List.mem_of_getElem? first)
    rw [← value] at above
    exact absurd above number_above
  | some q =>
    obtain ⟨low, shifted⟩ := (place_padded accepted.paddings inner).mp there
    have here : number (t.entry q) = best op (row op window strides padding t o) := by
      rw [← value, cell, there]
    refine ⟨k, q, entry, spot, shifted.symm, low, ⟨k, mem_indices.mpr entry, shifted.symm⟩, ?_, ?_⟩
    · rintro q' low' ⟨k', entry', there'⟩
      have above := best_above op
        (List.mem_of_getElem? (covered q' k' low' (mem_indices.mp entry') there'))
      rw [← here] at above
      exact below_number.mp above
    · rintro q' low' ⟨k', entry', there'⟩ same
      have tie := covered q' k' low' (mem_indices.mp entry') there'
      rw [same, here] at tie
      have before := later _ tie
      have ranks := fits_lengths accepted.fits
      have sizes := paddedShape_length accepted.paddings
      have order := entries_ordered accepted.paddings (ranks.2.trans sizes)
        ((inside.length.trans (outDims_length accepted.fits)).trans sizes) (ranks.1.trans sizes) entry
        (mem_indices.mp entry') low low' shifted.symm there'
      omega

end chosen

section tensors
variable [LinearOrder α] [Semiring α] {op : WindowScatterOp} {window : List Nat}

theorem contributions_ok {flat : NDArray (Extended α)} {source : NDArray α}
    {rows : List Nat → List (Extended α)} (read : ∀ o, Inside source.shape o →
      (List.range window.prod).mapM (fun i => flat.get? (o ++ [i])) = some (rows o)) :
    ∃ c c', contributions op flat source source.shape window.prod = some c ∧
      c.reshape (source.shape ++ window) = some c' ∧ c'.shape = source.shape ++ window ∧
      ∀ o k, Inside source.shape o → Inside window k → c'.get? (o ++ k) =
        some ((if (offset window k : Int) = last op (rows o) then 1 else 0) * source.entry o) := by
  obtain ⟨single, moved⟩ : ∃ single, source.reshape (source.shape ++ [1]) = some single :=
    reshape_ok (by simp)
  have value : ∀ o, Inside source.shape o → single.get? (o ++ [0]) = some (source.entry o) := by
    intro o inside
    have flattened := get?_flatten (List.append_nil _).symm moved inside
      (show Inside [] [] from trivial)
    rwa [List.append_nil, get?_entry inside] at flattened
  have entries : ∀ (o : List Nat) (i : Nat), Inside source.shape o →
      ((o ++ [i])[source.shape.length]?.bind fun j =>
        contribution op flat single window.prod ((o ++ [i]).take source.shape.length) j) =
      some ((if (i : Int) = last op (rows o) then 1 else 0) * source.entry o) := by
    intro o i inside
    have front : (o ++ [i]).take source.shape.length = o := List.take_left' inside.length
    have index : (o ++ [i])[source.shape.length]? = some i := by simp [← inside.length]
    rw [front, index, Option.bind_some, contribution, bind_step (read o inside),
      bind_step (value o inside)]
  obtain ⟨c, made⟩ : ∃ c, contributions op flat source source.shape window.prod = some c := by
    rw [contributions, bind_step moved]
    refine build_ok fun idx inside => ?_
    obtain ⟨o, i, rfl, first, rest⟩ := inside_split inside
    obtain ⟨i, rfl⟩ : ∃ j, i = [j] := List.length_eq_one_iff.mp rest.length
    rw [entries o i first]
    rfl
  have gets := made
  rw [contributions, bind_step moved] at gets
  obtain ⟨dims, gets⟩ := build_eq.mp gets
  obtain ⟨c', opened⟩ : ∃ c', c.reshape (source.shape ++ window) = some c' :=
    reshape_ok (by simp [dims])
  refine ⟨c, c', made, opened, reshape_shape opened, fun o k first rest => ?_⟩
  have flat_inside : Inside (source.shape ++ [window.prod]) (o ++ [offset window k]) :=
    (inside_append first.length).mpr ⟨first, offset_lt rest, trivial⟩
  have here : c'.get? (o ++ k) = c.get? (o ++ [offset window k]) := by
    refine get?_reshape opened (dims ▸ flat_inside) ((inside_append first.length).mpr ⟨first, rest⟩) ?_
    rw [dims, offset_append first.length, offset_append first.length]
    simp [offset]
  rw [here, gets _ flat_inside]
  exact entries o (offset window k) first

end tensors

section scatter
variable [Semiring α]

theorem scatter_at {vals : NDArray α} {lins : List Int} {full : List Nat} {f : List Nat → Int}
    {g : List Nat → α}
    {m : Nat} (n : Nat) (shape : vals.shape = [m]) (indexed : lins = (indices full).map f)
    (valued : vals.data = (indices full).map g) : ∃ out,
    scatterWith (fun x us => x + us.sum) (tabulate [n] fun _ => 0) vals (lins.map wrap32) = some out ∧
      out.shape = [n] ∧ ∀ j, j < n → out.get? [j] =
        some ((indices full).map fun idx => if wrap32 (f idx) = j then g idx else 0).sum := by
  obtain ⟨out, made, dims, gets⟩ := @Scatter.scatterWith_ok α (fun (x : α) us => x + us.sum)
    (tabulate [n] fun _ => 0) vals (lins.map wrap32) n [] rfl
  refine ⟨out, made, dims, fun j low => ?_⟩
  have here : Inside [n] [j] := ⟨low, trivial⟩
  have updates : (hits (lins.map wrap32) j).filterMap (fun i => vals.get? [i]) =
      ((indices full).filter fun idx => wrap32 (f idx) = j).map g := by
    rw [indexed, List.map_map]
    refine Eq.trans ?_ (Scatter.hits_map (wrap32 ∘ f) g (indices full) j)
    exact List.filterMap_congr fun i _ => by rw [get?_flat shape, valued]
  rw [gets j [] here, get?_tabulate here, Option.map_some, updates, sum_filter, zero_add]

end scatter

section crop
variable {shape q : List Nat} {padding : List (Int × Int)}

theorem unpadded_shape (len : padding.length = shape.length)
    (none : (padding.any fun p => p.1 ≠ 0 || p.2 ≠ 0) = false) : paddedShape shape padding = shape ∧
      ∀ q, Inside shape q → shift padding q = q := by
  induction shape generalizing padding with
  | nil =>
    obtain rfl := List.length_eq_zero_iff.mp len
    refine ⟨rfl, fun q inside => ?_⟩
    obtain rfl := List.length_eq_zero_iff.mp inside.length
    rfl
  | cons d ds ih =>
    cases padding with
    | nil => cases len
    | cons p ps =>
      simp only [List.any_cons, Bool.or_eq_false_iff, decide_eq_false_iff_not, not_not] at none
      obtain ⟨⟨lo, hi⟩, rest⟩ := none
      obtain ⟨same, kept⟩ := ih (by simpa using len) rest
      refine ⟨?_, fun q inside => ?_⟩
      · rw [paddedShape, List.zipWith_cons_cons, lo, hi]
        simpa [paddedShape] using same
      · cases q with
        | nil => cases inside
        | cons i is =>
          have later := kept is inside.2
          rw [shift] at later
          rw [shift, List.zipWith_cons_cons, later, lo]
          simp

def cropWindows (shape : List Nat) (padding : List (Int × Int)) : List Window :=
  List.zipWith (fun d (w : Int × Nat) => pythonSlice d w.1 (w.1 + w.2)) (paddedShape shape padding)
    (List.zipWith (fun p d => (p.1, d)) padding shape)

theorem cropWindows_ok
    (paddings : List.Forall₂ (fun (_ : Nat) (p : Int × Int) => 0 ≤ p.1 ∧ 0 ≤ p.2) shape padding) :
    (cropWindows shape padding).map Window.size = shape ∧
      List.Forall₂ Window.Fits (paddedShape shape padding) (cropWindows shape padding) ∧
      (∀ w ∈ cropWindows shape padding, w.Whole) ∧
      ∀ q, Inside shape q → place (cropWindows shape padding) q = some (shift padding q) := by
  induction paddings with
  | nil =>
    refine ⟨rfl, .nil, by simp [cropWindows], fun q inside => ?_⟩
    obtain rfl := List.length_eq_zero_iff.mp inside.length
    rfl
  | @cons d p ds ps here _ ih =>
    obtain ⟨lo, hi⟩ := p
    obtain ⟨sizes, fits, whole, places⟩ := ih
    have slice : pythonSlice (d + lo + hi).toNat lo (lo + d) = ⟨d, fun i => some (lo.toNat + i)⟩ := by
      have start : min lo.toNat ((d : Int) + lo + hi).toNat = lo.toNat := by omega
      have stop : min (lo + d).toNat ((d : Int) + lo + hi).toNat = lo.toNat + d := by omega
      simp only [pythonSlice, if_neg (Int.not_lt.mpr here.1),
        if_neg (show ¬ lo + (d : Int) < 0 by omega), start, stop, Nat.add_sub_cancel_left]
    have split : cropWindows (d :: ds) ((lo, hi) :: ps) =
        ⟨d, fun i => some (lo.toNat + i)⟩ :: cropWindows ds ps :=
          congrArg (· :: cropWindows ds ps) slice
    rw [split]
    refine ⟨congrArg (d :: ·) sizes, .cons ?_ fits, List.forall_mem_cons.mpr ⟨fun _ _ => rfl, whole⟩,
      fun q inside => ?_⟩
    · rintro i j low ⟨⟩
      have low : i < d := low
      dsimp only
      omega
    · cases q with
      | nil => cases inside
      | cons i is =>
        rw [place, places is inside.2]
        have first : lo.toNat + i = ((i : Int) + lo).toNat := by omega
        simp [shift, first]

theorem shift_inside (paddings : List.Forall₂ (fun (_ : Nat) (p : Int × Int) => 0 ≤ p.1 ∧ 0 ≤ p.2)
    shape padding)
    (inside : Inside shape q) : Inside (paddedShape shape padding) (shift padding q) := by
  obtain ⟨sizes, fits, -, places⟩ := cropWindows_ok paddings
  exact place_inside fits (by rwa [sizes]) (places q inside)

end crop

section whole
variable [LinearOrder α] [Semiring α] {op : WindowScatterOp} {window strides : List Nat}
variable {padding : List (Int × Int)} {t : NDArray α}

omit [LinearOrder α] [Semiring α] in
theorem crop_ok {result : NDArray α}
    (paddings : List.Forall₂ (fun _ p => 0 ≤ p.1 ∧ 0 ≤ p.2) t.shape padding)
    (dims : result.shape = paddedShape t.shape padding) : ∃ r,
    (if padding.any (fun p => p.1 ≠ 0 || p.2 ≠ 0) then
      look result (List.zipWith (fun d (w : Int × Nat) => pythonSlice d w.1 (w.1 + w.2)) result.shape
        (List.zipWith (fun p d => (p.1, d)) padding t.shape)) none
      else some result) = some r ∧ r.shape = t.shape ∧
      ∀ q, Inside t.shape q → r.get? q = result.get? (shift padding q) := by
  have len : padding.length = t.shape.length := paddings.length_eq.symm
  cases any : padding.any fun p => p.1 ≠ 0 || p.2 ≠ 0 with
  | true =>
    obtain ⟨sizes, fits, whole, places⟩ := cropWindows_ok paddings
    obtain ⟨r, made⟩ := @look_ok α (cropWindows t.shape padding) result none (dims ▸ fits) (.inr whole)
    refine ⟨r, by rw [if_pos rfl, dims]; exact made, (look_shape made).trans sizes, fun q inside => ?_⟩
    rw [get?_look made (by rwa [sizes]), places q inside]
  | false =>
    obtain ⟨same, kept⟩ := unpadded_shape len any
    refine ⟨result, if_neg Bool.false_ne_true, dims.trans same, fun q inside => ?_⟩
    rw [kept q inside]

omit [LinearOrder α] in
/-- The windows of the padded tensor, one row for each position of `source`. -/
theorem rows_ok (accepted : Accepted window strides padding t) (some_axis : t.shape ≠ [])
    {padded : NDArray (Extended α)} (padded_shape : padded.shape = paddedShape t.shape padding)
    (cells : ∀ p, Inside (paddedShape t.shape padding) p → padded.get? p = some (cell op t padding p))
    {source : NDArray α} (dims : source.shape = counts t.shape window strides padding) :
    ∃ windows flat, pool padded window strides (List.replicate window.length 1) = some windows ∧
      windows.shape = source.shape ++ window ∧
      windows.reshape (source.shape ++ [window.prod]) = some flat ∧
      ∀ o, Inside source.shape o → (List.range window.prod).mapM (fun i => flat.get? (o ++ [i])) =
        some (row op window strides padding t o) := by
  have fits := accepted.fits
  have some_padded : padded.shape ≠ [] := by
    rw [padded_shape]
    intro none
    have count := paddedShape_length accepted.paddings
    rw [none] at count
    exact some_axis (List.eq_nil_of_length_eq_zero count.symm)
  obtain ⟨windows, pooled, windows_shape, entries⟩ := pool_ok some_padded (padded_shape ▸ fits)
  rw [padded_shape] at windows_shape entries
  change windows.shape = counts t.shape window strides padding ++ window at windows_shape
  change ∀ o k, Inside (counts t.shape window strides padding) o → Inside window k → _ at entries
  rw [← dims] at windows_shape entries
  have within : ∀ o k, Inside source.shape o → Inside window k → Inside (paddedShape t.shape padding)
      (windowAt strides (List.replicate window.length 1) o k) :=
    fun o k inside entry =>
      windowAt_inside fits (show Inside (counts _ _ _ _) o from dims ▸ inside) entry
  obtain ⟨flat, flattened⟩ : ∃ flat, windows.reshape (source.shape ++ [window.prod]) = some flat :=
    reshape_ok (by simp [windows_shape])
  refine ⟨windows, flat, pooled, windows_shape, flattened, fun o inside => ?_⟩
  rw [← indices_length window]
  refine range_mapM fun i k there => ?_
  have entry := mem_indices.mp (List.mem_of_getElem? there)
  rw [← offset_of_get there, get?_flatten windows_shape flattened inside entry,
    entries o k inside entry, cells _ (within o k inside entry)]

omit [LinearOrder α] in
/-- Of a window's contributions only that of the picked entry is not zero. -/
theorem window_sum (accepted : Accepted window strides padding t) {contrib source : NDArray α}
    {o q q' : List Nat} (rank : o.length = t.shape.length) {k : List Nat} (entry : Inside window k)
    (shifted : windowAt strides (List.replicate window.length 1) o k = shift padding q')
    (value : ∀ k', Inside window k' → contrib.entry (o ++ k') =
      (if (offset window k' : Int) = offset window k then 1 else 0) * source.entry o) :
    ((indices window).map fun k' => if wrap32 ((List.range t.shape.length).map fun a =>
        axisTerm t.shape.length strides (stridesOf (paddedShape t.shape padding)) a (o ++ k')).sum =
        (offset (paddedShape t.shape padding) (shift padding q) : Int)
        then contrib.entry (o ++ k') else 0).sum =
      if wrap32 (offset (paddedShape t.shape padding) (shift padding q')) =
        offset (paddedShape t.shape padding) (shift padding q) then source.entry o else 0 := by
  have padded := paddedShape_length accepted.paddings
  have wins : window.length = t.shape.length := (fits_lengths accepted.fits).1.trans padded
  have steps : strides.length = t.shape.length := (fits_lengths accepted.fits).2.trans padded
  have lone : ∀ k' ∈ indices window, k' ≠ k → (if wrap32 ((List.range t.shape.length).map fun a =>
      axisTerm t.shape.length strides (stridesOf (paddedShape t.shape padding)) a (o ++ k')).sum =
      (offset (paddedShape t.shape padding) (shift padding q) : Int)
      then contrib.entry (o ++ k') else 0) = 0 := by
    intro k' mem other
    have low := mem_indices.mp mem
    have apart : (offset window k' : Int) ≠ offset window k :=
      fun same => other (offset_inj low entry (Int.ofNat.inj same))
    rw [value k' low, if_neg apart, zero_mul, ite_self]
  rw [sum_single (indices_nodup window) (mem_indices.mpr entry) lone, value k entry, if_pos rfl, one_mul,
    ← wins, terms_sum (padded.trans wins.symm) (steps.trans wins.symm) (rank.trans wins.symm)
      entry.length, shifted]

theorem windowScatter_ok (accepted : Accepted window strides padding t) (some_axis : t.shape ≠ [])
    {K Q : List Nat → List Nat}
    (picked : ∀ o, Inside (counts t.shape window strides padding) o → Inside window (K o) ∧
      last op (row op window strides padding t o) = offset window (K o) ∧
      windowAt strides (List.replicate window.length 1) o (K o) = shift padding (Q o))
    (init : α) {source : NDArray α} (dims : source.shape = counts t.shape window strides padding) :
    ∃ r, windowScatter op window strides padding init t source = some r ∧ r.shape = t.shape ∧
      ∀ q, Inside t.shape q → r.get? q = some (init + ((indices source.shape).map fun o =>
        if wrap32 (offset (paddedShape t.shape padding) (shift padding (Q o))) =
          offset (paddedShape t.shape padding) (shift padding q) then source.entry o else 0).sum) := by
  obtain ⟨padded, pad, padded_shape, cells⟩ := padded_ok op accepted.paddings
  rw [← dims] at picked
  obtain ⟨windows, flat, pooled, windows_shape, flattened, read⟩ :=
    rows_ok accepted some_axis padded_shape cells dims
  have rank := paddedShape_length accepted.paddings
  have outs : source.shape.length = t.shape.length := by
    rw [dims]
    exact (outDims_length accepted.fits).trans rank
  have wins : window.length = t.shape.length := (fits_lengths accepted.fits).1.trans rank
  have steps : strides.length = t.shape.length := (fits_lengths accepted.fits).2.trans rank
  have weights : (stridesOf padded.shape).length = t.shape.length := by
    rw [stridesOf_length, padded_shape, rank]
  obtain ⟨c, contrib, made, opened, contrib_shape, values⟩ := contributions_ok read
  obtain ⟨lin, looped, spread⟩ := linear_ok (List.length_pos_iff.mpr some_axis) outs wins steps weights
  obtain ⟨wide, expanded, wide_shape, lins⟩ := spread.expand
  obtain ⟨index, moved⟩ : ∃ index, wide.reshape [(source.shape ++ window).prod] = some index :=
    reshape_ok (by simp [wide_shape])
  obtain ⟨vals, moved'⟩ : ∃ vals, contrib.reshape [(source.shape ++ window).prod] = some vals :=
    reshape_ok (by simp [contrib_shape])
  have indexed : index.data = (indices (source.shape ++ window)).map fun idx =>
      ((List.range t.shape.length).map fun a =>
        axisTerm t.shape.length strides (stridesOf padded.shape) a idx).sum := by
    rw [reshape_data moved, ← wide_shape]
    exact data_map fun idx inside => lins idx (wide_shape ▸ inside)
  have valued : vals.data = (indices (source.shape ++ window)).map fun idx => (contrib.entry idx) := by
    rw [reshape_data moved', ← contrib_shape]
    exact data_map fun idx inside => get?_entry inside
  obtain ⟨scattered, added, scattered_shape, sums⟩ :=
    scatter_at padded.shape.prod (reshape_shape moved') indexed valued
  obtain ⟨result, back⟩ : ∃ result, scattered.reshape padded.shape = some result :=
    reshape_ok (by simp [scattered_shape])
  obtain ⟨r, cropped, r_shape, gets⟩ := @crop_ok α padding t (result.map (· + init)) accepted.paddings
    ((reshape_shape back).trans padded_shape)
  have taken : windows.shape.take t.shape.length = source.shape := by
    rw [windows_shape, List.take_left' outs]
  have dropped : windows.shape.drop t.shape.length = window := by
    rw [windows_shape, List.drop_left' outs]
  refine ⟨r, ?_, r_shape, fun q inside => ?_⟩
  · rw [windowScatter]
    dsimp only
    rw [bind_step pad, bind_step pooled, taken, dropped, bind_step flattened, bind_step made,
      bind_step opened,
      bind_step looped, bind_step (show some lin = some lin from rfl), bind_step expanded,
      bind_step moved, bind_step moved', bind_step added, bind_step back, cropped]
  · have there : Inside padded.shape (shift padding q) :=
      padded_shape ▸ shift_inside accepted.paddings inside
    have place : Inside [padded.shape.prod] [offset padded.shape (shift padding q)] :=
      ⟨offset_lt there, trivial⟩
    have from_flat : result.get? (shift padding q) =
        scattered.get? [offset padded.shape (shift padding q)] :=
      get?_reshape back (scattered_shape ▸ place) there (by rw [scattered_shape]; simp [offset])
    rw [gets q inside, get?_map, from_flat, sums _ (offset_lt there), Option.map_some, add_comm,
      padded_shape, sum_indices_append]
    refine congrArg (fun l : List α => some (init + l.sum)) (List.map_congr_left fun o mem => ?_)
    have window_at := mem_indices.mp mem
    obtain ⟨entry, found, shifted⟩ := picked o window_at
    have value : ∀ k, Inside window k → contrib.entry (o ++ k) =
        (if (offset window k : Int) = offset window (K o) then 1 else 0) * source.entry o := by
      intro k low
      rw [NDArray.entry, values o k window_at low, Option.getD_some, found]
    exact window_sum accepted (window_at.length.trans outs) entry shifted value

theorem bind_none {β γ : Type} {x : Option β} {f : β → Option γ} (all : ∀ y, x = some y → f y = none) :
    (x >>= f) = none := by
  cases h : x with
  | none => rfl
  | some y => exact all y h

theorem scalar_raises (scalar : t.shape = []) (init : α) (source : NDArray α) :
    windowScatter op window strides padding init t source = none := by
  rw [windowScatter]
  dsimp only
  refine bind_none fun padded _ => bind_none fun windows _ => bind_none fun flat _ =>
    bind_none fun c _ =>
    bind_none fun c' _ => ?_
  have empty : linear t.shape.length (windows.shape.take t.shape.length)
      (windows.shape.drop t.shape.length)
      strides (stridesOf padded.shape) = some none := by
    rw [scalar]
    rfl
  rw [bind_step empty]
  rfl

theorem wrap32_big {n : Nat} (big : 2 ^ 31 ≤ n) : wrap32 n ≠ n := by
  have low := @Int.bmod_lt (n : Int) (2 ^ 32) (by decide)
  unfold wrap32
  omega

theorem selects_of (accepted : Accepted window strides padding t) (some_axis : t.shape ≠ [])
    (small : ∀ o q, Inside (counts t.shape window strides padding) o →
      LastExtreme op window strides padding t o q →
      offset (paddedShape t.shape padding) (shift padding q) < 2 ^ 31) :
    Selects op window strides padding t := by
  choose! K Q entry found shifted extreme using fun o inside =>
    @chosen α _ _ op window strides padding t o accepted inside
  refine ⟨Q, extreme, fun init source dims => ?_⟩
  obtain ⟨r, ran, shape, gets⟩ := windowScatter_ok accepted some_axis
    (fun o inside => ⟨entry o inside, found o inside, shifted o inside⟩) init dims
  refine ⟨r, ran, shape, fun q inside => ?_⟩
  rw [gets q inside, sum_filter]
  refine congrArg (fun l : List α => some (init + l.sum)) (List.map_congr_left fun o mem => ?_)
  have window_at : Inside (counts t.shape window strides padding) o := dims ▸ mem_indices.mp mem
  have here := extreme o window_at
  refine if_congr ?_ rfl rfl
  rw [Scatter.wrap32_small (small o (Q o) window_at here), Int.natCast_inj]
  constructor
  · intro same
    exact shift_injective accepted.paddings here.inside inside
      (offset_inj (shift_inside accepted.paddings here.inside)
      (shift_inside accepted.paddings inside) same)
  · rintro rfl
    rfl

theorem small_of [Nontrivial α] (accepted : Accepted window strides padding t)
    (selects : Selects op window strides padding t) : t.shape ≠ [] ∧
      ∀ o q, Inside (counts t.shape window strides padding) o →
      LastExtreme op window strides padding t o q →
        offset (paddedShape t.shape padding) (shift padding q) < 2 ^ 31 := by
  obtain ⟨sel, extreme, all⟩ := selects
  have some_axis : t.shape ≠ [] := by
    intro scalar
    obtain ⟨r, ran, -⟩ := all 0 (tabulate (counts t.shape window strides padding) fun _ => 0) rfl
    rw [scalar_raises scalar] at ran
    cases ran
  refine ⟨some_axis, fun o q inside here => ?_⟩
  by_contra big
  have same := here.unique (extreme o inside)
  choose! K Q entry found shifted last using fun o inside =>
    @chosen α _ _ op window strides padding t o accepted inside
  -- a source that is 1 at this window only
  obtain ⟨source, dims, ones⟩ :
      ∃ source : NDArray α, source.shape = counts t.shape window strides padding ∧
      ∀ o', Inside source.shape o' → source.entry o' = if o' = o then 1 else 0 := by
    refine ⟨tabulate (counts t.shape window strides padding) fun o' => if o' = o then 1 else 0, rfl,
      fun o' inside' => ?_⟩
    have window_at : Inside (counts t.shape window strides padding) o' := inside'
    rw [NDArray.entry, get?_tabulate window_at, Option.getD_some]
  obtain ⟨r, ran, -, gets⟩ := all 0 source dims
  obtain ⟨r', ran', -, gets'⟩ := windowScatter_ok accepted some_axis
    (fun o inside => ⟨entry o inside, found o inside, shifted o inside⟩) 0 dims
  rw [ran] at ran'
  obtain rfl := Option.some.inj ran'
  obtain rfl := here.unique (last o inside)
  have code := gets' (Q o) here.inside
  have spec := gets (Q o) here.inside
  have mem : o ∈ indices source.shape := mem_indices.mpr (dims ▸ inside)
  rw [sum_filter, sum_single (indices_nodup _) mem fun o' there other => by
    rw [ones o' (mem_indices.mp there), if_neg other, ite_self], if_pos same.symm,
      ones o (dims ▸ inside),
    if_pos rfl] at spec
  rw [sum_single (indices_nodup _) mem fun o' there other => by
    rw [ones o' (mem_indices.mp there), if_neg other, ite_self],
      if_neg (wrap32_big (Nat.not_lt.mp big)),
    spec] at code
  simp at code

/-- The result is select-and-scatter for all sources and initial values exactly when the operand has an
    axis and the last extreme element of every window has a linear index below 2^31. -/
theorem scatter_selects_iff [Nontrivial α] (accepted : Accepted window strides padding t) :
    Selects op window strides padding t ↔ t.shape ≠ [] ∧
      ∀ o q, Inside (counts t.shape window strides padding) o →
      LastExtreme op window strides padding t o q →
        offset (paddedShape t.shape padding) (shift padding q) < 2 ^ 31 :=
  ⟨small_of accepted, fun ⟨some_axis, small⟩ => selects_of accepted some_axis small⟩

def row4 : NDArray ℤ := ⟨[4], [3, 1, 3, 3], rfl⟩

theorem row4_accepted : Accepted [2] [1] [(1, 1)] row4 where
  paddings := by simp [row4]
  fits := by decide
  overlap := by
    unfold Covers
    decide

theorem row4_selects : Accepted [2] [1] [(1, 1)] row4 ∧ Selects .windowScatterMax [2] [1]
    [(1, 1)] row4 := by
  refine ⟨row4_accepted, (scatter_selects_iff row4_accepted).mpr ⟨by decide, fun o q _ here => ?_⟩⟩
  have low := offset_lt (shift_inside row4_accepted.paddings here.inside)
  have few : (paddedShape row4.shape [(1, 1)]).prod = 6 := rfl
  omega

/-- The window of a scalar operand is the scalar itself, and its value should go there. -/
theorem scalar_operand_raises : Accepted [] [] [] (NDArray.scalar (5 : ℤ)) ∧
    (∀ source, windowScatter .windowScatterMax [] [] [] 0 (NDArray.scalar (5 : ℤ)) source = none) ∧
    ¬ Selects .windowScatterMax [] [] [] (NDArray.scalar (5 : ℤ)) := by
  have raises (source : NDArray ℤ) :
      windowScatter .windowScatterMax [] [] [] 0 (NDArray.scalar (5 : ℤ)) source = none :=
        scalar_raises rfl 0 source
  refine ⟨⟨.nil, trivial, ?_⟩, raises, ?_⟩
  · unfold Covers
    decide
  · rintro ⟨_, _, all⟩
    obtain ⟨r, ran, -⟩ := all 0 (NDArray.scalar 1) rfl
    rw [raises] at ran
    cases ran

end whole

end NxTinygrad.WindowScatter
