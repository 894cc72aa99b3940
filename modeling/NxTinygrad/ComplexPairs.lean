import NxTinygrad.Reductions
import NxTinygrad.Lib.Broadcast
import NxTinygrad.Lib.Joining
import Mathlib.Data.Complex.Basic

/- A complex tensor of logical shape `S` is held as a real tensor of shape `S ++ [2]`, wrapped in `Cx`.
   The real arithmetic is exact. -/
namespace NxTinygrad.ComplexPairs
open NDArray Reductions

structure Functions (K : Type) where
  pi : K
  sqrt : K → K
  exp : K → K
  cos : K → K
  sin : K → K

section code
variable {K : Type} [Field K]

def re (t : NDArray K) : Option (NDArray K) := t.takeLast 0

def im (t : NDArray K) : Option (NDArray K) := t.takeLast 1

def cxt (re im : NDArray K) : Option (NDArray K) := do
  let x ← re.reshape (re.shape ++ [1])
  let y ← im.reshape (im.shape ++ [1])
  cat [x, y] re.shape.length

def promote : Value K → Option (NDArray K)
  | .cx t => some t
  | .real x => cxt x (x.map (· * 0))

end code

def decode (t : NDArray ℝ) : NDArray ℂ :=
  tabulate t.shape.dropLast fun idx => ⟨t.entry (idx ++ [0]), t.entry (idx ++ [1])⟩

def decodeValue : Value ℝ → NDArray ℂ
  | .cx t => decode t
  | .real x => x.map Complex.ofReal

/-- A value of a logical shape: a pair has the axis of the parts besides. -/
def OfShape (shape : List Nat) : Value ℝ → Prop
  | .cx t => t.shape = shape ++ [2]
  | .real x => x.shape = shape

def part (c : Nat) (z : ℂ) : ℝ := if c = 0 then z.re else z.im

def Holds (t : NDArray ℝ) (z : NDArray ℂ) : Prop := t.shape = z.shape ++ [2] ∧
  ∀ idx c, Inside z.shape idx → c < 2 → t.get? (idx ++ [c]) = (z.get? idx).map (part c)

def Reads : Value ℝ → NDArray ℂ → Prop
  | .cx t, z => Holds t z
  | .real x, z => z = x.map Complex.ofReal

variable {t : NDArray ℝ} {z : NDArray ℂ} {v : Value ℝ} {shape idx : List Nat}

theorem inside_last {d c : Nat} (inside : Inside shape idx) (low : c < d) :
    Inside (shape ++ [d]) (idx ++ [c]) :=
  (inside_append inside.length).mpr ⟨inside, low, trivial⟩

theorem holds_iff : Holds t z ↔ t.shape = z.shape ++ [2] ∧ decode t = z := by
  refine and_congr_right fun dims => ?_
  have back : t.shape.dropLast = z.shape := by rw [dims, List.dropLast_concat]
  constructor
  · intro parts
    have here : (decode t).shape = z.shape := back
    refine ext_get here fun idx inside => ?_
    rw [here] at inside
    obtain ⟨x, read⟩ := Option.isSome_iff_exists.mp (get?_isSome.mpr inside)
    have first := parts idx 0 inside Nat.two_pos
    have second := parts idx 1 inside Nat.one_lt_two
    rw [read] at first second
    rw [decode, back, get?_tabulate inside, entry, entry, first, second, read]
    rfl
  · rintro rfl idx c inside low
    have there : Inside t.shape.dropLast idx := inside
    have inside' : Inside t.shape (idx ++ [c]) := dims ▸ inside_last inside low
    rw [get?_entry inside', decode, get?_tabulate there]
    rcases Nat.lt_succ_iff_lt_or_eq.mp low with zero | rfl
    · obtain rfl : c = 0 := by omega
      rfl
    · rfl

theorem reads_iff : Reads v z ↔ OfShape z.shape v ∧ decodeValue v = z := by
  cases v with
  | cx t => exact holds_iff
  | real x =>
    constructor
    · rintro rfl
      exact ⟨rfl, rfl⟩
    · rintro ⟨-, same⟩
      exact same.symm

theorem reads_of (given : OfShape shape v) : Reads v (decodeValue v) := by
  refine reads_iff.mpr ⟨?_, rfl⟩
  cases v with
  | cx t =>
    have dims : t.shape = shape ++ [2] := given
    change t.shape = t.shape.dropLast ++ [2]
    rw [dims, List.dropLast_concat]
  | real x =>
    change x.shape = (x.map Complex.ofReal).shape
    rfl

theorem re_ok (held : Holds t z) : re t = some (z.map Complex.re) := by
  refine (takeLast_eq held.1).mpr ⟨rfl, fun idx inside => ?_⟩
  rw [get?_map, held.2 idx 0 inside Nat.two_pos]
  rfl

theorem im_ok (held : Holds t z) : im t = some (z.map Complex.im) := by
  refine (takeLast_eq held.1).mpr ⟨rfl, fun idx inside => ?_⟩
  rw [get?_map, held.2 idx 1 inside Nat.one_lt_two]
  rfl

theorem reshape_last {α : Type} (x : NDArray α) : ∃ y, x.reshape (x.shape ++ [1]) = some y ∧
    y.shape = x.shape ++ [1] ∧ ∀ idx, Inside x.shape idx → y.get? (idx ++ [0]) = x.get? idx := by
  have same : x.shape.prod = (x.shape ++ [1]).prod := by simp
  obtain ⟨y, made⟩ := reshape_ok same
  refine ⟨y, made, reshape_shape made, fun idx inside => ?_⟩
  refine get?_reshape made inside (inside_last inside Nat.one_pos) ?_
  rw [offset_append inside.length]
  simp [offset]

theorem cxt_ok (z : NDArray ℂ) : ∃ t, cxt (z.map Complex.re) (z.map Complex.im) = some t ∧
    Holds t z := by
  obtain ⟨x, made, dims, entries⟩ := reshape_last (z.map Complex.re)
  obtain ⟨y, made', dims', entries'⟩ := reshape_last (z.map Complex.im)
  have dims : x.shape = z.shape ++ [1] := dims
  have dims' : y.shape = z.shape ++ [1] := dims'
  have size : (z.shape ++ [1]).getD z.shape.length 0 = 1 := by simp
  obtain ⟨t, joined, all, read⟩ :=
    @cat_ok _ z.shape.length x [y] (by simp [dims]) (by simp [dims, dims'])
  have all : t.shape = z.shape ++ [2] := by
    rw [all]
    simp [dims, dims']
  refine ⟨t, ?_, all, fun idx c inside low => ?_⟩
  · rw [cxt, made, made']
    exact joined
  · have last : (idx ++ [c]).getD z.shape.length 0 = c := by simp [← inside.length]
    have there (i : Nat) : (idx ++ [c]).set z.shape.length i = idx ++ [i] := by simp [← inside.length]
    rw [read _ (all ▸ inside_last inside low), last, catRead, catRead, dims, dims', size, there]
    rcases Nat.lt_succ_iff_lt_or_eq.mp low with zero | rfl
    · obtain rfl : c = 0 := by omega
      rw [if_pos Nat.one_pos, entries idx inside, get?_map]
      rfl
    · rw [if_neg (Nat.lt_irrefl 1), if_pos (by decide), there, entries' idx inside, get?_map]
      rfl

theorem promote_ok (read : Reads v z) : ∃ t, promote v = some t ∧ Holds t z := by
  cases v with
  | cx t => exact ⟨t, rfl, read⟩
  | real x =>
    have same : z = x.map Complex.ofReal := read
    subst same
    obtain ⟨t, made, held⟩ := cxt_ok (x.map Complex.ofReal)
    have first : (x.map Complex.ofReal).map Complex.re = x := by simp [map, Function.comp_def]
    have second : (x.map Complex.ofReal).map Complex.im = x.map (· * 0) := by
      simp [map, Function.comp_def]
    rw [first, second] at made
    exact ⟨t, made, held⟩

end NxTinygrad.ComplexPairs
