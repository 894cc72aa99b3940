import NxTinygrad.Lib.NDArray
import NxTinygrad.Tensors

/- `_slice` and `_put_slice` as two ways through one block of a tensor: what is put there is read back, and
   nothing else moves. -/
namespace NxTinygrad.Blocks
open Interpreter Tensors
open NDArray (Inside)

variable {α : Type}

def landed : List Nat → List Int → Option (List Nat)
  | [], [] => some []
  | d :: ds, x :: xs => if 0 ≤ x ∧ x < d then (landed ds xs).map (x.toNat :: ·) else none
  | _, _ => none

section tinygrad
variable [Zero α]

/-- `t.pad(config)`: zeros around the entries, and a crop where a number is negative. -/
def pad (t : Tensor α) (config : List (Int × Int)) : Option (Tensor α) :=
  if config.length = t.shape.length then
    some ⟨List.zipWith (fun (d : Nat) (c : Int × Int) => ((d : Int) + c.1 + c.2).toNat) t.shape config,
      fun idx => match landed t.shape (List.zipWith (fun (i : Nat) c => (i : Int) - c.1) idx config) with
        | some i => t.get i
        | none => 0⟩
  else none

def ones [One α] [Mul α] [Add α] (t : Tensor α) : Tensor α := ⟨t.shape, fun idx => t.get idx * 0 + 1⟩

def whereNonzero [DecidableEq α] (mask a b : Tensor α) : Option (Tensor α) :=
  if mask.shape = b.shape ∧ a.shape = b.shape then
    some ⟨b.shape, fun idx => if mask.get idx ≠ 0 then a.get idx else b.get idx⟩
  else none

/-- An element times 0 plus 1 is not 0, be it NaN. -/
structure Standard [One α] [Mul α] [Add α] [DecidableEq α] (P : Prims α) : Prop where
  pad : P.pad = pad
  ones : P.ones = ones
  whereNonzero : P.whereNonzero = whereNonzero
  live : ∀ x : α, x * 0 + 1 ≠ 0

end tinygrad

/-- One start for each axis; those that are not clamped lie inside already. -/
def Settled : List Nat → List Nat → List Start → Prop
  | [], [], [] => True
  | d :: dims, l :: lengths, start :: starts =>
      l ≤ d ∧ (match start with
        | .read _ => True
        | .static n => 0 ≤ n ∧ n + l ≤ d
        | .bound n => n + l ≤ d) ∧ Settled dims lengths starts
  | _, _, _ => False

def corner : List Nat → List Nat → List Start → List Nat
  | d :: dims, l :: lengths, start :: starts =>
      (match start with
        | .read raw => (clamp raw ((d : Int) - l)).toNat
        | .static n => n.toNat
        | .bound n => n) :: corner dims lengths starts
  | _, _, _ => []

/-- The index of the block's entry at an index of the tensor, if it is in the block. -/
def within : List Nat → List Nat → List Nat → Option (List Nat)
  | [], [], [] => some []
  | c :: corner, l :: lengths, i :: idx =>
      if c ≤ i ∧ i < c + l then (within corner lengths idx).map ((i - c) :: ·) else none
  | _, _, _ => none

structure Same (t t' : Tensor α) : Prop where
  shape : t.shape = t'.shape
  get : ∀ idx, Inside t.shape idx → t.get idx = t'.get idx

section offsets
variable {dims lengths idx i : List Nat} {starts : List Start}

theorem clamp_inside {d l : Nat} (raw : Int) (room : l ≤ d) :
    0 ≤ clamp raw ((d : Int) - l) ∧ clamp raw ((d : Int) - l) + l ≤ d := by
  unfold clamp
  omega

inductive Room : List Nat → List Nat → List Nat → Prop where
  | nil : Room [] [] []
  | cons {d l c : Nat} {dims lengths corner : List Nat} :
      c + l ≤ d → Room dims lengths corner → Room (d :: dims) (l :: lengths) (c :: corner)

theorem corner_room (settled : Settled dims lengths starts) :
    Room dims lengths (corner dims lengths starts) := by
  induction dims generalizing lengths starts with
  | nil =>
    cases lengths with
    | nil => exact .nil
    | cons l ls => cases starts <;> cases settled
  | cons d ds ih =>
    cases lengths with
    | nil => cases settled
    | cons l ls =>
      cases starts with
      | nil => cases settled
      | cons start rest =>
        obtain ⟨room, here, later⟩ := settled
        refine .cons ?_ (ih later)
        cases start with
        | read raw =>
          have := clamp_inside raw room
          dsimp only
          omega
        | static n =>
          dsimp only
          omega
        | bound n => exact here

theorem Room.fit {corner : List Nat} (room : Room dims lengths corner) :
    Fit dims (corner.map Int.ofNat) lengths (List.replicate lengths.length 1) := by
  induction room with
  | nil => exact .nil
  | @cons d l c _ _ _ here _ ih =>
    have fits : (c : Int) + l ≤ d := by omega
    exact .cons (Int.natCast_nonneg _) fits Nat.one_ne_zero ih

theorem sliceOffsets_from {pre pre' : List Nat} (len : pre.length = pre'.length)
    (settled : Settled dims lengths starts) :
    sliceOffsets (pre ++ dims) (pre' ++ lengths) pre.length starts =
      some ((corner dims lengths starts).map Int.ofNat) := by
  induction dims generalizing pre pre' lengths starts with
  | nil =>
    cases lengths with
    | nil => cases starts with
      | nil => rfl
      | cons start rest => cases settled
    | cons l ls => cases starts <;> cases settled
  | cons d ds ih =>
    cases lengths with
    | nil => cases settled
    | cons l ls =>
      cases starts with
      | nil => cases settled
      | cons start rest =>
        obtain ⟨room, here, later⟩ := settled
        have at_d : (pre ++ d :: ds)[pre.length]? = some d := by simp
        have at_l : (pre' ++ l :: ls)[pre.length]? = some l := by simp [len]
        have next : sliceOffsets (pre ++ d :: ds) (pre' ++ l :: ls) (pre.length + 1) rest =
            some ((corner ds ls rest).map Int.ofNat) := by
          simpa using @ih ls rest (pre ++ [d]) (pre' ++ [l]) (by simp [len]) later
        cases start with
        | read raw =>
          have inside := clamp_inside raw room
          simp only [sliceOffsets, at_d, at_l, next, Option.bind_eq_bind, Option.bind_some, corner,
            List.map_cons, Int.ofNat_eq_natCast, Int.toNat_of_nonneg inside.1]
        | static n =>
          simp only [sliceOffsets, next, Option.bind_eq_bind, Option.bind_some, corner, List.map_cons,
            Int.ofNat_eq_natCast, Int.toNat_of_nonneg here.1]
        | bound n =>
          simp only [sliceOffsets, next, Option.bind_eq_bind, Option.bind_some, corner, List.map_cons,
            Int.ofNat_eq_natCast]

def paddings (dims lengths corner : List Nat) : List (Int × Int) :=
  List.zipWith (fun (c : Nat) (p : Nat × Nat) => ((c : Int), (p.1 : Int) - p.2 - c)) corner
    (dims.zip lengths)

theorem putOffsets_from {pre pre' : List Nat} (len : pre.length = pre'.length)
    (settled : Settled dims lengths starts) :
    putOffsets (pre ++ dims) (pre' ++ lengths) pre.length starts =
      some (paddings dims lengths (corner dims lengths starts)) := by
  induction dims generalizing pre pre' lengths starts with
  | nil =>
    cases lengths with
    | nil => cases starts with
      | nil => rfl
      | cons start rest => cases settled
    | cons l ls => cases starts <;> cases settled
  | cons d ds ih =>
    cases lengths with
    | nil => cases settled
    | cons l ls =>
      cases starts with
      | nil => cases settled
      | cons start rest =>
        obtain ⟨room, here, later⟩ := settled
        have at_d : (pre ++ d :: ds)[pre.length]? = some d := by simp
        have at_l : (pre' ++ l :: ls)[pre.length]? = some l := by simp [len]
        have next : putOffsets (pre ++ d :: ds) (pre' ++ l :: ls) (pre.length + 1) rest =
            some (paddings ds ls (corner ds ls rest)) := by
          simpa using @ih ls rest (pre ++ [d]) (pre' ++ [l]) (by simp [len]) later
        cases start with
        | read raw =>
          have inside := clamp_inside raw room
          simp only [putOffsets, at_d, at_l, next, Option.bind_eq_bind, Option.bind_some, corner, paddings,
            List.zip_cons_cons, List.zipWith_cons_cons, Int.toNat_of_nonneg inside.1]
        | static n =>
          have same : clamp n ((d : Int) - l) = n := by
            unfold clamp
            omega
          simp only [putOffsets, at_d, at_l, next, Option.bind_eq_bind, Option.bind_some, corner, paddings,
            List.zip_cons_cons, List.zipWith_cons_cons, same, Int.toNat_of_nonneg here.1]
        | bound n =>
          simp only [putOffsets, at_d, at_l, next, Option.bind_eq_bind, Option.bind_some, corner, paddings,
            List.zip_cons_cons, List.zipWith_cons_cons]

end offsets

/-- The index of the tensor at an index of the block. -/
def shift (corner i : List Nat) : List Nat := List.zipWith (· + ·) corner i

section index
variable {dims lengths corner idx i : List Nat}

theorem within_shift (room : Room dims lengths corner) (inside : Inside lengths i) :
    within corner lengths (shift corner i) = some i ∧ Inside dims (shift corner i) := by
  induction room generalizing i with
  | nil =>
    cases i with
    | nil => exact ⟨rfl, trivial⟩
    | cons i is => cases inside
  | @cons d l c _ _ _ here _ ih =>
    cases i with
    | nil => cases inside
    | cons i is =>
      obtain ⟨low, inside⟩ := inside
      obtain ⟨back, place⟩ := ih inside
      refine ⟨?_, show c + i < d by omega, place⟩
      change (if c ≤ c + i ∧ c + i < c + l then (within _ _ (shift _ is)).map ((c + i - c) :: ·)
        else none) = _
      rw [if_pos (by omega), back, Nat.add_sub_cancel_left]
      rfl

theorem shift_within (room : Room dims lengths corner) (there : within corner lengths idx = some i) :
    Inside lengths i ∧ shift corner i = idx := by
  induction room generalizing idx i with
  | nil =>
    cases idx with
    | nil =>
      cases there
      exact ⟨trivial, rfl⟩
    | cons j js => cases there
  | @cons d l c _ _ _ here _ ih =>
    cases idx with
    | nil => cases there
    | cons j js =>
      rw [within] at there
      split at there
      · rename_i range
        obtain ⟨is, rest, rfl⟩ := Option.map_eq_some_iff.mp there
        obtain ⟨inside, back⟩ := ih rest
        refine ⟨⟨by omega, inside⟩, ?_⟩
        change (c + (j - c)) :: shift _ is = _
        rw [back, Nat.add_sub_of_le range.1]
      · cases there

theorem landed_within (room : Room dims lengths corner) (len : idx.length = dims.length) :
    landed lengths (List.zipWith (fun (i : Nat) (c : Int × Int) => (i : Int) - c.1) idx
      (paddings dims lengths corner)) = within corner lengths idx := by
  induction room generalizing idx with
  | nil =>
    obtain rfl := List.length_eq_zero_iff.mp len
    rfl
  | @cons d l c _ _ _ here _ ih =>
    obtain ⟨j, js, rfl⟩ := List.exists_cons_of_length_eq_add_one len
    have later := @ih js (by simpa using len)
    simp only [paddings] at later
    simp only [paddings, List.zip_cons_cons, List.zipWith_cons_cons, landed, within, later]
    have start : ((j : Int) - c).toNat = j - c := by omega
    have range : (0 ≤ (j : Int) - c ∧ (j : Int) - c < l) = (c ≤ j ∧ j < c + l) := propext (by omega)
    simp only [start, range]

theorem paddings_shape (room : Room dims lengths corner) :
    List.zipWith (fun (d : Nat) (c : Int × Int) => ((d : Int) + c.1 + c.2).toNat) lengths
      (paddings dims lengths corner) = dims ∧ (paddings dims lengths corner).length = lengths.length := by
  induction room with
  | nil => exact ⟨rfl, rfl⟩
  | @cons d l c _ _ _ here _ ih =>
    obtain ⟨shape, count⟩ := ih
    simp only [paddings] at shape count
    simp only [paddings, List.zip_cons_cons, List.zipWith_cons_cons, List.length_cons, shape, count,
      and_true]
    congr 1
    omega

end index

section operations
variable {t sl : Tensor α} {lengths : List Nat} {starts : List Start}

theorem unit_counts {dims corner : List Nat} (room : Room dims lengths corner) :
    (windowAxes (corner.map Int.ofNat) lengths (List.replicate lengths.length 1)).map (·.count) =
      lengths := by
  induction room with
  | nil => rfl
  | cons _ _ ih =>
    simp only [List.map_cons, List.length_cons, List.replicate_succ, windowAxes, ih, Nat.add_sub_cancel,
      Nat.div_one]

theorem unit_at {dims corner : List Nat} (room : Room dims lengths corner) (idx : List Nat) :
    List.zipWith Axis.at (windowAxes (corner.map Int.ofNat) lengths (List.replicate lengths.length 1))
      idx = shift corner idx := by
  induction room generalizing idx with
  | nil => rfl
  | cons _ _ ih =>
    cases idx with
    | nil => rfl
    | cons i is =>
      simp only [List.map_cons, List.length_cons, List.replicate_succ, windowAxes, List.zipWith_cons_cons,
        ih, shift, Axis.at, Int.ofNat_eq_natCast, Int.toNat_natCast, Nat.one_mul]

theorem slice_block (settled : Settled t.shape lengths starts) :
    ∃ part, sliceOp t starts lengths (List.replicate lengths.length 1) = some part ∧
      part.shape = lengths ∧ ∀ i, part.get i = t.get (shift (corner t.shape lengths starts) i) := by
  have room := corner_room settled
  have offsets : sliceOffsets t.shape lengths 0 starts =
      some ((corner t.shape lengths starts).map Int.ofNat) := @sliceOffsets_from _ _ _ [] [] rfl settled
  have units : (List.replicate lengths.length 1).any (· != 1) = false := by simp
  have axes : (t.view (windowAxes ((corner t.shape lengths starts).map Int.ofNat) lengths
      (List.replicate lengths.length 1))).shape = lengths := unit_counts room
  refine ⟨_, ?_, axes, fun i => congrArg t.get (unit_at room i)⟩
  simp only [sliceOp, offsets, Option.bind_eq_bind, Option.bind_some]
  split
  · simp only [Tensor.shrink, shrinkAxes_fit room.fit, Option.map_some, Option.bind_some, units,
      Bool.false_eq_true, if_false, unit_strides room.fit units]
  · simp only [Tensor.getitem, sliceAxes_fit room.fit, Option.map_some]

variable [Zero α] [One α] [Mul α] [Add α] [DecidableEq α] {P : Prims α}

theorem putSlice_block (standard : Standard P) (settled : Settled t.shape sl.shape starts) :
    ∃ r, putSliceOp P t sl starts = some r ∧ r.shape = t.shape ∧ ∀ idx, Inside t.shape idx →
      r.get idx = match within (corner t.shape sl.shape starts) sl.shape idx with
        | some i => sl.get i
        | none => t.get idx := by
  have room := corner_room settled
  have offsets : putOffsets t.shape sl.shape 0 starts =
      some (paddings t.shape sl.shape (corner t.shape sl.shape starts)) :=
    @putOffsets_from _ _ _ [] [] rfl settled
  obtain ⟨shape, count⟩ := paddings_shape room
  have padded (u : Tensor α) (same : u.shape = sl.shape) :
      ∃ v, pad u (paddings t.shape sl.shape (corner t.shape sl.shape starts)) = some v ∧
        v.shape = t.shape ∧ ∀ idx, Inside t.shape idx →
          v.get idx = match within (corner t.shape sl.shape starts) sl.shape idx with
            | some i => u.get i
            | none => 0 := by
    refine ⟨_, if_pos (by rw [count, same]), ?_, fun idx inside => ?_⟩
    · rw [same]
      exact shape
    · rw [← landed_within room inside.length, same]
  obtain ⟨u, pads, dims, entries⟩ := padded sl rfl
  obtain ⟨mask, masks, dims', entries'⟩ := padded (ones sl) rfl
  refine ⟨⟨t.shape, fun idx => if mask.get idx ≠ 0 then u.get idx else t.get idx⟩, ?_, rfl,
    fun idx inside => ?_⟩
  · simp only [putSliceOp, offsets, standard.pad, standard.ones, standard.whereNonzero, pads, masks,
      Option.bind_eq_bind, Option.bind_some, whereNonzero]
    rw [if_pos ⟨dims', dims⟩]
  · dsimp only
    rw [entries idx inside, entries' idx inside]
    cases within (corner t.shape sl.shape starts) sl.shape idx with
    | none => simp
    | some i => simp [ones, standard.live]

/-- `slice` and `put_slice` at the same starts, whatever these are at run time, agree on one block of the
    tensor: what is put there is what is read from it, the last of two wins, what is read can be put back
    without a change, and what lies outside stays. -/
theorem block_laws (standard : Standard P) (settled : Settled t.shape sl.shape starts) :
    (∃ r, putSliceOp P t sl starts = some r ∧ r.shape = t.shape ∧
      (∃ part, sliceOp r starts sl.shape (List.replicate sl.shape.length 1) = some part ∧ Same part sl) ∧
      (∀ sl', sl'.shape = sl.shape → ∃ both once, putSliceOp P r sl' starts = some both ∧
        putSliceOp P t sl' starts = some once ∧ Same both once) ∧
      ∀ idx, Inside t.shape idx → within (corner t.shape sl.shape starts) sl.shape idx = none →
        r.get idx = t.get idx) ∧
    ∃ part r, sliceOp t starts sl.shape (List.replicate sl.shape.length 1) = some part ∧
      putSliceOp P t part starts = some r ∧ Same r t := by
  have room := corner_room settled
  constructor
  · obtain ⟨r, put, dims, entries⟩ := putSlice_block standard settled
    have settled' : Settled r.shape sl.shape starts := dims.symm ▸ settled
    refine ⟨r, put, dims, ?_, fun sl' same => ?_, fun idx inside outside => ?_⟩
    · obtain ⟨part, sliced, shape, gets⟩ := slice_block settled'
      refine ⟨part, sliced, ⟨shape, fun i inside => ?_⟩⟩
      obtain ⟨back, place⟩ := within_shift room (shape ▸ inside)
      rw [gets i, dims, entries _ place, back]
    · obtain ⟨both, put', dims', entries'⟩ := putSlice_block standard (same.symm ▸ settled')
      obtain ⟨once, put'', dims'', entries''⟩ := putSlice_block standard (same.symm ▸ settled)
      refine ⟨both, once, put', put'', ⟨by rw [dims', dims'', dims], fun idx inside => ?_⟩⟩
      rw [dims', dims] at inside
      rw [entries' idx (dims.symm ▸ inside), entries'' idx inside, dims]
      cases there : within (corner t.shape sl'.shape starts) sl'.shape idx with
      | some i => rfl
      | none =>
        rw [same] at there
        simp only [entries idx inside, there]
    · rw [entries idx inside, outside]
  · obtain ⟨part, sliced, shape, gets⟩ := slice_block settled
    obtain ⟨r, put, dims, entries⟩ := putSlice_block standard (shape.symm ▸ settled)
    refine ⟨part, r, sliced, put, ⟨dims, fun idx inside => ?_⟩⟩
    rw [entries idx (dims ▸ inside), shape]
    cases there : within (corner t.shape sl.shape starts) sl.shape idx with
    | none => rfl
    | some i =>
      dsimp only
      rw [gets i, (shift_within room there).2]

end operations

def integers : Prims Int where
  number _ _ _ := none
  literal _ _ _ := none
  prim _ _ _ _ _ := none
  cast t _ := some t
  pad := pad
  ones := ones
  whereNonzero := whereNonzero
  item t := if t.shape = [] then some (t.get []) else none
  truthy _ := none
  foldAcc _ _ _ := none
  foldParts _ _ := none
  foldFinish _ _ _ := none

theorem last_entry_returns :
    ∃ r, putSliceOp integers ⟨[3], fun _ => 7⟩ ⟨[1], fun _ => 9⟩ [.read 5] = some r ∧
      ∃ part, sliceOp r [.read 5] [1] [1] = some part ∧ Same part ⟨[1], fun _ => 9⟩ := by
  have standard : Standard integers := ⟨rfl, rfl, rfl, fun x => by simp⟩
  have settled : Settled [3] [1] [.read 5] := ⟨by decide, trivial, trivial⟩
  obtain ⟨⟨r, put, -, back, -⟩, -⟩ := @block_laws Int ⟨[3], fun _ => 7⟩ ⟨[1], fun _ => 9⟩ [.read 5]
    _ _ _ _ _ integers standard settled
  exact ⟨r, put, back⟩

end NxTinygrad.Blocks
