import NxTinygrad.Graph
import NxTinygrad.Lib.Ieee

/- Upload and download: the bytes of a tensor on their way into a buffer and out of it. tinygrad keeps the
   items of a buffer as they are; a complex array is kept as its components. -/
namespace NxTinygrad.Transfer
open IR Ieee

abbrev Bytes := BigEndian.Bytes

structure Ndarray where
  dtype : Dtype
  shape : List Nat
  items : List Bytes

def runs {α : Type} (n : Nat) : Nat → List α → List (List α)
  | 0, _ => []
  | count + 1, xs => xs.take n :: runs n count (xs.drop n)

def frombuffer (blob : Bytes) (dtype : Dtype) : Option Ndarray :=
  if blob.length % dtype.itemsize = 0 then
    let count := blob.length / dtype.itemsize
    some ⟨dtype, [count], runs dtype.itemsize count blob⟩
  else none

def Ndarray.reshape (arr : Ndarray) (shape : List Nat) : Option Ndarray :=
  if shape.prod = arr.items.length then some { arr with shape := shape } else none

def Ndarray.tobytes (arr : Ndarray) : Bytes := arr.items.flatten

def Ndarray.nbytes (arr : Ndarray) : Nat := arr.shape.prod * arr.dtype.itemsize

/-- `arr.real` and `arr.imag`, which are of the component dtype. -/
def Ndarray.real (arr : Ndarray) (comp : Dtype) : Ndarray :=
  ⟨comp, arr.shape, arr.items.map fun item => item.take comp.itemsize⟩

def Ndarray.imag (arr : Ndarray) (comp : Dtype) : Ndarray :=
  ⟨comp, arr.shape, arr.items.map fun item => item.drop comp.itemsize⟩

def stack (a b : Ndarray) : Ndarray :=
  ⟨a.dtype, a.shape ++ [2], (List.zipWith (fun x y => [x, y]) a.items b.items).flatten⟩

def Ndarray.last (arr : Ndarray) (k : Nat) : Option Ndarray := do
  let n ← arr.shape.getLast?
  let items ← (runs n (arr.items.length / n) arr.items).mapM fun row => row[k]?
  some ⟨arr.dtype, arr.shape.dropLast, items⟩

structure Tensor where
  dtype : Dtype
  shape : List Nat
  items : List Bytes

def Tensor.ofNumpy (arr : Ndarray) : Tensor := ⟨arr.dtype, arr.shape, arr.items⟩

def Tensor.numpy (t : Tensor) : Ndarray := ⟨t.dtype, t.shape, t.items⟩

def Tensor.bitcast (t : Tensor) (dtype : Dtype) : Tensor := { t with dtype := dtype }

def numpyDtype : Dtype → Dtype
  | .bf16 => .u16
  | d => d

/-- `_COMPLEX_COMPONENT`, and how numbers of the component are written. -/
def componentDtype : Dtype → Option (Dtype × Format)
  | .c64 => some (.f32, single)
  | .c128 => some (.f64, double)
  | _ => none

def wireTensor (arr : Ndarray) (name : Dtype) : Tensor :=
  match componentDtype name with
  | some (comp, _) => .ofNumpy (stack (arr.real comp) (arr.imag comp))
  | none =>
      let t := Tensor.ofNumpy arr
      if name = .bf16 then t.bitcast .bf16 else t

/-- One item of `arr[..., 0].astype(numpy_dtype(name)) + 1j * arr[..., 1]`. -/
def foldBack {F : Format} (P : Propagation F) (re im : Number F) : ComplexNumber F :=
  .add P ⟨re, zero F false⟩ (.mul P ⟨zero F false, one F⟩ ⟨im, zero F false⟩)

def foldBytes {F : Format} (P : Propagation F) (re im : Bytes) : Bytes :=
  let item := foldBack P (ofBytes F re) (ofBytes F im)
  item.re.toBytes ++ item.im.toBytes

def wireNumpy (P : (F : Format) → Propagation F) (tensor : Tensor) (name : Dtype) : Option Ndarray :=
  if name = .bf16 then some (tensor.bitcast .u16).numpy
  else
    match componentDtype name with
    | some (_, F) => do
        let arr := tensor.numpy
        let re ← arr.last 0
        let im ← arr.last 1
        some ⟨numpyDtype name, re.shape, List.zipWith (foldBytes (P F)) re.items im.items⟩
    | none => some tensor.numpy

structure Buffer where
  tensor : Tensor
  shape : List Nat
  dtype : Dtype
  nbytes : Nat

structure TensorRegistry where
  buffers : List (Nat × Buffer)
  nextId : Nat

def TensorRegistry.put (r : TensorRegistry) (b : Buffer) : TensorRegistry × Nat :=
  (⟨(r.nextId, b) :: r.buffers, r.nextId + 1⟩, r.nextId)

def TensorRegistry.get (r : TensorRegistry) (id : Nat) : Option Buffer := r.buffers.lookup id

def cmdUpload (r : TensorRegistry) (shape : List Nat) (dtype : Dtype) (blobs : List Bytes) :
    Option (TensorRegistry × Nat) := do
  let blob ← blobs.head?
  let flat ← frombuffer blob (numpyDtype dtype)
  let arr ← flat.reshape shape
  some (r.put ⟨wireTensor arr dtype, shape, dtype, arr.nbytes⟩)

def cmdDownload (P : (F : Format) → Propagation F) (r : TensorRegistry) (id : Nat) : Option Bytes := do
  let buf ← r.get id
  let arr ← wireNumpy P buf.tensor buf.dtype
  some arr.tobytes

def uploadDownload (P : (F : Format) → Propagation F) (r : TensorRegistry) (dtype : Dtype)
    (shape : List Nat)
    (blob : Bytes) : Option Bytes := do
  let (r, id) ← cmdUpload r shape dtype [blob]
  cmdDownload P r id

/-- The components of an item that come back as they were. A negative zero in the imaginary part is lost, and
    the product with it adds a zero of its sign to the real part, or a NaN when it is not finite. -/
structure Kept {F : Format} (P : Propagation F) (re im : Number F) : Prop where
  imZero : im.isZero = true → im.sign = false
  imQuiet : im.isNan = true → im.isQuiet = true
  reQuiet : im.isFinite = true → re.isNan = true → re.isQuiet = true
  reZero : im.isFinite = true → re.isZero = true → re.sign = true → im.sign = true
  beyond : im.isInfinite = true → re.isNan = true ∧ P.both re P.invalid = re
  nan : im.isNan = true → re.isNan = true ∧ P.both re im = re

section item
variable {F : Format} {P : Propagation F} {re im : Number F}

theorem nan_apart {x y : Number F} (nan : x.isNan = true) (number : y.isNan = false) : x ≠ y := by
  rintro rfl
  rw [nan] at number
  cases number

theorem zero_kept {x : Number F} {sign : Bool} (none : x.isZero = true) : zero F sign = x ↔
    sign = x.sign := by
  constructor
  · rintro rfl
    rfl
  · rintro rfl
    exact (eq_zero none).symm

theorem kept_nan (a : im.isNan = true) (b : im.isInfinite = false) (c : im.isFinite = false)
    (d : im.isZero = false) :
    foldBack P re im = ⟨re, im⟩ ↔ Kept P re im := by
  have loud := quiet_nan (quieted_quiet a)
  have fold : foldBack P re im = ⟨add P re (quieted im), quieted im⟩ := by
    simp [foldBack, unit_mul, a, ComplexNumber.add, add_zero_left, loud, quieted_idem a]
  rw [fold, ComplexNumber.mk.injEq, quieted_eq_iff]
  constructor
  · rintro ⟨real, quiet⟩
    rw [quieted_eq_iff.mpr quiet] at real
    have nan : re.isNan = true := by
      by_contra number
      have number' := Bool.eq_false_iff.mpr number
      rw [add, a, Bool.or_true, if_pos rfl, Propagation.nan, number', if_neg Bool.false_ne_true,
        quieted_eq_iff.mpr quiet] at real
      exact nan_apart a number' real
    have both : P.both re im = re := by
      simpa [add, Propagation.nan, a, nan] using real
    exact ⟨by simp [d], fun _ => quiet, by simp [c], by simp [c], by simp [b], fun _ => ⟨nan, both⟩⟩
  · intro kept
    obtain ⟨nan, both⟩ := kept.nan a
    have quiet := kept.imQuiet a
    rw [quieted_eq_iff.mpr quiet]
    exact ⟨by simp [add, Propagation.nan, a, nan, both], quiet⟩

theorem kept_infinite (a : im.isNan = false) (b : im.isInfinite = true) (c : im.isFinite = false)
    (d : im.isZero = false) : foldBack P re im = ⟨re, im⟩ ↔ Kept P re im := by
  have loud := quiet_nan P.invalid_quiet
  have fold : foldBack P re im = ⟨add P re P.invalid, im⟩ := by
    simp [foldBack, unit_mul, a, b, d, ComplexNumber.add, add_zero_left]
  rw [fold, ComplexNumber.mk.injEq, and_iff_left rfl]
  constructor
  · intro real
    have nan : re.isNan = true := by
      by_contra number
      have number' := Bool.eq_false_iff.mpr number
      rw [add, loud, Bool.or_true, if_pos rfl, Propagation.nan, number', if_neg Bool.false_ne_true,
        quieted_eq_iff.mpr P.invalid_quiet] at real
      exact nan_apart loud number' real
    have both : P.both re P.invalid = re := by
      simpa [add, Propagation.nan, loud, nan] using real
    exact ⟨by simp [d], by simp [a], by simp [c], by simp [c], fun _ => ⟨nan, both⟩, by simp [a]⟩
  · intro kept
    obtain ⟨nan, both⟩ := kept.beyond b
    simp [add, Propagation.nan, loud, nan, both]

theorem kept_finite (a : im.isNan = false) (b : im.isInfinite = false) (c : im.isFinite = true) :
    foldBack P re im = ⟨re, im⟩ ↔ Kept P re im := by
  obtain ⟨nan, _, _, none⟩ := zero_kinds F false
  have imag : (foldBack P re im).im = if im.isZero then zero F false else im := by
    by_cases d : im.isZero = true <;>
      simp [foldBack, unit_mul, a, b, d, ComplexNumber.add, add_zero_left, nan, none]
  have real : (foldBack P re im).re =
      if re.isNan then quieted re else if re.isZero then zero F (re.sign && im.sign) else re := by
    simp [foldBack, unit_mul, a, b, ComplexNumber.add, add_zero_right]
  have parts : foldBack P re im = ⟨re, im⟩ ↔
      (foldBack P re im).re = re ∧ (foldBack P re im).im = im := by
    rw [← ComplexNumber.mk.injEq]
  rw [parts, imag, real]
  constructor
  · rintro ⟨sameRe, sameIm⟩
    refine ⟨?_, by simp [a], fun _ loud => ?_, fun _ zeroRe negative => ?_, by simp [b], by simp [a]⟩
    · intro d
      rw [if_pos d] at sameIm
      exact ((zero_kept d).mp sameIm).symm
    · rw [if_pos loud] at sameRe
      exact quieted_eq_iff.mp sameRe
    · rw [zero_number zeroRe, if_neg Bool.false_ne_true, if_pos zeroRe] at sameRe
      have sign := (zero_kept zeroRe).mp sameRe
      rw [negative, Bool.true_and] at sign
      exact sign
  · intro kept
    constructor
    · split
      · rename_i loud
        exact quieted_eq_iff.mpr (kept.reQuiet c loud)
      · split
        · rename_i zeroRe
          refine (zero_kept zeroRe).mpr ?_
          cases negative : re.sign with
          | false => rfl
          | true => rw [kept.reZero c zeroRe negative, Bool.true_and]
        · rfl
    · split
      · rename_i d
        exact (zero_kept d).mpr (kept.imZero d).symm
      · rfl

theorem foldBack_iff : foldBack P re im = ⟨re, im⟩ ↔ Kept P re im := by
  rcases kinds im with ⟨a, b, c, d⟩ | ⟨a, b, c, d⟩ | ⟨a, b, c⟩
  · exact kept_nan a b c d
  · exact kept_infinite a b c d
  · exact kept_finite a b c

theorem foldBytes_iff {P : Propagation F} {item : Bytes} (right : item.length = 2 * F.bytes) :
    foldBytes P (item.take F.bytes) (item.drop F.bytes) = item ↔
      Kept P (ofBytes F (item.take F.bytes)) (ofBytes F (item.drop F.bytes)) := by
  have front : (item.take F.bytes).length = F.bytes := by
    rw [List.length_take]
    omega
  have back : (item.drop F.bytes).length = F.bytes := by
    rw [List.length_drop]
    omega
  rw [← foldBack_iff, foldBytes]
  generalize foldBack P (ofBytes F (item.take F.bytes)) (ofBytes F (item.drop F.bytes)) = c
  constructor
  · intro same
    rw [← List.take_append_drop F.bytes item] at same
    obtain ⟨re, im⟩ := List.append_inj same (by rw [toBytes_length, front])
    rw [← re, ← im, ofBytes_toBytes, ofBytes_toBytes]
  · rintro rfl
    rw [toBytes_ofBytes front, toBytes_ofBytes back, List.take_append_drop]

end item

theorem runs_flatten {α : Type} {n count : Nat} {xs : List α} (right : xs.length = count * n) :
    (runs n count xs).flatten = xs := by
  induction count generalizing xs with
  | zero =>
    rw [Nat.zero_mul] at right
    rw [List.length_eq_zero_iff.mp right]
    rfl
  | succ count ih =>
    rw [Nat.succ_mul] at right
    rw [runs, List.flatten_cons, ih (by rw [List.length_drop]; omega), List.take_append_drop]

theorem runs_length {α : Type} (n count : Nat) (xs : List α) : (runs n count xs).length = count := by
  induction count generalizing xs with
  | zero => rfl
  | succ count ih => rw [runs, List.length_cons, ih]

theorem mem_runs {α : Type} {n count : Nat} {xs run : List α} (right : xs.length = count * n)
    (mem : run ∈ runs n count xs) : run.length = n := by
  induction count generalizing xs with
  | zero => simp [runs] at mem
  | succ count ih =>
    rw [Nat.succ_mul] at right
    rcases List.mem_cons.mp mem with rfl | later
    · rw [List.length_take]
      omega
    · exact ih (by rw [List.length_drop]; omega) later

theorem flatten_map_iff {α : Type} {f : List α → List α} {xss : List (List α)}
    (length : ∀ xs ∈ xss, (f xs).length = xs.length) :
    (xss.map f).flatten = xss.flatten ↔ ∀ xs ∈ xss, f xs = xs := by
  induction xss with
  | nil => simp
  | cons xs xss ih =>
    rw [List.map_cons, List.flatten_cons, List.flatten_cons, List.forall_mem_cons, ← ih fun ys mem =>
      length ys (List.mem_cons_of_mem _ mem)]
    constructor
    · intro same
      exact List.append_inj same (length xs List.mem_cons_self)
    · rintro ⟨first, rest⟩
      rw [first, rest]

theorem frombuffer_ok {blob : Bytes} {dtype : Dtype} {count : Nat} (some : 0 < dtype.itemsize)
    (right : blob.length = count * dtype.itemsize) :
    frombuffer blob dtype = .some ⟨dtype, [count], runs dtype.itemsize count blob⟩ := by
  have whole : blob.length % dtype.itemsize = 0 := by rw [right, Nat.mul_mod_left]
  have quotient : blob.length / dtype.itemsize = count := by rw [right, Nat.mul_div_cancel _ some]
  rw [frombuffer, if_pos whole, quotient]

theorem zipWith_pairs (f g : Bytes → Bytes) (items : List Bytes) :
    (List.zipWith (fun x y => [x, y]) (items.map f) (items.map g)).flatten = items.flatMap fun x =>
    [f x, g x] := by
  rw [List.zipWith_map, List.zipWith_self]
  rfl

theorem runs_pairs (f g : Bytes → Bytes) (items : List Bytes) :
    runs 2 items.length (items.flatMap fun x => [f x, g x]) = items.map fun x => [f x, g x] := by
  induction items with
  | nil => rfl
  | cons x items ih => simpa [runs] using ih

theorem mapM_pairs {f g h : Bytes → Bytes} {k : Nat} (picks : ∀ x, [f x, g x][k]? = some (h x))
    (items : List Bytes) :
      (items.map fun x => [f x, g x]).mapM (fun row => row[k]?) = some (items.map h) := by
  induction items with
  | nil => rfl
  | cons x items ih => rw [List.map_cons, List.mapM_cons, picks, ih]; rfl

theorem last_stack {a b : Ndarray} {items : List Bytes} {f g h : Bytes → Bytes} {k : Nat}
    (here : a.items = items.map f) (there : b.items = items.map g)
    (picks : ∀ x, [f x, g x][k]? = some (h x)) :
    (stack a b).last k = some ⟨a.dtype, a.shape, items.map h⟩ := by
  have stacked : (stack a b).items = items.flatMap fun x => [f x, g x] := by
    rw [stack, here, there, zipWith_pairs]
  have pairs : (items.flatMap fun x => [f x, g x]).length / 2 = items.length := by
    simp [List.length_flatMap]
  have shape : (stack a b).shape = a.shape ++ [2] := rfl
  rw [Ndarray.last, shape, List.getLast?_concat, List.dropLast_concat, stacked]
  simp only [Option.bind_eq_bind, Option.bind_some, pairs, runs_pairs, mapM_pairs picks]
  rfl

theorem component_sizes {dtype comp : Dtype} {F : Format}
    (complex : componentDtype dtype = some (comp, F)) :
    comp.itemsize = F.bytes ∧ dtype.itemsize = 2 * F.bytes ∧ numpyDtype dtype = dtype ∧
    dtype ≠ .bf16 := by
  cases dtype <;> simp only [componentDtype, Option.some.injEq, Prod.mk.injEq, reduceCtorEq] at complex
  all_goals
    obtain ⟨rfl, rfl⟩ := complex
    exact ⟨rfl, rfl, rfl, nofun⟩

theorem numpy_itemsize (dtype : Dtype) : (numpyDtype dtype).itemsize = dtype.itemsize := by
  cases dtype <;> rfl

theorem itemsize_pos (dtype : Dtype) : 0 < dtype.itemsize := by
  cases dtype <;> decide

section trip
variable {P : (F : Format) → Propagation F} {r : TensorRegistry} {dtype : Dtype} {shape : List Nat}
  {blob : Bytes}
  (right : blob.length = shape.prod * dtype.itemsize)
include right

theorem uploaded : uploadDownload P r dtype shape blob =
    (wireNumpy P (wireTensor ⟨numpyDtype dtype, shape, runs dtype.itemsize shape.prod blob⟩ dtype)
    dtype).map
      Ndarray.tobytes := by
  have size := numpy_itemsize dtype
  have flat : frombuffer blob (numpyDtype dtype) =
      some ⟨numpyDtype dtype, [shape.prod], runs dtype.itemsize shape.prod blob⟩ := by
    have sized : 0 < (numpyDtype dtype).itemsize := size ▸ itemsize_pos dtype
    have whole := frombuffer_ok sized (size ▸ right)
    rwa [size] at whole
  have shaped : (Ndarray.mk (numpyDtype dtype) [shape.prod]
      (runs dtype.itemsize shape.prod blob)).reshape shape =
      some ⟨numpyDtype dtype, shape, runs dtype.itemsize shape.prod blob⟩ :=
    if_pos (runs_length _ _ _).symm
  simp only [uploadDownload, cmdUpload, List.head?_cons, flat, shaped, Option.bind_eq_bind,
    Option.bind_some, TensorRegistry.put, cmdDownload, TensorRegistry.get, List.lookup_cons_self]
  cases wireNumpy P _ dtype <;> rfl

theorem real_trip (real : componentDtype dtype = none) :
    uploadDownload P r dtype shape blob = some blob := by
  rw [uploaded right]
  by_cases half : dtype = .bf16
  · subst half
    simp only [wireNumpy, wireTensor, real, if_true, Option.map_some]
    exact congrArg some (runs_flatten right)
  · simp only [wireNumpy, wireTensor, real, half, if_false, Option.map_some]
    exact congrArg some (runs_flatten right)

theorem complex_trip {comp : Dtype} {F : Format} (complex : componentDtype dtype = some (comp, F)) :
    uploadDownload P r dtype shape blob = some ((runs dtype.itemsize shape.prod blob).map fun item =>
      foldBytes (P F) (item.take F.bytes) (item.drop F.bytes)).flatten := by
  obtain ⟨part, _, same, other⟩ := component_sizes complex
  rw [uploaded right]
  generalize runs dtype.itemsize shape.prod blob = items
  have re := last_stack (a := Ndarray.real ⟨numpyDtype dtype, shape, items⟩ comp)
    (b := Ndarray.imag ⟨numpyDtype dtype, shape, items⟩ comp) (k := 0) rfl rfl fun _ => rfl
  have im := last_stack (a := Ndarray.real ⟨numpyDtype dtype, shape, items⟩ comp)
    (b := Ndarray.imag ⟨numpyDtype dtype, shape, items⟩ comp) (k := 1) rfl rfl fun _ => rfl
  simp only [wireNumpy, wireTensor, complex, other, if_false, Tensor.ofNumpy, Tensor.numpy, re, im,
    Option.bind_eq_bind, Option.bind_some, Option.map_some, Ndarray.tobytes, List.zipWith_map,
    List.zipWith_self, part]

/-- Upload and download give back a blob if and only if it is of a real type, or the components of every item
    of it are kept. -/
theorem uploadDownload_iff : uploadDownload P r dtype shape blob = some blob ↔
    ∀ comp F, componentDtype dtype = some (comp, F) → ∀ item ∈ runs dtype.itemsize shape.prod blob,
      Kept (P F) (ofBytes F (item.take F.bytes)) (ofBytes F (item.drop F.bytes)) := by
  cases kind : componentDtype dtype with
  | none => exact iff_of_true (real_trip right kind) nofun
  | some pair =>
    obtain ⟨comp, F⟩ := pair
    obtain ⟨_, size, _, _⟩ := component_sizes kind
    have length : ∀ item ∈ runs dtype.itemsize shape.prod blob, item.length = 2 * F.bytes :=
      fun item mem => (mem_runs right mem).trans size
    have whole : ∀ item ∈ runs dtype.itemsize shape.prod blob,
        (foldBytes (P F) (item.take F.bytes) (item.drop F.bytes)).length = item.length := by
      intro item mem
      rw [foldBytes, List.length_append, toBytes_length, toBytes_length, length item mem]
      omega
    rw [complex_trip right kind, Option.some.injEq]
    nth_rewrite 2 [← runs_flatten right]
    rw [flatten_map_iff whole]
    constructor
    · rintro same comp' F' ⟨⟩ item mem
      exact (foldBytes_iff (length item mem)).mp (same item mem)
    · intro kept item mem
      exact (foldBytes_iff (length item mem)).mpr (kept comp F rfl item mem)

end trip

/-- The first NaN operand is passed on, and the NaN of an invalid operation is negative. -/
def firstNan (F : Format) : Propagation F where
  invalid := ⟨true, ⟨F.infinity + 2 ^ (F.fraction - 1), quieted_lt (infinite F true)
    (by simp [infinite])⟩⟩
  both x _ := quieted x
  invalid_quiet := by simp [Number.isQuiet]

def oneMinusTwo : Bytes := [0, 0, 128, 63, 0, 0, 0, 192]

theorem oneMinusTwo_returns :
    uploadDownload firstNan ⟨[], 1⟩ .c64 [] oneMinusTwo = some oneMinusTwo := by
  refine (uploadDownload_iff rfl).mpr ?_
  rintro comp F ⟨⟩ item mem
  obtain rfl : item = oneMinusTwo := List.mem_singleton.mp mem
  exact ⟨by decide, by decide, by decide, by decide, by decide, by decide⟩

def imaginaryInfinity : Bytes := [0, 0, 128, 63, 0, 0, 128, 127]

/-- Whatever NaNs the processor makes, the real part comes back as one. -/
theorem infinity_overwrites : ¬ ∃ P : (F : Format) → Propagation F,
    ∀ (r : TensorRegistry) (dtype : Dtype) (shape : List Nat) (blob : Bytes),
      blob.length = shape.prod * dtype.itemsize → uploadDownload P r dtype shape blob = some blob := by
  rintro ⟨P, claim⟩
  have whole := claim ⟨[], 1⟩ .c64 [] imaginaryInfinity rfl
  have folded : uploadDownload P ⟨[], 1⟩ .c64 [] imaginaryInfinity = some ((foldBytes (P single)
      (imaginaryInfinity.take 4) (imaginaryInfinity.drop 4)) ++ []) := complex_trip rfl rfl
  rw [folded, Option.some.injEq, List.append_nil] at whole
  have kept := (foldBytes_iff (F := single) rfl).mp whole
  have real := (kept.beyond (by decide)).1
  revert real
  decide

end NxTinygrad.Transfer
