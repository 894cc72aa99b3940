import NxTinygrad.Expr
import NxTinygrad.IntegerDivision
import NxTinygrad.Lib.Views

/- `pad` of the eager backend, which crops with a slice after the worker's pad. How a dtype converts
   values is a parameter. -/
namespace NxTinygrad.Padding
open IR Lowering NDArray Nearest
open IntegerDivision (Holds float32 trunc float32_integer)

inductive Float64 where
  | number (q : ℚ)
  | infinity
  | negInfinity
  | nan
  deriving DecidableEq

/-- `cast` converts a value to a dtype, `element` is the value of a double. -/
structure Values (α : Type) where
  cast : Dtype → α → α
  element : Float64 → α
  cast_cast : ∀ d x, cast d (cast d x) = cast d x

inductive Raised where
  | unsupportedOperation (message : String)
  | protocolError
  | typeError
  deriving DecidableEq, Repr

/-- `float(_num(v))`: an integer is rounded to 53 bits. -/
def float : Json → Except Raised Float64
  | .int n => .ok (.number (Nearest.round 53 n))
  | .float m e => .ok (.number (m * 2 ^ e))
  | .str "Infinity" => .ok .infinity
  | .str "-Infinity" => .ok .negInfinity
  | .str "NaN" => .ok .nan
  | _ => .error .typeError

variable {α : Type} (A : Values α)

def orRaise {β : Type} (e : Raised) : Option β → Except Raised β
  | some b => .ok b
  | none => .error e

/-- The window of `t.pad(padding, value=...)`, of values that need no conversion. -/
def padWith (t : NDArray α) (padding : List (Int × Int)) (value : α) : Option (NDArray α) :=
  look t (List.zipWith (fun d (p : Int × Int) => .pad d p.1 p.2) t.shape padding) (some value)

def isFloat : Dtype → Bool
  | .f16 | .f32 | .f64 | .bf16 => true
  | _ => false

/-- The dtype `t.pad` computes in: with a Python float that is not 0 an integer tensor becomes float32. -/
def padType (d : Dtype) (v : Float64) : Dtype := if v = .number 0 || isFloat d then d else .f32

def padValue (d : Dtype) (t : NDArray α) (padding : List (Int × Int)) (v : Float64) :
    Option (NDArray α) :=
  padWith (t.map (A.cast (padType d v))) padding (A.cast (padType d v) (A.element v))

def pad (d : Dtype) (t : NDArray α) (config : List (Int × Int × Int)) (value : Json) :
    Except Raised (NDArray α) :=
  if config.any fun c =>
    c.2.2 ≠ 0 then .error (.unsupportedOperation "interior padding is not supported")
  else if config.any fun c => c.1 < 0 || c.2.1 < 0 then
    .error (.unsupportedOperation "negative (cropping) padding is not supported")
  else do
    let x ← float value
    orRaise .typeError (padValue A d t (config.map fun c => (c.1, c.2.1)) x)

theorem pad_any (x : NDArray α) {config : List (Int × Int)} (len : config.length = x.shape.length)
    (value : α) :
    (if config.any (fun p => p.1 ≠ 0 || p.2 ≠ 0) then padWith x config value else some x) =
      padWith x config value := by
  split
  · rfl
  · rename_i none
    have zeros : config = List.replicate x.shape.length (0, 0) := by
      refine List.eq_replicate_iff.mpr ⟨len, fun p mem => ?_⟩
      by_contra other
      refine none (List.any_eq_true.mpr ⟨p, mem, ?_⟩)
      obtain ⟨lo, hi⟩ := p
      simp only [Prod.mk.injEq, not_and_or] at other
      simpa using other
    have windows : List.zipWith (fun s (p : Int × Int) => Window.pad s p.1 p.2) x.shape config =
        x.shape.map fun s => .pad s 0 0 := by
      rw [zeros]
      induction x.shape with
      | nil => rfl
      | cons s ss ih => simp [List.replicate_succ, ih]
    rw [padWith, windows]
    refine (build_eq.mpr ⟨(unpadded_sizes _).symm, fun idx inside => ?_⟩).symm
    rw [place_unpadded (unpadded_sizes x.shape ▸ inside)]

def sliceStatic (t : NDArray α) (starts lengths strides : List Nat) : Option (NDArray α) :=
  look t (List.zipWith (fun d (s : Nat × Nat × Nat) => .slice d s.1 s.2.1 s.2.2) t.shape
    (starts.zip (lengths.zip strides))) none

/-- `apply` for an operation without complex path, and the shape check of `cmd_run_node`. -/
def runNode (op : String) (p : Dtype) (shape : List Nat) (complex : Bool)
    (run : Except Raised (NDArray α)) :
    Except Raised (NDArray α) :=
  if p.isComplex || complex then .error (.unsupportedOperation ("complex op not supported: " ++ op))
  else do
    let result ← run
    if result.shape = shape then .ok (result.map (A.cast p)) else .error .protocolError

/-- `Backend.pad` of a tensor of dtype `d`, into `out` of dtype `p`. -/
def backendPad (d p : Dtype) (outShape : List Nat) (t : NDArray α) (padValue : Number)
    (config : List (Int × Int × Int)) : Except Raised (NDArray α) :=
  let value := encodeNumber padValue
  if config.any fun c => c.1 < 0 || c.2.1 < 0 then do
    let pos := config.map fun c => (max c.1 0, max c.2.1 0, c.2.2)
    let interShape := List.zipWith (fun (d : Nat) (c : Int × Int × Int) =>
      (d + c.1 + c.2.1).toNat) t.shape pos
    let padded ← runNode A "pad" p interShape d.isComplex (pad A d t pos value)
    runNode A "slice" p outShape p.isComplex (orRaise .typeError (sliceStatic padded
      (config.map fun c => (max (-c.1) 0).toNat) outShape (List.replicate outShape.length 1)))
  else runNode A "pad" p outShape d.isComplex (pad A d t config value)

def padShape (shape : List Nat) (config : List (Int × Int × Int)) : List Nat :=
  List.zipWith (fun (d : Nat) (c : Int × Int × Int) => (d + c.1 + c.2.1).toNat) shape config

/-- The index of the input that an index stands for, if it lies inside the input. -/
def source : List Nat → List (Int × Int × Int) → List Nat → Option (List Nat)
  | d :: ds, (lo, _, _) :: config, i :: is =>
      if 0 ≤ (i : Int) - lo ∧ (i : Int) - lo < d then
        (source ds config is).map (((i : Int) - lo).toNat :: ·)
      else none
  | _, _, _ => some []

/-- One padding for each axis, without interior and with a size for the result. -/
def Config (shape : List Nat) (config : List (Int × Int × Int)) : Prop :=
  List.Forall₂ (fun (d : Nat) (c : Int × Int × Int) => c.2.2 = 0 ∧ 0 ≤ d + c.1 + c.2.1) shape config

def asDouble : Number → Option Float64
  | .int n => some (.number n)
  | .float m e => some (.number (m * 2 ^ e))
  | .infinity => some .infinity
  | .negInfinity => some .negInfinity
  | .nan => some .nan
  | .complex _ _ => none

def Representable : Number → Prop
  | .int n => Fits 53 n
  | .complex _ _ => False
  | _ => True

theorem float_encoded {x : Number} (exact : Representable x) :
    ∃ v, asDouble x = some v ∧ float (encodeNumber x) = .ok v := by
  cases x with
  | int n =>
    have kept : Nearest.round 53 (n : ℚ) = n := round_of_fits exact
    exact ⟨_, rfl, by rw [encodeNumber, float, kept]⟩
  | complex => cases exact
  | _ => exact ⟨_, rfl, rfl⟩

/-! The windows of the two steps. -/

def padWindows (shape : List Nat) (config : List (Int × Int × Int)) : List Window :=
  List.zipWith (fun d (c : Int × Int × Int) => .pad d c.1 c.2.1) shape config

def positive (config : List (Int × Int × Int)) : List (Int × Int × Int) :=
  config.map fun c => (max c.1 0, max c.2.1 0, c.2.2)

def cropWindows (inter : List Nat) (config : List (Int × Int × Int)) (lengths : List Nat) :
    List Window :=
  List.zipWith (fun d (s : Nat × Nat × Nat) => .slice d s.1 s.2.1 s.2.2) inter
    ((config.map fun c => (max (-c.1) 0).toNat).zip (lengths.zip (List.replicate lengths.length 1)))

section
variable {shape idx : List Nat} {config : List (Int × Int × Int)}

theorem padWindows_sizes (shape : List Nat) (config : List (Int × Int × Int)) :
    (padWindows shape config).map Window.size = padShape shape config := by
  simp [padWindows, padShape, List.map_zipWith, Window.pad]

theorem padWindows_fit (fits : Config shape config) :
    List.Forall₂ Window.Fits shape (padWindows shape config) := by
  induction fits with
  | nil => exact .nil
  | cons _ _ ih => exact .cons (pad_fits _ _ _) ih

theorem config_positive (fits : Config shape config) : Config shape (positive config) := by
  induction fits with
  | nil => exact .nil
  | cons here _ ih => exact .cons ⟨here.1, by dsimp only; omega⟩ ih

theorem place_pad (fits : Config shape config) (inside : Inside (padShape shape config) idx) :
    place (padWindows shape config) idx = source shape config idx := by
  induction fits generalizing idx with
  | nil => cases idx with
    | nil => rfl
    | cons i is => cases inside
  | @cons d c ds cs here _ ih =>
    cases idx with
    | nil => cases inside
    | cons i is =>
      have rest := ih inside.2
      obtain ⟨lo, hi, interior⟩ := c
      simp only [padWindows, List.zipWith_cons_cons, place, source, Window.pad]
      rw [← rest]
      by_cases within : lo ≤ i ∧ (i : Int) < lo + d
      · rw [if_pos within, if_pos (by omega)]
        rfl
      · rw [if_neg within, if_neg (by omega)]
        rfl

theorem cropWindows_sizes (fits : Config shape config) :
    (cropWindows (padShape shape (positive config)) config (padShape shape config)).map Window.size =
      padShape shape config := by
  induction fits with
  | nil => rfl
  | @cons d c ds cs here _ ih =>
    have size : (min ((max (-c.1) 0).toNat + (d + c.1 + c.2.1).toNat)
        (d + max c.1 0 + max c.2.1 0).toNat -
        (max (-c.1) 0).toNat + 1 - 1) / 1 = (d + c.1 + c.2.1).toNat := by
      rw [Nat.div_one]
      omega
    simp only [cropWindows, padShape, positive, List.map_cons, List.zipWith_cons_cons, List.length_cons,
      List.replicate_succ, List.zip_cons_cons, Window.slice] at ih ⊢
    rw [size, ih]

theorem cropWindows_fit (fits : Config shape config) :
    List.Forall₂ Window.Fits (padShape shape (positive config))
    (cropWindows (padShape shape (positive config)) config (padShape shape config)) := by
  induction fits with
  | nil => exact .nil
  | cons _ _ ih => exact .cons (slice_fits _ _ _ Nat.one_pos) ih

theorem cropWindows_whole (fits : Config shape config) :
    ∀ w ∈ cropWindows (padShape shape (positive config)) config (padShape shape config), w.Whole := by
  induction fits with
  | nil => exact fun w mem => nomatch mem
  | cons _ _ ih => exact List.forall_mem_cons.mpr ⟨fun _ _ => rfl, ih⟩

theorem place_crop (fits : Config shape config) (inside : Inside (padShape shape config) idx) :
    (place (cropWindows (padShape shape (positive config)) config (padShape shape config)) idx).bind
      (place (padWindows shape (positive config))) = source shape config idx := by
  induction fits generalizing idx with
  | nil => cases idx with
    | nil => rfl
    | cons i is => cases inside
  | @cons d c ds cs here _ ih =>
    cases idx with
    | nil => cases inside
    | cons i is =>
      have rest := ih inside.2
      obtain ⟨lo, hi, interior⟩ := c
      have low : i < (d + lo + hi).toNat := inside.1
      simp only [cropWindows, padWindows, padShape, positive, List.map_cons, List.zipWith_cons_cons,
        List.length_cons, List.replicate_succ, List.zip_cons_cons, place, source,
        Window.slice, Window.pad, Option.bind_some, Nat.one_mul] at rest ⊢
      rw [← rest]
      cases place _ is with
      | none => simp
      | some js =>
        by_cases within : 0 ≤ (i : Int) - lo ∧ (i : Int) - lo < d
        · have shifted : max lo 0 ≤ (((max (-lo) 0).toNat + i : Nat) : Int) ∧
              (((max (-lo) 0).toNat + i : Nat) : Int) < max lo 0 + d := by omega
          have same : ((((max (-lo) 0).toNat + i : Nat) : Int) - max lo 0).toNat =
              ((i : Int) - lo).toNat := by omega
          simp only [Option.map_some, Option.bind_some, place, if_pos within, if_pos shifted, same]
        · have shifted : ¬ (max lo 0 ≤ (((max (-lo) 0).toNat + i : Nat) : Int) ∧
              (((max (-lo) 0).toNat + i : Nat) : Int) < max lo 0 + d) := by omega
          simp only [Option.map_some, Option.bind_some, place, if_neg within, if_neg shifted,
            Option.bind_none]

variable {t out : NDArray α} {d p : Dtype} {value : Json} {v : Float64} {A : Values α}

/-- The entries of the input through `f` where there are any, else `fill`. -/
def Padded (f : α → α) (fill : α) (t : NDArray α) (config : List (Int × Int × Int))
    (out : NDArray α) : Prop :=
  out.shape = padShape t.shape config ∧ ∀ idx, Inside (padShape t.shape config) idx →
    out.get? idx = match source t.shape config idx with
      | some j => (t.get? j).map f
      | none => some fill

def IsPad (A : Values α) (p : Dtype) (t : NDArray α) (config : List (Int × Int × Int)) (v : Float64)
    (out : NDArray α) : Prop :=
  Padded (A.cast p) (A.cast p (A.element v)) t config out

/-- In the dtype `p` the value is the one it was before the pad. -/
def Survives (A : Values α) (d p : Dtype) (v : Float64) (x : α) : Prop :=
  A.cast p (A.cast (padType d v) x) = A.cast p x

/-- The entries that are left and the fill, where there is any, survive. -/
structure Kept (A : Values α) (d p : Dtype) (t : NDArray α) (config : List (Int × Int × Int))
    (v : Float64) : Prop where
  entries : ∀ idx, Inside (padShape t.shape config) idx → ∀ j, source t.shape config idx = some j →
    ∀ x, t.get? j = some x → Survives A d p v x
  fill : ∀ idx, Inside (padShape t.shape config) idx → source t.shape config idx = none →
    Survives A d p v (A.element v)

theorem config_interior (fits : Config shape config) : (config.any fun c => c.2.2 ≠ 0) = false := by
  induction fits with
  | nil => rfl
  | cons here _ ih => rw [List.any_cons, ih, Bool.or_false, here.1, decide_eq_false (not_not.mpr rfl)]

theorem positive_kept (config : List (Int × Int × Int)) :
    ((positive config).any fun c => c.1 < 0 || c.2.1 < 0) = false := by
  simp [positive]

theorem pad_ok (real : d.isComplex = false ∧ p.isComplex = false) (fits : Config t.shape config)
    (plain : (config.any fun c => c.1 < 0 || c.2.1 < 0) = false) (read : float value = .ok v) :
    ∃ out, runNode A "pad" p (padShape t.shape config) d.isComplex (pad A d t config value) = .ok out ∧
      Padded (A.cast p ∘ A.cast (padType d v)) (A.cast p (A.cast (padType d v) (A.element v)))
        t config out := by
  generalize inner : t.map (A.cast (padType d v)) = u
  have dims : u.shape = t.shape := by rw [← inner]; rfl
  obtain ⟨padded, made⟩ : ∃ out, look u (padWindows t.shape config)
      (some (A.cast (padType d v) (A.element v))) = some out :=
    look_ok (by rw [dims]; exact padWindows_fit fits) (.inl rfl)
  have run : pad A d t config value = .ok padded := by
    have windows : List.zipWith (fun d (p : Int × Int) => Window.pad d p.1 p.2) u.shape
        (config.map fun c => (c.1, c.2.1)) = padWindows t.shape config := by
      rw [padWindows, List.zipWith_map_right, dims]
    simp only [pad, config_interior fits, plain, read, padValue, inner, padWith, windows, made, bind,
      Except.bind, orRaise, Bool.false_eq_true, if_false]
  have shape : padded.shape = padShape t.shape config := (look_shape made).trans (padWindows_sizes ..)
  refine ⟨padded.map (A.cast p), ?_, shape, fun idx inside => ?_⟩
  · simp [runNode, real, run, shape, bind, Except.bind]
  · have there := get?_look made (by rwa [padWindows_sizes])
    rw [place_pad fits inside] at there
    rw [get?_map, there]
    cases source t.shape config idx with
    | none => rfl
    | some j =>
      dsimp only
      rw [← inner, get?_map, Option.map_map]

theorem crop_ok {padded : NDArray α} {f : α → α} {fill : α} (kept : ∀ x, A.cast p (f x) = f x)
    (kept_fill : A.cast p fill = fill) (real : p.isComplex = false) (fits : Config t.shape config)
    (is_pad : Padded f fill t (positive config) padded) :
    ∃ out, runNode A "slice" p (padShape t.shape config) p.isComplex
    (orRaise .typeError (sliceStatic padded
      (config.map fun c => (max (-c.1) 0).toNat) (padShape t.shape config)
        (List.replicate (padShape t.shape config).length 1))) = .ok out ∧
      Padded f fill t config out := by
  obtain ⟨dims, gets⟩ := is_pad
  have windows : List.Forall₂ Window.Fits padded.shape
      (cropWindows (padShape t.shape (positive config)) config (padShape t.shape config)) := by
    rw [dims]
    exact cropWindows_fit fits
  obtain ⟨cropped, made⟩ : ∃ out, look padded
      (cropWindows (padShape t.shape (positive config)) config (padShape t.shape config)) none
        = some out :=
    look_ok windows (.inr (cropWindows_whole fits))
  have shape : cropped.shape = padShape t.shape config :=
    (look_shape made).trans (cropWindows_sizes fits)
  refine ⟨cropped.map (A.cast p), ?_, shape, fun idx inside => ?_⟩
  · have run : sliceStatic padded (config.map fun c => (max (-c.1) 0).toNat) (padShape t.shape config)
        (List.replicate (padShape t.shape config).length 1) = some cropped := by
      rw [sliceStatic, dims]
      exact made
    simp [runNode, real, run, shape, orRaise, bind, Except.bind]
  · have inside' : Inside ((cropWindows (padShape t.shape (positive config)) config
        (padShape t.shape config)).map Window.size) idx := by rwa [cropWindows_sizes fits]
    have there := get?_look made inside'
    obtain ⟨j, found⟩ := place_whole (cropWindows_whole fits) inside'
    have at_j : Inside padded.shape j := place_inside windows inside' found
    rw [dims] at at_j
    have through := place_crop fits inside
    rw [found, Option.bind_some, place_pad (config_positive fits) at_j] at through
    rw [found] at there
    dsimp only at there
    rw [get?_map, there, gets j at_j, through]
    cases source t.shape config idx with
    | none => simp [kept_fill]
    | some k => simp [Option.map_map, Function.comp_def, kept]

theorem backendPad_ok (real : d.isComplex = false ∧ p.isComplex = false) (fits : Config t.shape config)
    {x : Number} (read : float (encodeNumber x) = .ok v) :
    ∃ out, backendPad A d p (padShape t.shape config) t x config = .ok out ∧
      Padded (A.cast p ∘ A.cast (padType d v)) (A.cast p (A.cast (padType d v) (A.element v)))
        t config out := by
  unfold backendPad
  cases crops : config.any fun c => c.1 < 0 || c.2.1 < 0 with
  | false => exact pad_ok real fits crops read
  | true =>
    obtain ⟨padded, first, middle⟩ := pad_ok real (config_positive fits) (positive_kept config) read
    obtain ⟨out, second, is_pad⟩ := crop_ok (fun x => A.cast_cast p _) (A.cast_cast p _) real.2 fits middle
    refine ⟨out, ?_, is_pad⟩
    change (do
      let padded ← runNode A "pad" p (padShape t.shape (positive config)) d.isComplex
        (pad A d t (positive config) _)
      _) = _
    rw [first]
    exact second

theorem backendPad_real {x : Number} (shape : List Nat) (ran : backendPad A d p shape t x config = .ok out) :
    d.isComplex = false ∧ p.isComplex = false := by
  by_contra complex
  have either : (p.isComplex || d.isComplex) = true := by
    cases dc : d.isComplex <;> cases pc : p.isComplex <;> simp_all
  have raises (s : List Nat) (run : Except Raised (NDArray α)) : runNode A "pad" p s d.isComplex run =
      .error (.unsupportedOperation ("complex op not supported: " ++ "pad")) := by
    rw [runNode, if_pos either]
  unfold backendPad at ran
  split at ran
  · simp [raises, bind, Except.bind] at ran
  · simp [raises] at ran

theorem padded_kept_iff (padded : Padded (A.cast p ∘ A.cast (padType d v))
    (A.cast p (A.cast (padType d v) (A.element v))) t config out) :
    IsPad A p t config v out ↔ Kept A d p t config v := by
  constructor
  · rintro ⟨_, gets⟩
    refine ⟨fun idx inside j found x there => ?_, fun idx inside none => ?_⟩
    · have both := (padded.2 idx inside).symm.trans (gets idx inside)
      simp only [found, there, Option.map_some, Option.some.injEq] at both
      exact both
    · have both := (padded.2 idx inside).symm.trans (gets idx inside)
      simp only [none, Option.some.injEq] at both
      exact both
  · rintro ⟨entries, fill⟩
    refine ⟨padded.1, fun idx inside => (padded.2 idx inside).trans ?_⟩
    cases found : source t.shape config idx with
    | none => exact congrArg some (fill idx inside found)
    | some j =>
      cases there : t.get? j with
      | none => simp [there]
      | some x =>
        simp only [there, Option.map_some]
        exact congrArg some (entries idx inside j found x there)

theorem backendPad_kept_iff (fits : Config t.shape config) {x : Number}
    (read : float (encodeNumber x) = .ok v) :
    (∃ out, backendPad A d p (padShape t.shape config) t x config = .ok out ∧ IsPad A p t config v out) ↔
      (d.isComplex = false ∧ p.isComplex = false) ∧ Kept A d p t config v := by
  constructor
  · rintro ⟨out, ran, is_pad⟩
    have real := backendPad_real _ ran
    obtain ⟨out', ran', padded⟩ := backendPad_ok (A := A) real fits read
    cases ran.symm.trans ran'
    exact ⟨real, (padded_kept_iff padded).mp is_pad⟩
  · rintro ⟨real, kept⟩
    obtain ⟨out, ran, padded⟩ := backendPad_ok (A := A) real fits read
    exact ⟨out, ran, (padded_kept_iff padded).mpr kept⟩

end

/-- The casts of numbers that the pad of integers uses: an integer dtype keeps what it holds, float32
    rounds. -/
structure Lawful (A : Values Float64) : Prop where
  element : ∀ v, A.element v = v
  keeps : ∀ {d z}, Holds d z → A.cast d (.number z) = .number z
  rounds : ∀ {d z}, Holds d z → A.cast .f32 (.number z) = .number (float32 z)

def numbers (t : NDArray ℤ) : NDArray Float64 := t.map fun z : ℤ => .number z

/-- The integers that are left, and the fill where there is any, have 24 bits. -/
structure FewBits (t : NDArray ℤ) (config : List (Int × Int × Int)) (w : ℤ) : Prop where
  entries : ∀ idx, Inside (padShape t.shape config) idx → ∀ j, source t.shape config idx = some j →
    ∀ z, t.get? j = some z → Fits 24 (z : ℚ)
  fill : ∀ idx, Inside (padShape t.shape config) idx → source t.shape config idx = none →
    Fits 24 (w : ℚ)

theorem holds_integer {d : Dtype} {z : ℤ} (holds : Holds d z) :
    isFloat d = false ∧ d.isComplex = false ∧ d ≠ .f32 := by
  cases d <;> first | exact holds.elim | exact ⟨rfl, rfl, by decide⟩

instance (d : Dtype) (z : ℤ) : Decidable (Holds d z) := by
  cases d <;> unfold Holds <;> infer_instance

def standardCast (d : Dtype) : Float64 → Float64
  | .number q => .number (if d = .f32 then float32 q else if isFloat d || d.isComplex then q
      else if Holds d (trunc q) then trunc q else 0)
  | x => x

theorem float32_float32 (q : ℚ) : float32 (float32 q) = float32 q :=
  round_of_fits (round_fits (by decide) q)

theorem trunc_int (z : ℤ) : trunc z = z := by simp [trunc]

def standard : Values Float64 where
  cast := standardCast
  element := id
  cast_cast d x := by
    cases x with
    | number q =>
      simp only [standardCast, Float64.number.injEq]
      by_cases single : d = .f32
      · simp only [if_pos single, float32_float32]
      · simp only [if_neg single]
        by_cases other : (isFloat d || d.isComplex) = true
        · simp only [if_pos other]
        · simp only [if_neg other]
          by_cases holds : Holds d (trunc q)
          · simp only [if_pos holds, trunc_int]
          · have zero : trunc 0 = 0 := trunc_int 0
            simp [if_neg holds, zero]
    | infinity => rfl
    | negInfinity => rfl
    | nan => rfl

theorem standard_lawful : Lawful standard := by
  refine ⟨fun _ => rfl, @fun d z holds => ?_, @fun d z holds => rfl⟩
  obtain ⟨whole, real, double⟩ := holds_integer holds
  simp [standard, standardCast, whole, real, double, trunc_int, holds]

section integers
variable {d : Dtype} {config : List (Int × Int × Int)} {w : ℤ}

theorem padType_kept {v : Float64} (kept : v = .number 0 ∨ isFloat d = true) : padType d v = d :=
  if_pos (by simpa using kept)

theorem padType_integer {v : Float64} (whole : isFloat d = false) (nonzero : v ≠ .number 0) :
    padType d v = .f32 := if_neg (by simp [whole, nonzero])

theorem survives_few {A : Values Float64} (lawful : Lawful A) {v : Float64} {z : ℤ} (holds : Holds d z)
    (few : v = .number 0 ∨ Fits 24 (z : ℚ)) : Survives A d d v (.number z) := by
  by_cases kept : v = .number 0 ∨ isFloat d = true
  · rw [Survives, padType_kept kept, A.cast_cast]
  · rw [not_or, Bool.not_eq_true] at kept
    have same : float32 z = z := round_of_fits (few.resolve_left kept.1)
    rw [Survives, padType_integer kept.2 kept.1, lawful.rounds holds, same]

theorem few_survives {z : ℤ} (holds : Holds d z) (some_w : w ≠ 0)
    (survives : Survives standard d d (.number w) (.number z)) : Fits 24 (z : ℚ) := by
  obtain ⟨whole, real, double⟩ := holds_integer holds
  have nonzero : Float64.number w ≠ .number 0 := by simpa using some_w
  rw [Survives, padType_integer whole nonzero, standard_lawful.keeps holds,
    standard_lawful.rounds holds] at survives
  obtain ⟨n, rounded⟩ := float32_integer z
  simp only [standard, standardCast, double, whole, real, rounded, trunc_int, Bool.or_false,
    Bool.false_eq_true, if_false, Float64.number.injEq] at survives
  split at survives
  · rw [← survives, ← rounded]
    exact round_fits (by decide) _
  · rw [← survives]
    exact ⟨0, 0, by simp, by simp⟩

theorem get?_data {t : NDArray ℤ} {idx : List ℕ} {z : ℤ} (there : t.get? idx = some z) : z ∈ t.data := by
  rw [get?_eq (get?_isSome.mp (by simp [there]))] at there
  exact List.mem_of_getElem? there

theorem get?_numbers (t : NDArray ℤ) (idx : List ℕ) :
    (numbers t).get? idx = (t.get? idx).map fun z => .number z := get?_map ..

theorem few_kept {A : Values Float64} (lawful : Lawful A) {t : NDArray ℤ} (held : ∀ z ∈ t.data, Holds d z)
    (fill_held : Holds d w) (few : w = 0 ∨ FewBits t config w) :
    Kept A d d (numbers t) config (.number w) := by
  refine ⟨fun idx inside j found x there => ?_, fun idx inside none => ?_⟩
  · rw [get?_numbers] at there
    obtain ⟨z, at_j, rfl⟩ := Option.map_eq_some_iff.mp there
    refine survives_few lawful (held z (get?_data at_j)) ?_
    exact few.imp (fun zero => by rw [zero, Int.cast_zero]) fun few => few.entries idx inside j found z at_j
  · rw [lawful.element]
    refine survives_few lawful fill_held ?_
    exact few.imp (fun zero => by rw [zero, Int.cast_zero]) fun few => few.fill idx inside none

theorem kept_few {t : NDArray ℤ} (held : ∀ z ∈ t.data, Holds d z) (fill_held : Holds d w) (some_w : w ≠ 0)
    (kept : Kept standard d d (numbers t) config (.number w)) : FewBits t config w := by
  refine ⟨fun idx inside j found z there => ?_, fun idx inside none => ?_⟩
  · refine few_survives (held z (get?_data there)) some_w (kept.entries idx inside j found _ ?_)
    rw [get?_numbers, there, Option.map_some]
  · exact few_survives fill_held some_w (kept.fill idx inside none)

end integers

/-- The eager pad with paddings of either sign is Nx's exactly for real tensors whose remaining values
    survive; integers of one dtype survive a fill that is not 0 exactly when they have 24 bits. -/
theorem backendPad_iff (d : Dtype) (config : List (Int × Int × Int)) :
    (∀ {α : Type} (A : Values α) (p : Dtype) (t : NDArray α) (x : Number), Config t.shape config →
      Representable x → ∃ v, asDouble x = some v ∧
        ((∃ out, backendPad A d p (padShape t.shape config) t x config = .ok out ∧
            IsPad A p t config v out) ↔
          (d.isComplex = false ∧ p.isComplex = false) ∧ Kept A d p t config v)) ∧
    ∀ (t : NDArray ℤ) (w : ℤ), Config t.shape config → Representable (.int w) →
      (∀ z ∈ t.data, Holds d z) → Holds d w → ((∀ A, Lawful A → ∃ out,
          backendPad A d d (padShape t.shape config) (numbers t) (.int w) config = .ok out ∧
            IsPad A d (numbers t) config (.number w) out) ↔
        w = 0 ∨ FewBits t config w) := by
  refine ⟨@fun α A p t x fits exact => ?_, fun t w fits exact held fill_held => ?_⟩
  · obtain ⟨v, double, read⟩ := float_encoded exact
    exact ⟨v, double, backendPad_kept_iff fits read⟩
  · obtain ⟨v, double, read⟩ := float_encoded exact
    cases double
    have each (A : Values Float64) := backendPad_kept_iff (A := A) (t := numbers t) (d := d) (p := d) fits read
    constructor
    · intro all
      rcases eq_or_ne w 0 with zero | some_w
      · exact .inl zero
      · exact .inr (kept_few held fill_held some_w ((each standard).mp (all standard standard_lawful)).2)
    · intro few A lawful
      have real := (holds_integer fill_held).2.1
      exact (each A).mpr ⟨⟨real, real⟩, few_kept lawful held fill_held few⟩

def exactly : Values Float64 := ⟨fun _ x => x, id, fun _ _ => rfl⟩

def threeNumbers : NDArray Float64 := ⟨[3], [.number 1, .number 2, .number 3], rfl⟩

def twoIntegers : NDArray ℤ := ⟨[2], [16777217, 5], rfl⟩

theorem three_config : Config threeNumbers.shape [(-5, 4, 0)] := .cons (by decide) .nil

theorem two_config : Config twoIntegers.shape [(-1, 1, 0)] := .cons (by decide) .nil

theorem two_hold : ∀ z ∈ twoIntegers.data, Holds .s32 z := by decide

theorem fits_number (n : ℤ) {p : ℕ} (small : |n| < 2 ^ p) : Fits p (n : ℚ) := ⟨n, 0, small, by simp⟩

theorem two_few : FewBits twoIntegers [(-1, 1, 0)] 7 := by
  refine ⟨fun idx inside j found z there => ?_, fun _ _ _ => fits_number 7 (by norm_num)⟩
  cases idx with
  | nil => cases inside
  | cons i is =>
    cases is with
    | cons => exact inside.2.elim
    | nil =>
      have low : i < 2 := inside.1
      obtain rfl | rfl : i = 0 ∨ i = 1 := by omega
      · cases found
        cases there
        exact fits_number 5 (by norm_num)
      · cases found

theorem crop_beyond : (∃ v out, asDouble (.int 7) = some v ∧
    backendPad exactly .f32 .f32 [2] threeNumbers (.int 7) [(-5, 4, 0)] = .ok out ∧
      IsPad exactly .f32 threeNumbers [(-5, 4, 0)] v out) ∧
    ∀ A, Lawful A → ∃ out, backendPad A .s32 .s32 [2] (numbers twoIntegers) (.int 7) [(-1, 1, 0)] = .ok out ∧
      IsPad A .s32 (numbers twoIntegers) [(-1, 1, 0)] (.number (7 : ℤ)) out := by
  have seven : Representable (.int 7) := fits_number 7 (by norm_num)
  constructor
  · obtain ⟨v, double, same⟩ := (backendPad_iff .f32 _).1 exactly .f32 threeNumbers _ three_config seven
    obtain ⟨out, ran, is_pad⟩ := same.mpr ⟨⟨rfl, rfl⟩, fun _ _ _ _ _ _ => rfl, fun _ _ _ => rfl⟩
    exact ⟨v, out, double, ran, is_pad⟩
  · exact ((backendPad_iff .s32 _).2 twoIntegers 7 two_config seven two_hold (by decide)).mpr (.inr two_few)

/-- An integer without 24 bits is padded with 7; and a complex tensor has no pad. -/
theorem integers_rounded : Config twoIntegers.shape [(1, 0, 0)] ∧ Representable (.int 7) ∧ Lawful standard ∧
    (∃ out, backendPad standard .s32 .s32 [3] (numbers twoIntegers) (.int 7) [(1, 0, 0)] = .ok out ∧
      out.data = [.number 7, .number 16777216, .number 5] ∧
      ¬ IsPad standard .s32 (numbers twoIntegers) [(1, 0, 0)] (.number (7 : ℤ)) out) ∧
    backendPad exactly .c64 .c64 [4] threeNumbers (.float 0 0) [(1, 0, 0)] =
      .error (.unsupportedOperation "complex op not supported: pad") := by
  have config : Config twoIntegers.shape [(1, 0, 0)] := .cons (by decide) .nil
  have seven : Representable (.int 7) := fits_number 7 (by norm_num)
  have value : (backendPad standard .s32 .s32 [3] (numbers twoIntegers) (.int 7) [(1, 0, 0)]).toOption.map
      NDArray.data = some [.number 7, .number 16777216, .number 5] := by decide +kernel
  cases ran : backendPad standard .s32 .s32 [3] (numbers twoIntegers) (.int 7) [(1, 0, 0)] with
  | error e =>
    rw [ran] at value
    cases value
  | ok out =>
    rw [ran] at value
    have data : out.data = [.number 7, .number 16777216, .number 5] := Option.some.inj value
    refine ⟨config, seven, standard_lawful, ⟨out, rfl, data, fun is_pad => ?_⟩, rfl⟩
    have inside : Inside (padShape twoIntegers.shape [(1, 0, 0)]) [1] := by decide
    have there : out.get? [1] = some (.number 16777216) := by
      rw [get?_eq (by rw [is_pad.1]; exact inside), data, is_pad.1]
      rfl
    have entry : some (Float64.number 16777216) = some (standard.cast .s32 (.number (16777217 : ℤ))) :=
      there.symm.trans (is_pad.2 [1] inside)
    have held : Holds .s32 16777217 := by decide
    rw [standard_lawful.keeps held] at entry
    norm_num at entry

end NxTinygrad.Padding
