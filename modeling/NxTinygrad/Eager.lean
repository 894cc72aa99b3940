import NxTinygrad.ComplexOps
import NxTinygrad.Lowered
import NxTinygrad.Padding

/- The eager operations of backend.ex, and `cmd_run_node` of main.py that computes them. -/
namespace NxTinygrad.Eager
open IR Interpreter Lowering NDArray Reductions

def storedShape (shape : List Nat) (dtype : Dtype) : List Nat :=
  if dtype.isComplex then shape ++ [2] else shape

def Dtype.Holds (d : Dtype) (n : Int) : Prop :=
  match d with
  | .s8 | .s16 | .s32 | .s64 => -2 ^ (8 * d.itemsize - 1) ≤ n ∧ n < 2 ^ (8 * d.itemsize - 1)
  | .u8 | .u16 | .u32 | .u64 => 0 ≤ n ∧ n < 2 ^ (8 * d.itemsize)
  | _ => False

variable {α : Type}

/-- The tensor of a value, `t.t` of the wrapper `Cx`. -/
def tensor : Value α → NDArray α
  | .real t => t
  | .cx t => t

def kind (v : Value α) : Bool × List Nat := (v.real?.isSome, (tensor v).shape)

/-- `int(t.item())` and `Nx.to_number` of an integer, given how they read an element. -/
def item (int : α → Option Int) : Value α → Option Int
  | .real t => match t.data with
      | [x] => int x
      | _ => none
  | .cx _ => none

/-- Whether a value has a spec, `of` being the elements of a dtype, or of its parts where it is complex. -/
structure OfSpec (of : Dtype → α → Prop) (spec : Spec) (v : Value α) : Prop where
  kind : kind v = (!spec.2.isComplex, storedShape spec.1 spec.2)
  elements : ∀ x ∈ (tensor v).data, of spec.2 x

/-- Elements, and the operations but for the slices. The last lines are what is relied on: every result is
    cast to the dtype of its node, also where tinygrad folds constants; tinygrad is lazy, so that the specs of
    the operands decide whether an operation raises and the shape of its result; `iota` and `eye` make the
    shape of their node; and a scalar made of an integer reads as this integer. -/
structure Kernels (α : Type) where
  of : Dtype → α → Prop
  cast : Dtype → α → α
  zero : α
  timesZero : α → α
  plusOne : α → α
  nonzero : α → Bool
  int : α → Option Int
  scalar : Dtype → Number → List α
  toNumber : Dtype → List α → Option Number
  isNan : α → Bool
  isInf : α → Bool
  counter : Dtype → Nat → α
  number : Json → List Nat → Dtype → Option (Value α)
  literal : Blob → List Nat → Dtype → Option (Value α)
  prim : PrimOp → List (String × Json) → List (Value α) → List Nat → Dtype → Option (Value α)
  folded : List Bool → NodeOp → List (Value α) → List Nat → Dtype → Option (Value α)
  cast_of : ∀ d x, of d (cast d x)
  counter_of : ∀ d k, of d (counter d k)
  prim_of : ∀ {op attrs vs shape dtype v}, prim op attrs vs shape dtype = some v →
    ∀ x ∈ (tensor v).data, of dtype x
  folded_of : ∀ {flags op vs shape dtype v}, folded flags op vs shape dtype = some v →
    ∀ x ∈ (tensor v).data, of dtype x
  lazy : ∀ op attrs {specs vs ws} shape dtype, List.Forall₂ (OfSpec of) specs vs →
    List.Forall₂ (OfSpec of) specs ws →
    (prim op attrs vs shape dtype).map kind = (prim op attrs ws shape dtype).map kind
  created : ∀ {op attrs shape dtype v}, prim op attrs [] shape dtype = some v →
    (tensor v).shape = storedShape shape dtype
  integer : ∀ {n dtype}, Dtype.Holds dtype n →
    ∃ v, number (.int n) [] dtype = some v ∧ item int v = some n

namespace Kernels
variable (K : Kernels α)

def promote : Value α → Option (NDArray α)
  | .cx t => some t
  | .real t => do
      let re ← t.reshape (t.shape ++ [1])
      let im ← (t.map K.timesZero).reshape (t.shape ++ [1])
      cat [re, im] t.shape.length

end Kernels

def clamp (n : Int) (dim length : Nat) : Int := max 0 (min n (dim - length))

/-- The loop of `_slice` over the starts. A Variable was clamped when it was bound. -/
def startsOf : List Nat → List Nat → List Start → Option (List Int)
  | _, _, [] => some []
  | dims, lengths, .static n :: rest => (startsOf dims.tail lengths.tail rest).map (n :: ·)
  | dims, lengths, .bound n :: rest => (startsOf dims.tail lengths.tail rest).map ((n : Int) :: ·)
  | d :: dims, l :: lengths, .read n :: rest => (startsOf dims lengths rest).map (clamp n d l :: ·)
  | _, _, .read _ :: _ => none

def staticOf : Start → Option Int
  | .static n => some n
  | _ => none

/-- `_slice`, and the slice of `_apply_complex`, which has static starts only. -/
def applySlice (K : Kernels α) (v : Value α) (starts : List Start) (lengths strides : List Nat)
    (dtype : Dtype) : Option (Value α) :=
  if dtype.isComplex then do
    let t ← K.promote v
    let ns ← starts.mapM staticOf
    let r ← ComplexOps.getItem t (ns.zip (lengths.zip strides))
    some (.cx (r.map (K.cast dtype)))
  else do
    let t ← v.real?
    let ns ← startsOf t.shape lengths starts
    let r ← ComplexOps.getItem t (ns.zip (lengths.zip strides))
    some (.real (r.map (K.cast dtype)))

def placed (dim length : Nat) : Start → Int
  | .static n => clamp n dim length
  | .read n => clamp n dim length
  | .bound n => n

def padConfig : List Nat → List Nat → List Start → Option (List (Int × Int))
  | _, _, [] => some []
  | d :: dims, l :: lengths, s :: rest =>
      (padConfig dims lengths rest).map ((placed d l s, d - l - placed d l s) :: ·)
  | _, _, _ :: _ => none

def applyPutSlice (K : Kernels α) (target slice : Value α) (starts : List Start) (dtype : Dtype) :
    Option (Value α) :=
  if dtype.isComplex then none
  else do
    let t ← target.real?
    let s ← slice.real?
    let config ← padConfig t.shape s.shape starts
    let padded ← Padding.padWith s config K.zero
    let mask ← Padding.padWith (s.map fun x => K.plusOne (K.timesZero x)) config K.zero
    let r ← ComplexOps.whereElse (mask.map K.nonzero) padded t
    some (.real (r.map (K.cast dtype)))

/-- `operations.apply` with the folds of executable.py. -/
def Kernels.sem (K : Kernels α) : Sem (Value α) where
  number := K.number
  literal := K.literal
  prim := K.prim
  slice v starts lengths strides _ dtype := applySlice K v starts lengths strides dtype
  putSlice target slice starts _ dtype := applyPutSlice K target slice starts dtype
  isTensor v := v.real?.isSome
  item := item K.int
  truthy v := (item K.int v).map (· != 0)
  foldAcc := foldAcc
  foldParts := foldParts
  foldFinish := foldFinish

section
variable {K : Kernels α} {op : NodeOp} {vs : List (Value α)} {v : Value α} {shape : List Nat}
  {dtype : Dtype}

theorem applySlice_of {starts : List Start} {lengths strides : List Nat} {w : Value α}
    (ran : applySlice K v starts lengths strides dtype = some w) :
      ∀ x ∈ (tensor w).data, K.of dtype x := by
  intro x mem
  unfold applySlice at ran
  split at ran
  all_goals
    simp only [Option.bind_eq_bind, Option.bind_eq_some_iff, Option.some.injEq] at ran
    obtain ⟨_, _, _, _, r, _, rfl⟩ := ran
    obtain ⟨y, _, rfl⟩ := List.mem_map.mp mem
    exact K.cast_of dtype y

theorem applyPutSlice_of {starts : List Start} {w s : Value α}
    (ran : applyPutSlice K v s starts dtype = some w) : ∀ x ∈ (tensor w).data, K.of dtype x := by
  intro x mem
  unfold applyPutSlice at ran
  split at ran
  · cases ran
  · simp only [Option.bind_eq_bind, Option.bind_eq_some_iff, Option.some.injEq] at ran
    obtain ⟨_, _, _, _, _, _, _, _, _, _, r, _, rfl⟩ := ran
    obtain ⟨y, _, rfl⟩ := List.mem_map.mp mem
    exact K.cast_of dtype y

theorem apply_of (ran : applyOp K.sem [] op vs shape dtype = .ok v) :
    ∀ x ∈ (tensor v).data, K.of dtype x := by
  unfold applyOp at ran
  split at ran
  · exact K.prim_of (orFault_ok.mp ran)
  · obtain ⟨_, _, ran⟩ := except_bind_ok.mp ran
    exact applySlice_of (orFault_ok.mp ran)
  · obtain ⟨_, _, ran⟩ := except_bind_ok.mp ran
    exact applyPutSlice_of (orFault_ok.mp ran)
  · cases ran

end

/-- A buffer of the registry, or a tensor of the default Nx backend, whose bytes come with the request. -/
structure Buffer (K : Kernels α) where
  shape : List Nat
  dtype : Dtype
  tensor : NDArray α
  stored : tensor.shape = storedShape shape dtype
  elements : ∀ x ∈ tensor.data, K.of dtype x
  inline : Bool := false

def Buffer.value {K : Kernels α} (b : Buffer K) : Value α :=
  if b.dtype.isComplex then .cx b.tensor else .real b.tensor

def Buffer.spec {K : Kernels α} (b : Buffer K) : Spec := (b.shape, b.dtype)

/-- `wire_tensor` makes a constant of a scalar, and `realize` leaves it one. -/
def Buffer.constant {K : Kernels α} (b : Buffer K) : Bool := b.inline && b.shape.isEmpty

theorem Buffer.value_of {K : Kernels α} (b : Buffer K) : OfSpec K.of b.spec b.value := by
  unfold Buffer.value
  cases complex : b.dtype.isComplex with
  | false => exact ⟨by simp [kind, Value.real?, Eager.tensor, b.stored, Buffer.spec, complex],
      b.elements⟩
  | true => exact ⟨by simp [kind, Value.real?, Eager.tensor, b.stored, Buffer.spec, complex],
      b.elements⟩

/-- `operations.apply` of `cmd_run_node`, which clones no scalar. -/
def applyEager (K : Kernels α) (op : NodeOp) (out : Spec) (inputs : List (Buffer K)) :
    Except EvalError (Value α) :=
  if inputs.any Buffer.constant then
    orFault (K.folded (inputs.map Buffer.constant) op (inputs.map Buffer.value) out.1 out.2)
  else applyOp K.sem [] op (inputs.map Buffer.value) out.1 out.2

theorem applyEager_of {K : Kernels α} {op : NodeOp} {out : Spec} {inputs : List (Buffer K)}
    {v : Value α} (ran : applyEager K op out inputs = .ok v) :
    ∀ x ∈ (tensor v).data, K.of out.2 x := by
  unfold applyEager at ran
  split at ran
  · exact K.folded_of (orFault_ok.mp ran)
  · exact apply_of ran

def runNode (K : Kernels α) (op : NodeOp) (out : Spec) (inputs : List (Buffer K)) :
    Option (Buffer K) :=
  match ran : applyEager K op out inputs with
  | .error _ => none
  | .ok v => if stored : (tensor v).shape = storedShape out.1 out.2 then
      some ⟨out.1, out.2, tensor v, stored, applyEager_of ran, false⟩
    else none

def Stored {K : Kernels α} (inputs : List (Buffer K)) : Prop := ∀ b ∈ inputs, b.constant = false

theorem applyEager_stored {K : Kernels α} {inputs : List (Buffer K)} (stored : Stored inputs)
    (op : NodeOp) (out : Spec) :
    applyEager K op out inputs = applyOp K.sem [] op (inputs.map Buffer.value) out.1 out.2 := by
  have none_constant : inputs.any Buffer.constant = false := by simpa [Stored] using stored
  simp [applyEager, none_constant]

theorem runNode_tensor {K : Kernels α} {inputs : List (Buffer K)} (given : Stored inputs)
    (op : NodeOp) (out : Spec) :
    (runNode K op out inputs).map (·.tensor) =
      ((applyOp K.sem [] op (inputs.map Buffer.value) out.1 out.2).toOption.map tensor).filter
        fun t => t.shape = storedShape out.1 out.2 := by
  rw [← applyEager_stored given]
  unfold runNode
  split
  · rename_i e ran
    rw [ran]
    rfl
  · rename_i v ran
    split
    · rename_i stored
      simp [ran, Except.toOption, Option.filter, stored]
    · rename_i other
      simp [ran, Except.toOption, Option.filter, other]

section
variable {K : Kernels α} {v w : Value α} {spec : Spec}

theorem real_of (given : OfSpec K.of spec v) (plain : spec.2.isComplex = false) :
    ∃ t, v = .real t ∧ t.shape = spec.1 := by
  have here := given.kind
  simp only [kind, storedShape, plain, Bool.not_false, Bool.false_eq_true, if_false,
    Prod.mk.injEq] at here
  cases v with
  | real t => exact ⟨t, rfl, here.2⟩
  | cx t => simp [Value.real?] at here

theorem cx_of (given : OfSpec K.of spec v) (complex : spec.2.isComplex = true) :
    ∃ t, v = .cx t ∧ t.shape = spec.1 ++ [2] := by
  have here := given.kind
  simp only [kind, storedShape, complex, Bool.not_true, if_true, Prod.mk.injEq] at here
  cases v with
  | real t => simp [Value.real?] at here
  | cx t => exact ⟨t, rfl, here.2⟩

theorem getItem_lazy {t s : NDArray α} (same : t.shape = s.shape)
    (slices : List (Int × Nat × Nat)) :
    (ComplexOps.getItem t slices).map NDArray.shape =
    (ComplexOps.getItem s slices).map NDArray.shape := by
  unfold ComplexOps.getItem
  rw [same]
  split
  · exact look_lazy same rfl
  · rfl

theorem padWith_lazy {t s : NDArray α} (same : t.shape = s.shape)
    (config : List (Int × Int)) (x : α) :
    (Padding.padWith t config x).map NDArray.shape =
    (Padding.padWith s config x).map NDArray.shape := by
  unfold Padding.padWith
  rw [same]
  exact look_lazy same rfl

theorem whereElse_shape (c : NDArray Bool) (a b : NDArray α) :
    (ComplexOps.whereElse c a b).map NDArray.shape =
    (common a.shape b.shape).bind (common c.shape) := by
  simp only [ComplexOps.whereElse, Option.bind_eq_bind, ← pointwise_shape Prod.mk a b]
  cases pointwise Prod.mk a b with
  | none => rfl
  | some p => exact pointwise_shape _ c p

theorem map_lazy {x y : Option (NDArray α)} {f : NDArray α → Value α}
    {g : List Nat → Bool × List Nat}
    (shapes : ∀ r, kind (f r) = g r.shape) (same : x.map NDArray.shape = y.map NDArray.shape) :
    (x.bind fun r => some (f r)).map kind = (y.bind fun r => some (f r)).map kind := by
  have each : kind ∘ f = g ∘ NDArray.shape := funext shapes
  have mapped (z : Option (NDArray α)) :
      (z.bind fun r => some (f r)).map kind = (z.map NDArray.shape).map g := by
    rw [Option.map_map, ← each, ← Option.map_map]
    cases z <;> rfl
  rw [mapped, mapped, same]

theorem slice_lazy (given : OfSpec K.of spec v) (given' : OfSpec K.of spec w) (starts : List Start)
    (lengths strides : List Nat) : (applySlice K v starts lengths strides spec.2).map kind =
      (applySlice K w starts lengths strides spec.2).map kind := by
  unfold applySlice
  cases complex : spec.2.isComplex with
  | true =>
    obtain ⟨t, rfl, shape⟩ := cx_of given complex
    obtain ⟨s, rfl, shape'⟩ := cx_of given' complex
    simp only [if_true, Kernels.promote, Option.bind_eq_bind, Option.bind_some]
    cases starts.mapM staticOf with
    | none => rfl
    | some ns =>
      simp only [Option.bind_some]
      exact map_lazy (f := fun r => .cx (r.map (K.cast spec.2))) (g := (false, ·)) (fun _ => rfl)
        (getItem_lazy (shape.trans shape'.symm) _)
  | false =>
    obtain ⟨t, rfl, shape⟩ := real_of given complex
    obtain ⟨s, rfl, shape'⟩ := real_of given' complex
    simp only [Bool.false_eq_true, if_false, Value.real?, Option.bind_eq_bind,
      Option.bind_some, shape, shape']
    cases startsOf spec.1 lengths starts with
    | none => rfl
    | some ns =>
      simp only [Option.bind_some]
      exact map_lazy (f := fun r => .real (r.map (K.cast spec.2))) (g := (true, ·)) (fun _ => rfl)
        (getItem_lazy (shape.trans shape'.symm) _)

theorem put_lazy {spec' : Spec} {x y : Value α} (given : OfSpec K.of spec v)
    (given' : OfSpec K.of spec w)
    (part : OfSpec K.of spec' x) (part' : OfSpec K.of spec' y) (starts : List Start) {dtype : Dtype}
    (plain : dtype.isComplex = true ∨ spec.2.isComplex = false ∧ spec'.2.isComplex = false) :
    (applyPutSlice K v x starts dtype).map kind = (applyPutSlice K w y starts dtype).map kind := by
  unfold applyPutSlice
  cases complex : dtype.isComplex with
  | true => rfl
  | false =>
    obtain ⟨real, real'⟩ := plain.resolve_left (by simp [complex])
    obtain ⟨t, rfl, shape⟩ := real_of given real
    obtain ⟨s, rfl, shape'⟩ := real_of given' real
    obtain ⟨a, rfl, dims⟩ := real_of part real'
    obtain ⟨b, rfl, dims'⟩ := real_of part' real'
    simp only [Bool.false_eq_true, if_false, Value.real?, Option.bind_eq_bind,
      Option.bind_some, shape, shape', dims, dims']
    cases padConfig spec.1 spec'.1 starts with
    | none => rfl
    | some config =>
      have same := padWith_lazy (dims.trans dims'.symm) config K.zero
      have masks := padWith_lazy (t := a.map fun x => K.plusOne (K.timesZero x))
        (s := b.map fun x => K.plusOne (K.timesZero x)) (dims.trans dims'.symm) config K.zero
      simp only [Option.bind_some]
      cases first : Padding.padWith a config K.zero <;> cases first' :
        Padding.padWith b config K.zero <;>
        simp only [first, first', Option.map_some, Option.map_none, Option.some.injEq,
          reduceCtorEq] at same
      · rfl
      · rename_i p p'
        simp only [Option.bind_some]
        cases second : Padding.padWith (a.map fun x => K.plusOne (K.timesZero x)) config K.zero <;>
          cases second' : Padding.padWith (b.map fun x => K.plusOne (K.timesZero x))
            config K.zero <;>
          simp only [second, second', Option.map_some, Option.map_none, Option.some.injEq,
            reduceCtorEq] at masks
        · rfl
        · rename_i q q'
          simp only [Option.bind_some]
          refine map_lazy (f := fun r => .real (r.map (K.cast dtype))) (g := (true, ·))
            (fun _ => rfl) ?_
          have mapped : (q.map K.nonzero).shape = (q'.map K.nonzero).shape := masks
          rw [whereElse_shape, whereElse_shape, same, mapped, shape, shape']

def Static (out : Dtype) : NodeOp → List Spec → Prop
  | .prim _ _, _ => True
  | .slice _ _ _, specs => ∃ a, specs = [a] ∧ a.2 = out
  | .putSlice _, specs => ∃ a b, specs = [a, b] ∧
      (out.isComplex = true ∨ a.2.isComplex = false ∧ b.2.isComplex = false)

theorem forall₂_one {β γ : Type} {R : β → γ → Prop} {a : β} {l : List γ}
    (h : List.Forall₂ R [a] l) :
    ∃ x, R a x ∧ l = [x] := by
  obtain ⟨x, rest, here, tail, rfl⟩ := List.forall₂_cons_left_iff.mp h
  rw [List.forall₂_nil_left_iff.mp tail]
  exact ⟨x, here, rfl⟩

theorem forall₂_two {β γ : Type} {R : β → γ → Prop} {a b : β} {l : List γ}
    (h : List.Forall₂ R [a, b] l) :
    ∃ x y, R a x ∧ R b y ∧ l = [x, y] := by
  obtain ⟨x, rest, here, tail, rfl⟩ := List.forall₂_cons_left_iff.mp h
  obtain ⟨y, there, rfl⟩ := forall₂_one tail
  exact ⟨x, y, here, there, rfl⟩

theorem apply_lazy {op : NodeOp} {specs : List Spec} {vs ws : List (Value α)} {shape : List Nat}
    {dtype : Dtype} (static : Static dtype op specs) (given : List.Forall₂ (OfSpec K.of) specs vs)
    (given' : List.Forall₂ (OfSpec K.of) specs ws) :
    (applyOp K.sem [] op vs shape dtype).toOption.map kind =
      (applyOp K.sem [] op ws shape dtype).toOption.map kind := by
  have orFault_toOption (x : Option (Value α)) : (orFault x).toOption = x := by cases x <;> rfl
  cases op with
  | prim p attrs =>
    simp only [applyOp, orFault_toOption]
    exact K.lazy p attrs shape dtype given given'
  | slice starts lengths strides =>
    obtain ⟨a, rfl, rfl⟩ := static
    obtain ⟨v, here, rfl⟩ := forall₂_one given
    obtain ⟨w, here', rfl⟩ := forall₂_one given'
    simp only [applyOp]
    cases resolveStarts K.sem [] [] starts with
    | error e => rfl
    | ok starts =>
      simpa [bind, Except.bind, orFault_toOption, Kernels.sem] using slice_lazy here here' starts
        lengths strides
  | putSlice starts =>
    obtain ⟨a, b, rfl, plain⟩ := static
    obtain ⟨v, x, here, part, rfl⟩ := forall₂_two given
    obtain ⟨w, y, here', part', rfl⟩ := forall₂_two given'
    simp only [applyOp]
    cases resolveStarts K.sem [] [] starts with
    | error e => rfl
    | ok starts =>
      simpa [bind, Except.bind, orFault_toOption, Kernels.sem] using put_lazy here here' part part'
        starts plain

end

/-- A start as Nx passes it: an integer, an integer that became a scalar, or a scalar tensor. -/
inductive StartArg where
  | integer (n : Int)
  | constant (dtype : Dtype) (n : Int)
  | tensor (k : Nat)
  deriving DecidableEq, Repr

inductive ScalarArg where
  | constant (dtype : Dtype) (x : Number)
  | tensor (k : Nat)
  deriving DecidableEq, Repr

/-- A call of one of the operations that are both eager and lowered. Tensors are named by their position. -/
inductive Call where
  | op (op : Op) (args : List Nat)
  | slice (a : Nat) (starts : List StartArg) (lengths strides : List Nat)
  | putSlice (a : Nat) (starts : List StartArg) (slice : Nat)
  | pad (a : Nat) (value : ScalarArg) (config : List (Int × Int × Nat))
  | windowScatter (op : WindowScatterOp) (a source : Nat) (init : ScalarArg)
      (window strides : List Nat)
      (padding : List (Int × Int))
  deriving DecidableEq, Repr

def startNumber (K : Kernels α) (ts : List (Buffer K)) : StartArg → Option Int
  | .integer n => some n
  | .constant _ n => some n
  | .tensor k => do
      let s ← ts[k]?
      if s.shape = [] then item K.int s.value else none

/-- `Nx.to_number` of a scalar, also of one that Nx made of a number. -/
def scalarNumber (K : Kernels α) (ts : List (Buffer K)) : ScalarArg → Option Number
  | .constant dtype x => K.toNumber dtype (K.scalar dtype x)
  | .tensor k => do
      let s ← ts[k]?
      if s.shape = [] then K.toNumber s.dtype s.tensor.data else none

namespace Backend

def normalizeOptAxes (axes : Option (List Int)) (rank : Nat) : List Int :=
  match axes with
  | none => allAxes rank
  | some axes => axes.map (normalizeAxis · rank)

/-- The attributes that each callback ships, from the first tensor's rank and the shape of `out`.
    `normalize_axis` and `normalize_axes` are the functions of lowering.ex. -/
def attrs (rank : Nat) (shape : List Nat) : Op → List (String × Json)
  | .binary _ | .comparison _ | .unary _ => []
  | .eye => []
  | .iota axis =>
      [("axis", (axis.map fun axis => Json.int (normalizeAxis axis shape.length)).getD .null)]
  | .asType | .bitcast => []
  | .reshape => [("shape", wireNats shape)]
  | .squeeze axes => [("axes", jsonInts (normalizeAxes (some axes) rank))]
  | .broadcast shape axes => [("shape", wireNats shape), ("axes", wireNats axes)]
  | .transpose axes => [("axes", wireNats axes)]
  | .reverse axes => [("axes", jsonInts (normalizeAxes (some axes) rank))]
  | .dot contractLeft batchLeft contractRight batchRight =>
      [("contract_left", wireNats contractLeft), ("contract_right", wireNats contractRight),
        ("batch_left", wireNats batchLeft), ("batch_right", wireNats batchRight)]
  | .clip | .select => []
  | .gather axes => [("axes", jsonInts (normalizeOptAxes axes rank))]
  | .concatenate axis => [("axis", .int (normalizeAxis axis shape.length))]
  | .stack axis => [("axis", .int (normalizeAxis axis shape.length))]
  | .reduction _ axes keepAxes =>
      [("axes", jsonInts (normalizeAxes axes rank)), ("keep_axes", .bool keepAxes)]
  | .argReduce _ axis keepAxis tieBreak =>
      [("axis", (axis.map fun axis => Json.int (normalizeAxis axis rank)).getD .null),
        ("keep_axis", .bool keepAxis), ("tie_break", .str (tieBreak.getD .low).name)]
  | .sort _ axis direction =>
      [("axis", .int (normalizeAxis (axis.getD 0) rank)),
        ("descending", .bool (direction == some .desc))]
  | .window _ window opts =>
      [("window", wireNats window), ("strides", wireNats opts.strides),
        ("padding", jsonPairs opts.padding), ("window_dilations", wireNats opts.windowDilations)]
  | .indexed _ axes => [("axes", jsonInts (normalizeOptAxes axes rank))]
  | .conv opts =>
      [("strides", wireNats opts.strides), ("padding", jsonPairs opts.padding),
        ("input_dilation", wireNats opts.inputDilation),
        ("kernel_dilation", wireNats opts.kernelDilation),
        ("feature_group_size", wireNat opts.featureGroupSize),
        ("batch_group_size", wireNat opts.batchGroupSize),
        ("input_permutation", wireNats opts.inputPermutation),
        ("kernel_permutation", wireNats opts.kernelPermutation),
        ("output_permutation", wireNats opts.outputPermutation)]
  | .triangularSolve transformA leftSide lower =>
      [("transform_a", .str (transformA.getD .none).name),
        ("left_side", .bool (leftSide != some false)), ("lower", .bool (lower != some false))]
  | .fft _ length axis => [("length", wireNat length), ("axis", .int (normalizeAxis axis rank))]

def padAttrs (config : List (Int × Int × Nat)) (value : Number) : List (String × Json) :=
  [("config", .arr (config.map fun c => jsonInts [c.1, c.2.1, c.2.2])),
    ("value", encodeNumber value)]

def windowScatterAttrs (init : Number) (window strides : List Nat) (padding : List (Int × Int)) :
    List (String × Json) :=
  [("init", encodeNumber init), ("window", wireNats window), ("strides", wireNats strides),
    ("padding", jsonPairs padding)]

def clamped (ns : List Int) (dims lengths : List Nat) : List StartSpec :=
  List.zipWith (fun n (d : Nat × Nat) => .static (max 0 (min n (d.1 - d.2)))) ns (dims.zip lengths)

def crops (config : List (Int × Int × Nat)) : Bool := config.any fun c => c.1 < 0 || c.2.1 < 0

def pad (K : Kernels α) (out : Spec) (a : Buffer K) (value : Number)
    (config : List (Int × Int × Nat)) : Option (Buffer K) :=
  if crops config then do
    let pos := config.map fun c => (max c.1 0, max c.2.1 0, c.2.2)
    let interShape := List.zipWith (fun (d : Nat) (c : Int × Int × Nat) => (d + c.1 + c.2.1).toNat)
      a.shape pos
    let padded ← runNode K (.prim .pad (padAttrs pos value)) (interShape, out.2) [a]
    runNode K (.slice (config.map fun c => .static (max (-c.1) 0)) out.1
      (List.replicate out.1.length 1)) out [padded]
  else runNode K (.prim .pad (padAttrs config value)) out [a]

end Backend

/-- The callbacks of backend.ex, for a result of the spec `out`. -/
def eager (K : Kernels α) (ts : List (Buffer K)) (out : Spec) : Call → Option (Buffer K)
  | .op o args => do
      let inputs ← args.mapM (ts[·]?)
      let rank := (inputs.head?.map (·.shape.length)).getD 0
      runNode K (.prim o.prim (Backend.attrs rank out.1 o)) out inputs
  | .slice a starts lengths strides => do
      let t ← ts[a]?
      let ns ← starts.mapM (startNumber K ts)
      runNode K (.slice (Backend.clamped ns t.shape lengths) lengths strides) out [t]
  | .putSlice a starts slice => do
      let t ← ts[a]?
      let s ← ts[slice]?
      let ns ← starts.mapM (startNumber K ts)
      runNode K (.putSlice (ns.map .static)) out [t, s]
  | .pad a value config => do
      let t ← ts[a]?
      let x ← scalarNumber K ts value
      Backend.pad K out t x config
  | .windowScatter o a source init window strides padding => do
      let t ← ts[a]?
      let s ← ts[source]?
      let x ← scalarNumber K ts init
      runNode K (.prim (.windowScatter o) (Backend.windowScatterAttrs x window strides padding)) out
        [t, s]

end NxTinygrad.Eager
