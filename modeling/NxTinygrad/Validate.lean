import NxTinygrad.Graph

/- graph.py: what the worker checks of a graph before it compiles it. -/
namespace NxTinygrad.Validate
open IR

def maxNodes : Nat := 200000
def maxRank : Nat := 16

def supportedOps : List String :=
  -- _UNARY
  ["negate", "abs", "exp", "expm1", "log", "log1p", "sqrt", "rsqrt", "tanh", "sigmoid", "sin",
    "cos", "tan", "asin", "acos", "atan", "sinh", "cosh", "asinh", "acosh", "atanh", "erf", "erfc",
    "erf_inv", "conjugate", "cbrt", "sign", "round", "is_nan", "is_infinity", "bitwise_not",
    "floor", "ceil"] ++
  -- _BINARY
  ["add", "subtract", "multiply", "divide", "pow", "max", "min", "remainder", "quotient", "atan2",
    "bitwise_and", "bitwise_or", "bitwise_xor", "left_shift", "right_shift", "logical_and",
    "logical_or", "logical_xor"] ++
  -- _COMPARISON
  ["equal", "not_equal", "less", "less_equal", "greater", "greater_equal"] ++
  ["select", "sum", "product", "reduce_max", "reduce_min", "all", "any", "argmax", "argmin"] ++
  ["window_sum", "window_max", "window_min", "window_product"] ++
  ["window_scatter_max", "window_scatter_min"] ++
  ["count_leading_zeros", "population_count"] ++
  ["reshape", "squeeze", "broadcast", "transpose", "reverse", "concatenate", "slice", "as_type",
    "bitcast", "dot", "conv"] ++
  ["triangular_solve"] ++
  ["pad", "sort", "argsort", "gather", "iota", "clip", "stack", "eye"] ++
  ["put_slice", "indexed_add", "indexed_put"] ++
  ["while"] ++
  ["fft", "ifft", "real", "imag"] ++
  ["reduce", "window_reduce"]

def shape? (j : Json) : Option (List Nat) :=
  j.items?.bind fun items =>
    if items.length ≤ maxRank then items.mapM Json.nat? else none

def subGraphKeys : List String := ["inputs", "constants", "nodes", "outputs"]

/-- `_validate_subgraph`. `room` bounds the nesting that is followed, as the stack of the
    interpreter does. -/
def validateSubgraph : Nat → Json → Except PyError Unit
  | 0, _ => .error .recursionError
  | room + 1, sub => do
      check sub.isObj .subNotObject
      forEach (fun key => do
        let x ← getAttr sub key
        check x.items?.isSome (.subNotList key)) subGraphKeys
      let outputs ← getItem sub "outputs"
      check (decide (1 ≤ (outputs.items?.getD []).length)) .subNoOutputs
      let nodes ← getItem sub "nodes"
      forEach (fun node => do
        let op ← getAttr node "op"
        let supported ← isIn supportedOps op
        check supported (.unsupportedOp op)
        if op.str? = some "while" then do
          let attrs ← getItem node "attrs"
          let cond ← getAttr attrs "cond"
          validateSubgraph room cond
          let body ← getAttr attrs "body"
          validateSubgraph room body
        else .ok ()) (nodes.items?.getD [])

/-- `defined` and `specs`. A dtype that passed its check is one of the known names. -/
structure Table where
  defined : List Nat
  specs : List (Nat × List Nat × String)

def define (t : Table) (entity : String) (ident : Json) : Except PyError (Table × Nat) :=
  match ident.nat? with
  | none => .error (.graphValidation (.invalidId entity))
  | some id =>
      if t.defined.contains id then .error (.graphValidation (.duplicateId id entity))
      else .ok ({ t with defined := id :: t.defined }, id)

/-- The shape and dtype checks every entity goes through before it enters `specs`. -/
def checkSpec (entity : String) (j : Json) : Except PyError (List Nat × String) := do
  let shape ← getAttr j "shape"
  check (shape? shape).isSome (.invalidShape entity)
  let dtype ← getAttr j "dtype"
  let supported ← isIn dtypeNames dtype
  check supported (.unsupportedDtype entity dtype)
  .ok ((shape? shape).getD [], dtype.str?.getD "")

def Table.record (t : Table) (id : Nat) (spec : List Nat × String) : Table :=
  { t with specs := (id, spec) :: t.specs }

def validateInput (t : Table) (inp : Json) : Except PyError Table := do
  let ident ← getAttr inp "id"
  let (t, id) ← define t "input" ident
  let index ← getAttr inp "index"
  check index.nat?.isSome .inputIndex
  let spec ← checkSpec "input" inp
  .ok (t.record id spec)

def checkData (blobs : List Blob) (const : Json) (spec : List Nat × String) :
    Except PyError Unit := do
  let index ← getItem const "data_index"
  check ((index.nat?).any fun i => decide (i < blobs.length)) (.dataIndexRange index)
  let expected := spec.1.prod * ((Dtype.ofName? spec.2).map (·.itemsize)).getD 0
  let actual := (blobs.getD (index.nat?.getD 0) []).length
  check (decide (actual = expected)) (.blobSize expected actual)

def validateConstant (blobs : List Blob) (t : Table) (const : Json) : Except PyError Table := do
  let ident ← getAttr const "id"
  let (t, id) ← define t "constant" ident
  let spec ← checkSpec "constant" const
  let hasValue := (const.field? "value").isSome
  let hasData := (const.field? "data_index").isSome
  check (hasValue != hasData) .valueAndData
  if hasData then checkData blobs const spec else .ok ()
  .ok (t.record id spec)

def checkRef (t : Table) (ref : Json) : Except PyError Unit := do
  let found ← isDefined t.defined ref
  check found (.undefinedRef ref)

def validateWhileOutput (t : Table) (out : Json) : Except PyError Table := do
  let ident ← getAttr out "id"
  let (t, id) ← define t "while output" ident
  let spec ← checkSpec "while output" out
  .ok (t.record id spec)

def foldTable (f : Table → Json → Except PyError Table) : Table → List Json → Except PyError Table
  | t, [] => .ok t
  | t, x :: rest => do
      let t ← f t x
      foldTable f t rest

def validateWhile (room : Nat) (t : Table) (node : Json) : Except PyError Table := do
  let outs ← getAttr node "outputs"
  check (decide (1 ≤ (outs.items?.getD []).length)) .whileWithoutOutputs
  let t ← foldTable validateWhileOutput t (outs.items?.getD [])
  let attrs ← getItem node "attrs"
  let cond ← getAttr attrs "cond"
  validateSubgraph room cond
  let body ← getAttr attrs "body"
  validateSubgraph room body
  .ok t

def foldOps : List String := ["reduce", "window_reduce"]

def validatePlain (room : Nat) (t : Table) (node : Json) (op : Json) : Except PyError Table := do
  let ident ← getAttr node "id"
  let (t, id) ← define t "node" ident
  let spec ← checkSpec "node" node
  if op.str?.any foldOps.contains then do
    let attrs ← getItem node "attrs"
    let fn ← getAttr attrs "fn"
    validateSubgraph room fn
  else .ok ()
  .ok (t.record id spec)

def validateNode (room : Nat) (t : Table) (node : Json) : Except PyError Table := do
  let op ← getAttr node "op"
  let supported ← isIn supportedOps op
  check supported (.unsupportedOp op)
  let inputs ← getAttr node "inputs"
  check inputs.items?.isSome .nodeInputsNotList
  forEach (checkRef t) (inputs.items?.getD [])
  let attrs ← getAttr node "attrs"
  check attrs.isObj .attrsNotObject
  if op.str? = some "while" then validateWhile room t node
  else validatePlain room t node op

def validateOutput (t : Table) (out : Json) : Except PyError Unit := do
  let ref ← getAttr out "node"
  let found ← isDefined t.defined ref
  check found (.undefinedOutput ref)
  let spec ← checkSpec "output" out
  match t.specs.lookup ((ref.number?.getD 0).toNat) with
  | none => .error .keyError
  | some expected => do
      check (decide (spec.1 = expected.1)) .outputShape
      check (decide (spec.2 = expected.2)) .outputDtype

/-- The list under a key that has been checked to be one. -/
def itemsOf (graph : Json) (key : String) : List Json :=
  ((graph.field? key).bind Json.items?).getD []

def isVersion (j : Json) : Bool := decide (j.number? = some version)

/-- `validate`, with room for any nesting the graph has. -/
def validate (graph : Json) (blobs : List Blob) (maxNodes : Nat) : Except PyError Unit := do
  check graph.isObj .notObject
  let found ← getAttr graph "version"
  check (isVersion found) (.version found)
  forEach (fun key => do
    let x ← getAttr graph key
    check x.items?.isSome (.notList key)) subGraphKeys
  check (decide ((itemsOf graph "nodes").length ≤ maxNodes)) (.tooManyNodes maxNodes)
  let t ← foldTable validateInput ⟨[], []⟩ (itemsOf graph "inputs")
  let indices := (itemsOf graph "inputs").map fun inp => (inp.field? "index").bind Json.nat?
  check (decide indices.Nodup) .inputIndicesNotUnique
  let t ← foldTable (validateConstant blobs) t (itemsOf graph "constants")
  let t ← foldTable (validateNode graph.depth) t (itemsOf graph "nodes")
  check (decide (1 ≤ (itemsOf graph "outputs").length)) .noOutputs
  forEach (validateOutput t) (itemsOf graph "outputs")

end NxTinygrad.Validate
