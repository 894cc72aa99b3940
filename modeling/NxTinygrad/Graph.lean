import NxTinygrad.Json

/- The graph IR of graph.ex: what the lowering emits, and its wire map. -/
namespace NxTinygrad.IR

inductive Dtype where
  | f16 | f32 | f64 | bf16 | c64 | c128 | s8 | s16 | s32 | s64 | u8 | u16 | u32 | u64
  deriving DecidableEq, Repr

def Dtype.all : List Dtype :=
  [.f16, .f32, .f64, .bf16, .c64, .c128, .s8, .s16, .s32, .s64, .u8, .u16, .u32, .u64]

def Dtype.name : Dtype → String
  | .f16 => "f16" | .f32 => "f32" | .f64 => "f64" | .bf16 => "bf16" | .c64 => "c64"
  | .c128 => "c128" | .s8 => "s8" | .s16 => "s16" | .s32 => "s32" | .s64 => "s64"
  | .u8 => "u8" | .u16 => "u16" | .u32 => "u32" | .u64 => "u64"

/-- Bytes of one element on the wire; bf16 rides on uint16. -/
def Dtype.itemsize : Dtype → Nat
  | .s8 | .u8 => 1
  | .f16 | .bf16 | .s16 | .u16 => 2
  | .f32 | .s32 | .u32 => 4
  | .f64 | .c64 | .s64 | .u64 => 8
  | .c128 => 16

def Dtype.isComplex : Dtype → Bool
  | .c64 | .c128 => true
  | _ => false

def dtypeNames : List String := Dtype.all.map Dtype.name

def Dtype.ofName? (name : String) : Option Dtype := Dtype.all.find? fun d => d.name = name

theorem dtype_mem_all (d : Dtype) : d ∈ Dtype.all := by cases d <;> decide

theorem dtype_ofName (d : Dtype) : Dtype.ofName? d.name = some d := by cases d <;> decide

theorem dtype_name_mem (d : Dtype) : d.name ∈ dtypeNames :=
  List.mem_map_of_mem (dtype_mem_all d)

inductive UnaryOp where
  | negate | abs | exp | expm1 | log | log1p | sqrt | rsqrt | tanh | sigmoid | sin | cos
  | tan | asin | acos | atan | sinh | cosh | asinh | acosh | atanh | erf | erfc | erfInv | cbrt
  | sign | round | conjugate | real | imag | countLeadingZeros | populationCount | isNan
  | isInfinity | bitwiseNot | floor | ceil
  deriving DecidableEq, Repr

inductive BinaryOp where
  | add | subtract | multiply | divide | pow | max | min | remainder | quotient | atan2
  | bitwiseAnd | bitwiseOr | bitwiseXor | leftShift | rightShift | logicalAnd | logicalOr
  | logicalXor
  deriving DecidableEq, Repr

inductive ComparisonOp where
  | equal | notEqual | less | lessEqual | greater | greaterEqual
  deriving DecidableEq, Repr

inductive ReduceOp where
  | sum | product | reduceMax | reduceMin | all | any
  deriving DecidableEq, Repr

inductive ArgReduceOp where
  | argmax | argmin
  deriving DecidableEq, Repr

inductive WindowOp where
  | windowSum | windowMax | windowMin | windowProduct
  deriving DecidableEq, Repr

inductive WindowScatterOp where
  | windowScatterMax | windowScatterMin
  deriving DecidableEq, Repr

inductive SortOp where
  | sort | argsort
  deriving DecidableEq, Repr

inductive IndexedOp where
  | indexedAdd | indexedPut
  deriving DecidableEq, Repr

inductive FftOp where
  | fft | ifft
  deriving DecidableEq, Repr

inductive PrimOp where
  | unary (op : UnaryOp)
  | binary (op : BinaryOp)
  | comparison (op : ComparisonOp)
  | reduction (op : ReduceOp)
  | argReduce (op : ArgReduceOp)
  | window (op : WindowOp)
  | windowScatter (op : WindowScatterOp)
  | sort (op : SortOp)
  | indexed (op : IndexedOp)
  | fft (op : FftOp)
  | select | clip | stack | eye | reshape | squeeze | broadcast | transpose | reverse
  | concatenate | pad | gather | iota | triangularSolve | asType | bitcast | dot | conv
  deriving DecidableEq, Repr

def UnaryOp.name : UnaryOp → String
  | .negate => "negate" | .abs => "abs" | .exp => "exp" | .expm1 => "expm1" | .log => "log"
  | .log1p => "log1p" | .sqrt => "sqrt" | .rsqrt => "rsqrt" | .tanh => "tanh"
  | .sigmoid => "sigmoid" | .sin => "sin" | .cos => "cos" | .tan => "tan" | .asin => "asin"
  | .acos => "acos" | .atan => "atan" | .sinh => "sinh" | .cosh => "cosh" | .asinh => "asinh"
  | .acosh => "acosh" | .atanh => "atanh" | .erf => "erf" | .erfc => "erfc"
  | .erfInv => "erf_inv" | .cbrt => "cbrt" | .sign => "sign" | .round => "round"
  | .conjugate => "conjugate" | .real => "real" | .imag => "imag"
  | .countLeadingZeros => "count_leading_zeros" | .populationCount => "population_count"
  | .isNan => "is_nan" | .isInfinity => "is_infinity" | .bitwiseNot => "bitwise_not"
  | .floor => "floor" | .ceil => "ceil"

def BinaryOp.name : BinaryOp → String
  | .add => "add" | .subtract => "subtract" | .multiply => "multiply" | .divide => "divide"
  | .pow => "pow" | .max => "max" | .min => "min" | .remainder => "remainder"
  | .quotient => "quotient" | .atan2 => "atan2" | .bitwiseAnd => "bitwise_and"
  | .bitwiseOr => "bitwise_or" | .bitwiseXor => "bitwise_xor" | .leftShift => "left_shift"
  | .rightShift => "right_shift" | .logicalAnd => "logical_and" | .logicalOr => "logical_or"
  | .logicalXor => "logical_xor"

def ComparisonOp.name : ComparisonOp → String
  | .equal => "equal" | .notEqual => "not_equal" | .less => "less" | .lessEqual => "less_equal"
  | .greater => "greater" | .greaterEqual => "greater_equal"

def ReduceOp.name : ReduceOp → String
  | .sum => "sum" | .product => "product" | .reduceMax => "reduce_max"
  | .reduceMin => "reduce_min" | .all => "all" | .any => "any"

def PrimOp.name : PrimOp → String
  | .unary op => op.name
  | .binary op => op.name
  | .comparison op => op.name
  | .reduction op => op.name
  | .argReduce .argmax => "argmax" | .argReduce .argmin => "argmin"
  | .window .windowSum => "window_sum" | .window .windowMax => "window_max"
  | .window .windowMin => "window_min" | .window .windowProduct => "window_product"
  | .windowScatter .windowScatterMax => "window_scatter_max"
  | .windowScatter .windowScatterMin => "window_scatter_min"
  | .sort .sort => "sort" | .sort .argsort => "argsort"
  | .indexed .indexedAdd => "indexed_add" | .indexed .indexedPut => "indexed_put"
  | .fft .fft => "fft" | .fft .ifft => "ifft"
  | .select => "select" | .clip => "clip" | .stack => "stack" | .eye => "eye"
  | .reshape => "reshape" | .squeeze => "squeeze" | .broadcast => "broadcast"
  | .transpose => "transpose" | .reverse => "reverse" | .concatenate => "concatenate"
  | .pad => "pad" | .gather => "gather" | .iota => "iota"
  | .triangularSolve => "triangular_solve" | .asType => "as_type" | .bitcast => "bitcast"
  | .dot => "dot" | .conv => "conv"

/-- One start index of a slice or put_slice. `symbolic` only occurs in rewritten while
    bodies inside the worker, never on the wire. -/
inductive StartSpec where
  | static (n : Int)
  | input (k : Nat)
  | symbolic (k : Nat)
  deriving DecidableEq, Repr

inductive NodeOp where
  | prim (op : PrimOp) (attrs : List (String × Json))
  | slice (starts : List StartSpec) (lengths strides : List Nat)
  | putSlice (starts : List StartSpec)
  deriving Repr

/-- The folds with a function of their own: `reduce` and `window_reduce`. -/
inductive FoldOp where
  | reduce (axes : List Int) (keepAxes : Bool)
  | windowReduce (window strides : List Nat) (padding : List (Nat × Nat)) (dilations : List Nat)
  deriving DecidableEq, Repr

structure InputSpec where
  id : Nat
  index : Nat
  shape : List Nat
  dtype : Dtype
  deriving DecidableEq, Repr

inductive ConstBody where
  | value (v : Json)
  | data (index : Nat)
  deriving Repr

structure Constant where
  id : Nat
  body : ConstBody
  shape : List Nat
  dtype : Dtype
  deriving Repr

structure OutputSpec where
  node : Nat
  shape : List Nat
  dtype : Dtype
  deriving DecidableEq, Repr

structure WhileOutput where
  id : Nat
  shape : List Nat
  dtype : Dtype
  deriving DecidableEq, Repr

mutual
inductive Node where
  | op (id : Nat) (op : NodeOp) (inputs shape : List Nat) (dtype : Dtype)
  | fold (id : Nat) (op : FoldOp) (fn : SubGraph) (inputs shape : List Nat) (dtype : Dtype)
  | loop (inputs : List Nat) (cond body : SubGraph) (outputs : List WhileOutput)

inductive SubGraph where
  | mk (inputs : List InputSpec) (constants : List Constant) (nodes : List Node)
      (outputs : List OutputSpec)
end

namespace SubGraph

def inputs : SubGraph → List InputSpec
  | .mk inputs _ _ _ => inputs

def constants : SubGraph → List Constant
  | .mk _ constants _ _ => constants

def nodes : SubGraph → List Node
  | .mk _ _ nodes _ => nodes

def outputs : SubGraph → List OutputSpec
  | .mk _ _ _ outputs => outputs

end SubGraph

def Node.inputs : Node → List Nat
  | .op _ _ inputs _ _ => inputs
  | .fold _ _ _ inputs _ _ => inputs
  | .loop inputs _ _ _ => inputs

def Node.definedIds : Node → List Nat
  | .op id _ _ _ _ => [id]
  | .fold id _ _ _ _ _ => [id]
  | .loop _ _ _ outputs => outputs.map (·.id)

abbrev Blob := List UInt8

def version : Nat := 1

structure Graph where
  inputs : List InputSpec
  constants : List Constant
  nodes : List Node
  outputs : List OutputSpec
  blobs : List Blob

/-! The wire map. -/

def wireNat (n : Nat) : Json := .int n

def wireNats (ns : List Nat) : Json := .arr (ns.map wireNat)

def StartSpec.toWire : StartSpec → Json
  | .static n => .obj [("static", .int n)]
  | .input k => .obj [("input", wireNat k)]
  | .symbolic k => .obj [("symbolic", wireNat k)]

def NodeOp.name : NodeOp → String
  | .prim op _ => op.name
  | .slice _ _ _ => "slice"
  | .putSlice _ => "put_slice"

def NodeOp.attrs : NodeOp → List (String × Json)
  | .prim _ attrs => attrs
  | .slice starts lengths strides =>
      [("starts", .arr (starts.map (·.toWire))), ("lengths", wireNats lengths),
        ("strides", wireNats strides)]
  | .putSlice starts => [("starts", .arr (starts.map (·.toWire)))]

def FoldOp.name : FoldOp → String
  | .reduce _ _ => "reduce"
  | .windowReduce _ _ _ _ => "window_reduce"

def FoldOp.attrs : FoldOp → List (String × Json)
  | .reduce axes keepAxes => [("axes", .arr (axes.map .int)), ("keep_axes", .bool keepAxes)]
  | .windowReduce window strides padding dilations =>
      [("window", wireNats window), ("strides", wireNats strides),
        ("padding", .arr (padding.map fun p => wireNats [p.1, p.2])),
        ("window_dilations", wireNats dilations)]

def InputSpec.toWire (s : InputSpec) : Json :=
  .obj [("id", wireNat s.id), ("index", wireNat s.index), ("shape", wireNats s.shape),
    ("dtype", .str s.dtype.name)]

def Constant.toWire (c : Constant) : Json :=
  .obj [("id", wireNat c.id),
    (match c.body with
      | .value v => ("value", v)
      | .data index => ("data_index", wireNat index)),
    ("shape", wireNats c.shape), ("dtype", .str c.dtype.name)]

def OutputSpec.toWire (s : OutputSpec) : Json :=
  .obj [("node", wireNat s.node), ("shape", wireNats s.shape), ("dtype", .str s.dtype.name)]

def WhileOutput.toWire (s : WhileOutput) : Json :=
  .obj [("id", wireNat s.id), ("shape", wireNats s.shape), ("dtype", .str s.dtype.name)]

mutual
def Node.toWire : Node → Json
  | .op id op inputs shape dtype =>
      .obj [("id", wireNat id), ("op", .str op.name), ("inputs", wireNats inputs),
        ("attrs", .obj op.attrs), ("shape", wireNats shape), ("dtype", .str dtype.name)]
  | .fold id op fn inputs shape dtype =>
      .obj [("id", wireNat id), ("op", .str op.name), ("inputs", wireNats inputs),
        ("attrs", .obj (("fn", fn.toWire) :: op.attrs)), ("shape", wireNats shape),
        ("dtype", .str dtype.name)]
  | .loop inputs cond body outputs =>
      .obj [("id", ((outputs.map (·.id)).head?.map wireNat).getD .null), ("op", .str "while"),
        ("inputs", wireNats inputs), ("attrs", .obj [("cond", cond.toWire), ("body", body.toWire)]),
        ("outputs", .arr (outputs.map (·.toWire)))]

def SubGraph.toWire : SubGraph → Json
  | .mk inputs constants nodes outputs =>
      .obj [("inputs", .arr (inputs.map (·.toWire))),
        ("constants", .arr (constants.map (·.toWire))), ("nodes", .arr (nodesToWire nodes)),
        ("outputs", .arr (outputs.map (·.toWire)))]

def nodesToWire : List Node → List Json
  | [] => []
  | n :: rest => n.toWire :: nodesToWire rest
end

def Graph.toWire (g : Graph) : Json :=
  .obj [("version", wireNat version), ("inputs", .arr (g.inputs.map (·.toWire))),
    ("constants", .arr (g.constants.map (·.toWire))), ("nodes", .arr (nodesToWire g.nodes)),
    ("outputs", .arr (g.outputs.map (·.toWire)))]

end NxTinygrad.IR
