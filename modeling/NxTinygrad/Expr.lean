import Mathlib.Data.List.Sort
import NxTinygrad.Graph

/- The expressions the lowering takes, `%Nx.Tensor{data: %Nx.Defn.Expr{}}`, with the arguments
   Nx gives each operation and the attributes lowering.ex makes of them. -/
namespace NxTinygrad.Lowering
open IR

abbrev Ref := Nat

/-- What every expression carries: the `make_ref()` it was built with, its shape and its type.
    Types outside the dtype table, on which `Dtype.to_name!` raises, are left out. -/
structure Tag where
  ref : Ref
  shape : List Nat
  dtype : Dtype
  deriving DecidableEq, Repr

/-- `float m e` is the finite float `m * 2 ^ e`. -/
inductive Number where
  | int (n : Int)
  | float (m e : Int)
  | infinity
  | negInfinity
  | nan
  | complex (re im : Number)
  deriving DecidableEq, Repr

def Number.int? : Number → Option Int
  | .int n => some n
  | _ => none

def encodeNumber : Number → Json
  | .int n => .int n
  | .float m e => .float m e
  | .infinity => .str "Infinity"
  | .negInfinity => .str "-Infinity"
  | .nan => .str "NaN"
  | .complex re im => .obj [("re", encodeNumber re), ("im", encodeNumber im)]

/-- A baked-in tensor: what `Nx.to_binary` gives of it, and `Nx.to_number`, which raises
    unless it is a scalar. -/
structure Literal where
  binary : Blob
  number : Option Number

inductive TieBreak where
  | low | high
  deriving DecidableEq, Repr

inductive Direction where
  | asc | desc
  deriving DecidableEq, Repr

inductive Transform where
  | none | transpose
  deriving DecidableEq, Repr

structure WindowOpts where
  strides : List Nat
  padding : List (Int × Int)
  windowDilations : List Nat
  deriving DecidableEq, Repr

structure ConvOpts where
  strides : List Nat
  padding : List (Int × Int)
  inputDilation : List Nat
  kernelDilation : List Nat
  featureGroupSize : Nat
  batchGroupSize : Nat
  inputPermutation : List Nat
  kernelPermutation : List Nat
  outputPermutation : List Nat
  deriving DecidableEq, Repr

/-- The operations all of whose operands are expressions; an option that was not given is
    `none`. -/
inductive Op where
  | unary (op : UnaryOp)
  | binary (op : BinaryOp)
  | comparison (op : ComparisonOp)
  | select
  | clip
  | stack (axis : Int)
  | eye
  | reduction (op : ReduceOp) (axes : Option (List Int)) (keepAxes : Bool)
  | argReduce (op : ArgReduceOp) (axis : Option Int) (keepAxis : Bool) (tieBreak : Option TieBreak)
  | window (op : WindowOp) (window : List Nat) (opts : WindowOpts)
  | reshape
  | squeeze (axes : List Int)
  | broadcast (shape axes : List Nat)
  | transpose (axes : List Nat)
  | reverse (axes : List Int)
  | concatenate (axis : Int)
  | sort (op : SortOp) (axis : Option Int) (direction : Option Direction)
  | gather (axes : Option (List Int))
  | iota (axis : Option Int)
  | indexed (op : IndexedOp) (axes : Option (List Int))
  | triangularSolve (transformA : Option Transform) (leftSide lower : Option Bool)
  | asType
  | bitcast
  | fft (op : FftOp) (length : Nat) (axis : Int)
  | dot (contractLeft batchLeft contractRight batchRight : List Nat)
  | conv (opts : ConvOpts)
  deriving DecidableEq, Repr

/-- `tuple` is a plain Elixir tuple of expressions and `other` an operation that has no
    clause. A tuple-valued `block` or `cond` has tuples for its default and its branches. -/
inductive Expr where
  | parameter (t : Tag) (pos : Nat)
  | constant (t : Tag) (number : Number)
  | tensor (t : Tag) (tensor : Literal)
  | metadata (t : Tag) (inner : Expr)
  | tuple (es : List Expr)
  | elem (t : Tag) (src : Expr) (index : Nat)
  | block (t : Tag) (inputs : List Expr) (default : Expr)
  | cond (t : Tag) (clauses : List (Expr × Expr)) (default : Expr)
  | loop (t : Tag) (init : List Expr) (cond : Expr) (body : List Expr)
  | op (t : Tag) (op : Op) (args : List Expr)
  | reduce (t : Tag) (tensor acc : Expr) (axes : Option (List Int)) (keepAxes : Bool) (body : Expr)
  | windowReduce (t : Tag) (tensor acc : Expr) (window strides : List Nat)
      (padding : List (Nat × Nat)) (dilations : List Nat) (body : Expr)
  | slice (t : Tag) (a : Expr) (starts : List (Int ⊕ Expr)) (lengths strides : List Nat)
  | putSlice (t : Tag) (a : Expr) (starts : List Expr) (slice : Expr)
  | pad (t : Tag) (a value : Expr) (config : List (Int × Int × Nat))
  | windowScatter (t : Tag) (op : WindowScatterOp) (a source init : Expr) (window strides : List Nat)
      (padding : List (Int × Int))
  | other (t : Tag) (name : String)

def Expr.tag : Expr → Tag
  | .tuple _ => ⟨0, [], .f32⟩
  | .parameter t _ | .constant t _ | .tensor t _ | .metadata t _ | .elem t _ _ | .block t _ _
  | .cond t _ _ | .loop t _ _ _ | .op t _ _ | .reduce t _ _ _ _ _ | .windowReduce t _ _ _ _ _ _ _
  | .slice t _ _ _ _ | .putSlice t _ _ _ | .pad t _ _ _ | .windowScatter t _ _ _ _ _ _ _
  | .other t _ => t

def Expr.rank (e : Expr) : Nat := e.tag.shape.length

def normalizeAxis (axis : Int) (rank : Nat) : Int := if axis < 0 then axis + rank else axis

/-- `Enum.to_list(0..(rank - 1))`: for rank 0 the range runs down to -1. -/
def allAxes (rank : Nat) : List Int :=
  if rank = 0 then [0, -1] else (List.range rank).map fun (i : Nat) => (i : Int)

def normalizeAxes (axes : Option (List Int)) (rank : Nat) : List Int :=
  match axes with
  | none => if rank = 0 then [] else allAxes rank
  | some axes => (axes.map (normalizeAxis · rank)).insertionSort (· ≤ ·)

def jsonInts (ns : List Int) : Json := .arr (ns.map .int)

def jsonPairs (ps : List (Int × Int)) : Json := .arr (ps.map fun p => jsonInts [p.1, p.2])

def TieBreak.name : TieBreak → String
  | .low => "low"
  | .high => "high"

def Transform.name : Transform → String
  | .none => "none"
  | .transpose => "transpose"

def WindowOpts.attrs (window : List Nat) (opts : WindowOpts) : List (String × Json) :=
  [("window", wireNats window), ("strides", wireNats opts.strides),
    ("padding", jsonPairs opts.padding), ("window_dilations", wireNats opts.windowDilations)]

def ConvOpts.attrs (opts : ConvOpts) : List (String × Json) :=
  [("strides", wireNats opts.strides), ("padding", jsonPairs opts.padding),
    ("input_dilation", wireNats opts.inputDilation),
    ("kernel_dilation", wireNats opts.kernelDilation),
    ("feature_group_size", wireNat opts.featureGroupSize),
    ("batch_group_size", wireNat opts.batchGroupSize),
    ("input_permutation", wireNats opts.inputPermutation),
    ("kernel_permutation", wireNats opts.kernelPermutation),
    ("output_permutation", wireNats opts.outputPermutation)]

def Op.prim : Op → PrimOp
  | .unary op => .unary op
  | .binary op => .binary op
  | .comparison op => .comparison op
  | .select => .select
  | .clip => .clip
  | .stack _ => .stack
  | .eye => .eye
  | .reduction op _ _ => .reduction op
  | .argReduce op _ _ _ => .argReduce op
  | .window op _ _ => .window op
  | .reshape => .reshape
  | .squeeze _ => .squeeze
  | .broadcast _ _ => .broadcast
  | .transpose _ => .transpose
  | .reverse _ => .reverse
  | .concatenate _ => .concatenate
  | .sort op _ _ => .sort op
  | .gather _ => .gather
  | .iota _ => .iota
  | .indexed op _ => .indexed op
  | .triangularSolve _ _ _ => .triangularSolve
  | .asType => .asType
  | .bitcast => .bitcast
  | .fft op _ _ => .fft op
  | .dot _ _ _ _ => .dot
  | .conv _ => .conv

/-- The attributes of the `lower_new` clause of each operation, from the first operand's rank
    and the result's shape. -/
def Op.attrs (rank : Nat) (shape : List Nat) : Op → List (String × Json)
  | .unary _ | .binary _ | .comparison _ | .select | .clip | .eye | .asType | .bitcast => []
  | .stack axis | .concatenate axis => [("axis", .int (normalizeAxis axis shape.length))]
  | .reduction _ axes keepAxes =>
      [("axes", jsonInts (normalizeAxes axes rank)), ("keep_axes", .bool keepAxes)]
  | .argReduce _ axis keepAxis tieBreak =>
      [("axis", (axis.map fun axis => Json.int (normalizeAxis axis rank)).getD .null),
        ("keep_axis", .bool keepAxis), ("tie_break", .str (tieBreak.getD .low).name)]
  | .window _ size opts => opts.attrs size
  | .reshape => [("shape", wireNats shape)]
  | .squeeze axes | .reverse axes => [("axes", jsonInts (normalizeAxes (some axes) rank))]
  | .broadcast shape axes => [("shape", wireNats shape), ("axes", wireNats axes)]
  | .transpose axes => [("axes", wireNats axes)]
  | .sort _ axis direction =>
      [("axis", .int (normalizeAxis (axis.getD 0) rank)),
        ("descending", .bool (direction == some .desc))]
  | .gather axes | .indexed _ axes =>
      [("axes", jsonInts ((axes.getD (allAxes rank)).map (normalizeAxis · rank)))]
  | .iota axis =>
      [("axis", (axis.map fun axis => Json.int (normalizeAxis axis shape.length)).getD .null)]
  | .triangularSolve transformA leftSide lower =>
      [("transform_a", .str (transformA.getD .none).name),
        ("left_side", .bool (leftSide != some false)), ("lower", .bool (lower != some false))]
  | .fft _ length axis => [("length", wireNat length), ("axis", .int (normalizeAxis axis rank))]
  | .dot contractLeft batchLeft contractRight batchRight =>
      [("contract_left", wireNats contractLeft), ("contract_right", wireNats contractRight),
        ("batch_left", wireNats batchLeft), ("batch_right", wireNats batchRight)]
  | .conv opts => opts.attrs

/-- Whether a `lower_new` clause matches that many operands. -/
def Op.takes : Op → Nat → Bool
  | .unary _, n | .reduction _ _ _, n | .argReduce _ _ _ _, n | .window _ _ _, n | .reshape, n
  | .squeeze _, n | .broadcast _ _, n | .transpose _, n | .reverse _, n | .sort _ _ _, n
  | .asType, n | .bitcast, n | .fft _ _ _, n => n == 1
  | .binary _, n | .comparison _, n | .gather _, n | .triangularSolve _ _ _, n | .dot _ _ _ _, n
  | .conv _, n => n == 2
  | .select, n | .clip, n | .indexed _ _, n => n == 3
  | .eye, n | .iota _, n => n == 0
  | .stack _, _ | .concatenate _, _ => true

def padAttrs (config : List (Int × Int × Nat)) (value : Number) : List (String × Json) :=
  [("config", .arr (config.map fun c => jsonInts [c.1, c.2.1, c.2.2])),
    ("value", encodeNumber value)]

/-- The attributes of a `window_scatter_max` or `window_scatter_min` node. -/
def windowScatterAttrs (init : Number) (window strides : List Nat) (padding : List (Int × Int)) :
    List (String × Json) :=
  [("init", encodeNumber init), ("window", wireNats window), ("strides", wireNats strides),
    ("padding", jsonPairs padding)]

end NxTinygrad.Lowering
