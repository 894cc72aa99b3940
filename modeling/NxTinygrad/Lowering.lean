import Mathlib.Logic.Function.Basic
import NxTinygrad.Expr

/- lowering.ex: from expressions to the graph IR, one traversal that threads its state. -/
namespace NxTinygrad.Lowering
open IR

/-- What the traversal raises. `noElement` is a projection past the end of its tuple, where
    `Enum.at` gives nil; `notInteger` a constant start that is no integer. Nx builds
    neither. -/
inductive Raised where
  | compileError (message operation : String) (shape : List Nat) (dtype hint : String)
  | functionClauseError
  | argumentError
  | noElement
  | notInteger
  deriving DecidableEq, Repr

/-- The map that the traversal threads. Lists are built in reverse. -/
structure State where
  ids : Ref → Option Nat
  counter : Nat
  inputs : List InputSpec
  constants : List Constant
  nodes : List Node
  blobs : List Blob
  blobCount : Nat
  paramBind : Option (List Nat)
  tuples : Ref → Option (List Nat)

def State.start (blobs : List Blob) (blobCount : Nat) : State :=
  ⟨fun _ => none, 0, [], [], [], blobs, blobCount, none, fun _ => none⟩

namespace State

def put (st : State) (ref : Ref) (id : Nat) : State :=
  { st with ids := Function.update st.ids ref (some id) }

def putTuple (st : State) (ref : Ref) (ids : List Nat) : State :=
  { st with tuples := Function.update st.tuples ref (some ids) }

def alloc (st : State) (ref : Ref) : State :=
  { st.put ref st.counter with counter := st.counter + 1 }

def addNode (st : State) (t : Tag) (op : NodeOp) (inputs : List Nat) : Nat × State :=
  (st.counter,
    { st.alloc t.ref with nodes := .op st.counter op inputs t.shape t.dtype :: st.nodes })

/-- `add_node` of a reduce or window_reduce, whose attributes hold a sub-graph. -/
def addFold (st : State) (t : Tag) (op : FoldOp) (fn : SubGraph) (inputs : List Nat) : Nat × State :=
  (st.counter,
    { st.alloc t.ref with nodes := .fold st.counter op fn inputs t.shape t.dtype :: st.nodes })

def addRawNode (st : State) (op : NodeOp) (inputs shape : List Nat) (dtype : Dtype) : Nat × State :=
  (st.counter,
    { st with counter := st.counter + 1, nodes := .op st.counter op inputs shape dtype :: st.nodes })

/-- The parameter of the enclosing block's default at `pos`. -/
def bound (st : State) (pos : Nat) : Option Nat := st.paramBind.bind (·[pos]?)

end State

/-- `lower`: an expression that was lowered before keeps its id. -/
def cached (t : Tag) (st : State) (lowerNew : State → Except Raised (Nat × State)) :
    Except Raised (Nat × State) :=
  match st.ids t.ref with
  | some id => .ok (id, st)
  | none => lowerNew st

def cachedTuple (t : Tag) (st : State) (lowerNew : State → Except Raised (List Nat × State)) :
    Except Raised (List Nat × State) :=
  match st.tuples t.ref with
  | some ids => .ok (ids, st)
  | none => do
      let (ids, st) ← lowerNew st
      .ok (ids, st.putTuple t.ref ids)

def unsupported (t : Tag) (op : String) : Raised :=
  .compileError ("unsupported Nx operation: " ++ op) op t.shape t.dtype.name
    ("operation " ++ op ++ " is not yet lowered by NxTinygrad in v0.1")

def unsupportedTuple (t : Tag) (op : String) : Raised :=
  .compileError ("elem projection from unsupported tuple source: " ++ op) op t.shape t.dtype.name
    "tuple projection supports tuple-valued blocks and while loops"

def Expr.name : Expr → String
  | .parameter _ _ => "parameter"
  | .constant _ _ => "constant"
  | .tensor _ _ => "tensor"
  | .metadata _ _ => "metadata"
  | .tuple _ => "tuple"
  | .elem _ _ _ => "elem"
  | .block _ _ _ => "block"
  | .cond _ _ _ => "cond"
  | .loop _ _ _ _ => "while"
  | .op _ o _ => o.prim.name
  | .reduce _ _ _ _ _ _ => "reduce"
  | .windowReduce _ _ _ _ _ _ _ _ => "window_reduce"
  | .slice _ _ _ _ _ => "slice"
  | .putSlice _ _ _ _ => "put_slice"
  | .pad _ _ _ _ => "pad"
  | .windowScatter _ o _ _ _ _ _ _ => (PrimOp.windowScatter o).name
  | .other _ name => name

def scalarConstant (op : String) : Expr → Except Raised Number
  | .metadata _ inner => scalarConstant op inner
  | .constant _ number => .ok number
  | .tensor _ tensor => match tensor.number with
      | some number => .ok number
      | none => .error .argumentError
  | .tuple _ => .error .functionClauseError
  | other => .error (.compileError (op ++ " requires a compile-time scalar constant value") op
      other.tag.shape other.tag.dtype.name "only scalar constant fill values are supported")

def Expr.strip : Expr → Expr
  | .metadata _ inner => inner.strip
  | e => e

/-- `classify_start`, without the expression of a dynamic start. -/
def classifyStart (e : Expr) : Except Raised (Option Number) :=
  match e.strip with
  | .constant _ number => .ok (some number)
  | .tensor _ tensor => match tensor.number with
      | some number => .ok (some number)
      | none => .error .argumentError
  | .tuple _ => .error .functionClauseError
  | _ => .ok none

/-- The start specs of a slice, after `k` dynamic starts. -/
def sliceStarts : Nat → List (Int ⊕ Expr) → List StartSpec
  | _, [] => []
  | k, .inl n :: rest => .static n :: sliceStarts k rest
  | k, .inr _ :: rest => .input k :: sliceStarts (k + 1) rest

/-- The start specs of a put_slice, after `k` dynamic starts. -/
def putSliceStarts : Nat → List Expr → Except Raised (List StartSpec)
  | _, [] => .ok []
  | k, s :: rest => do
      match ← classifyStart s with
      | some (.int n) => do
          let specs ← putSliceStarts k rest
          .ok (.static n :: specs)
      | some _ => .error .notInteger
      | none => do
          let specs ← putSliceStarts (k + 1) rest
          .ok (.input k :: specs)

/-- `lower_block`, given how its inputs and its default's outputs are lowered. -/
def lowerBlock (inputs outputs : State → Except Raised (List Nat × State)) (st : State) :
    Except Raised (List Nat × State) := do
  let (inputIds, st) ← inputs st
  let (ids, st') ← outputs { st with paramBind := some inputIds }
  .ok (ids, { st' with paramBind := st.paramBind })

/-- `lower_isolated`, given how its outputs are lowered. -/
def lowerIsolated (outputs : State → Except Raised (List OutputSpec × State)) (st : State) :
    Except Raised (SubGraph × State) := do
  let (specs, sub) ← outputs (.start st.blobs st.blobCount)
  .ok (.mk sub.inputs.reverse sub.constants.reverse sub.nodes.reverse specs,
    { st with blobs := sub.blobs, blobCount := sub.blobCount })

def outputSpec (e : Expr) (id : Nat) : OutputSpec := ⟨id, e.tag.shape, e.tag.dtype⟩

def whileOutputs : Nat → List Expr → List WhileOutput
  | _, [] => []
  | id, e :: rest => ⟨id, e.tag.shape, e.tag.dtype⟩ :: whileOutputs (id + 1) rest

def addWhile (st : State) (initIds : List Nat) (cond body : SubGraph) (exprs : List Expr) :
    Except Raised (List Nat × State) :=
  let outputs := whileOutputs st.counter exprs
  if exprs.isEmpty then .error .argumentError
  else .ok (outputs.map (·.id),
    { st with
      counter := st.counter + exprs.length
      nodes := .loop initIds cond body outputs :: st.nodes })

def selectOp : NodeOp := .prim .select []

def selectChain (t : Tag) (i : Nat) : List (Nat × List Nat) → Nat → State → Except Raised (Nat × State)
  | [], elseId, st => .ok (elseId, st)
  | (predId, exprIds) :: rest, elseId, st => do
      let (elseId, st) ← selectChain t i rest elseId st
      match exprIds[i]? with
      | none => .error .noElement
      | some exprId => .ok (st.addRawNode selectOp [predId, exprId, elseId] t.shape t.dtype)

/-- The positions of a tuple-valued cond from `i` on, with their default ids. -/
def selectChains (clauses : List (Nat × List Nat)) :
    Nat → List (Expr × Nat) → State → Except Raised (List Nat × State)
  | _, [], st => .ok ([], st)
  | i, (e, defaultId) :: rest, st => do
      let (id, st) ← selectChain e.tag i clauses defaultId st
      let (ids, st) ← selectChains clauses (i + 1) rest st
      .ok (id :: ids, st)

def lowerParameter (t : Tag) (pos : Nat) (st : State) : Except Raised (Nat × State) :=
  match st.bound pos with
  | some id => .ok (id, st.put t.ref id)
  | none => .ok (st.counter,
      { st.alloc t.ref with inputs := ⟨st.counter, pos, t.shape, t.dtype⟩ :: st.inputs })

def lowerConstant (t : Tag) (number : Number) (st : State) : Except Raised (Nat × State) :=
  .ok (st.counter, { st.alloc t.ref with
    constants := ⟨st.counter, .value (encodeNumber number), t.shape, t.dtype⟩ :: st.constants })

def lowerTensor (t : Tag) (tensor : Literal) (st : State) : Except Raised (Nat × State) :=
  .ok (st.counter, { st.alloc t.ref with
    constants := ⟨st.counter, .data st.blobCount, t.shape, t.dtype⟩ :: st.constants
    blobs := tensor.binary :: st.blobs
    blobCount := st.blobCount + 1 })

mutual
/-- `lower`, with the clauses of `lower_new`. With `bare`, what is under the metadata of the
    expression is lowered, as for a start that `classify_start` took apart. -/
def lower : Bool → Expr → State → Except Raised (Nat × State)
  | _, .parameter t pos, st => cached t st (lowerParameter t pos)
  | _, .constant t number, st => cached t st (lowerConstant t number)
  | _, .tensor t tensor, st => cached t st (lowerTensor t tensor)
  | true, .metadata _ inner, st => lower true inner st
  | false, .metadata t inner, st => cached t st fun st => do
      let (id, st) ← lower false inner st
      .ok (id, st.put t.ref id)
  | _, .tuple _, _ => .error .functionClauseError
  | _, .elem t src index, st => cached t st fun st => do
      let (ids, st) ← lowerTuple src st
      match ids[index]? with
      | none => .error .noElement
      | some id => .ok (id, st.put t.ref id)
  | _, .block t inputs (.tuple outputs), st => cached t st fun st => do
      let (ids, st) ← cachedTuple t st
        (lowerBlock (fun st => lowerChildren inputs st) (fun st => lowerChildren outputs st))
      match ids.head? with
      | none => .error .argumentError
      | some id => .ok (id, st)
  | _, .block t inputs default, st => cached t st fun st => do
      let (ids, st) ← lowerBlock (fun st => lowerChildren inputs st) (fun st => do
        let (id, st) ← lower false default st
        .ok ([id], st)) st
      match ids.head? with
      | none => .error .argumentError
      | some id => .ok (id, st.put t.ref id)
  | _, .cond t clauses default, st => cached t st fun st => do
      let (defaultId, st) ← lower false default st
      let (id, st) ← lowerClauses t clauses defaultId st
      .ok (id, st.put t.ref id)
  | _, .loop t _ _ _, st => cached t st fun _ => .error (unsupported t "while")
  | _, .op t op args, st => cached t st fun st =>
      if op.takes args.length then do
        let (ids, st) ← lowerChildren args st
        .ok (st.addNode t (.prim op.prim (op.attrs ((args.head?.map (·.rank)).getD 0) t.shape)) ids)
      else .error (unsupported t op.prim.name)
  | _, .reduce t tensor acc axes keepAxes body, st => cached t st fun st => do
      let (tensorId, st) ← lower false tensor st
      let (accId, st) ← lower false acc st
      let (fn, st) ← lowerIsolated (fun st => do
        let (id, st) ← lower false body st
        .ok ([outputSpec body id], st)) st
      .ok (st.addFold t (.reduce (normalizeAxes axes tensor.rank) keepAxes) fn [tensorId, accId])
  | _, .windowReduce t tensor acc window strides padding dilations body, st =>
      cached t st fun st => do
        let (tensorId, st) ← lower false tensor st
        let (accId, st) ← lower false acc st
        let (fn, st) ← lowerIsolated (fun st => do
          let (id, st) ← lower false body st
          .ok ([outputSpec body id], st)) st
        .ok (st.addFold t (.windowReduce window strides padding dilations) fn [tensorId, accId])
  | _, .slice t a starts lengths strides, st => cached t st fun st => do
      let (id, st) ← lower false a st
      let (dynIds, st) ← lowerDynamic starts st
      .ok (st.addNode t (.slice (sliceStarts 0 starts) lengths strides) (id :: dynIds))
  | _, .putSlice t a starts slice, st => cached t st fun st => do
      let (id, st) ← lower false a st
      let (sliceId, st) ← lower false slice st
      let specs ← putSliceStarts 0 starts
      let (dynIds, st) ← lowerStarts starts st
      .ok (st.addNode t (.putSlice specs) (id :: sliceId :: dynIds))
  | _, .pad t a value config, st => cached t st fun st => do
      let (id, st) ← lower false a st
      let number ← scalarConstant "pad" value
      .ok (st.addNode t (.prim .pad (padAttrs config number)) [id])
  | _, .windowScatter t op a source init window strides padding, st => cached t st fun st => do
      let (id, st) ← lower false a st
      let (sourceId, st) ← lower false source st
      let number ← scalarConstant (PrimOp.windowScatter op).name init
      .ok (st.addNode t (.prim (.windowScatter op) (windowScatterAttrs number window strides padding))
        [id, sourceId])
  | _, .other t name, st => cached t st fun _ => .error (unsupported t name)

def lowerTuple : Expr → State → Except Raised (List Nat × State)
  | .tuple es, st => lowerChildren es st
  | .metadata _ inner, st => lowerTuple inner st
  | .block t inputs (.tuple outputs), st => cachedTuple t st
      (lowerBlock (fun st => lowerChildren inputs st) (fun st => lowerChildren outputs st))
  | .loop t init cond body, st => cachedTuple t st fun st => do
      let (initIds, st) ← lowerChildren init st
      let (condSub, st) ← lowerIsolated (fun st => do
        let (id, st) ← lower false cond st
        .ok ([outputSpec cond id], st)) st
      let (bodySub, st) ← lowerIsolated (fun st => lowerOutputs body st) st
      addWhile st initIds condSub bodySub body
  | .cond _ clauses (.tuple elems), st => do
      let (defaultIds, st) ← lowerChildren elems st
      let (clauseData, st) ← lowerTupleClauses clauses st
      selectChains clauseData 0 (elems.zip defaultIds) st
  | .cond _ _ _, _ => .error .argumentError
  | e, _ => .error (unsupportedTuple e.tag e.name)

def lowerChildren : List Expr → State → Except Raised (List Nat × State)
  | [], st => .ok ([], st)
  | e :: rest, st => do
      let (id, st) ← lower false e st
      let (ids, st) ← lowerChildren rest st
      .ok (id :: ids, st)

def lowerOutputs : List Expr → State → Except Raised (List OutputSpec × State)
  | [], st => .ok ([], st)
  | e :: rest, st => do
      let (id, st) ← lower false e st
      let (specs, st) ← lowerOutputs rest st
      .ok (outputSpec e id :: specs, st)

/-- The selects of a cond of tensors: `Enum.reduce` over the reversed clauses. -/
def lowerClauses (t : Tag) : List (Expr × Expr) → Nat → State → Except Raised (Nat × State)
  | [], elseId, st => .ok (elseId, st)
  | (pred, expr) :: rest, elseId, st => do
      let (elseId, st) ← lowerClauses t rest elseId st
      let (predId, st) ← lower false pred st
      let (exprId, st) ← lower false expr st
      .ok (st.addRawNode selectOp [predId, exprId, elseId] t.shape t.dtype)

def lowerTupleClauses : List (Expr × Expr) → State → Except Raised (List (Nat × List Nat) × State)
  | [], st => .ok ([], st)
  | (pred, .tuple es) :: rest, st => do
      let (predId, st) ← lower false pred st
      let (exprIds, st) ← lowerChildren es st
      let (data, st) ← lowerTupleClauses rest st
      .ok ((predId, exprIds) :: data, st)
  | (_, _) :: _, _ => .error .argumentError

def lowerDynamic : List (Int ⊕ Expr) → State → Except Raised (List Nat × State)
  | [], st => .ok ([], st)
  | .inl _ :: rest, st => lowerDynamic rest st
  | .inr e :: rest, st => do
      let (id, st) ← lower false e st
      let (ids, st) ← lowerDynamic rest st
      .ok (id :: ids, st)

def lowerStarts : List Expr → State → Except Raised (List Nat × State)
  | [], st => .ok ([], st)
  | e :: rest, st => do
      match ← classifyStart e with
      | some _ => lowerStarts rest st
      | none => do
          let (id, st) ← lower true e st
          let (ids, st) ← lowerStarts rest st
          .ok (id :: ids, st)
end

def toGraph (outputs : List Expr) : Except Raised Graph := do
  let (specs, st) ← lowerOutputs outputs (.start [] 0)
  .ok ⟨st.inputs.reverse, st.constants.reverse, st.nodes.reverse, specs, st.blobs.reverse⟩

end NxTinygrad.Lowering
