import NxTinygrad.Graph
import NxTinygrad.Lib.StraightLine

/- Node-by-node evaluation, `_eval_nodes`, `_interpret` and `_run_while`, over any values.
   What the primitive operations compute is a parameter; exceptions they raise are `none`. -/
namespace NxTinygrad.Interpreter
open IR StraightLine

/-- A start index when the operation sees it: a literal, a scalar that was read, or a
    Variable standing for its bound value. -/
inductive Start where
  | static (n : Int)
  | read (n : Int)
  | bound (n : Nat)
  deriving DecidableEq, Repr

/-- The values and the primitive operations. `isTensor` is false for the wrapper `Cx`,
    which has no `realize` and no `item`. Of a reduce, `foldAcc` is the accumulator before
    the loop, `foldParts` what the loop runs over and `foldFinish` the reshape after it. -/
structure Sem (V : Type) where
  number : Json → List Nat → Dtype → Option V
  literal : Blob → List Nat → Dtype → Option V
  prim : PrimOp → List (String × Json) → List V → List Nat → Dtype → Option V
  slice : V → List Start → List Nat → List Nat → List Nat → Dtype → Option V
  putSlice : V → V → List Start → List Nat → Dtype → Option V
  isTensor : V → Bool
  item : V → Option Int
  truthy : V → Option Bool
  foldAcc : FoldOp → V → V → Option V
  foldParts : FoldOp → V → Option (List V)
  foldFinish : FoldOp → V → V → Option V

inductive EvalError where
  | missing (id : Nat)
  | fault
  | outOfFuel
  deriving DecidableEq, Repr

def orFault {α : Type} : Option α → Except EvalError α
  | some a => .ok a
  | none => .error .fault

variable {V : Type}

def makeConstant (S : Sem V) (blobs : List Blob) (c : Constant) : Except EvalError V :=
  match c.body with
  | .value v => orFault (S.number v c.shape c.dtype)
  | .data index => orFault (blobs[index]?.bind fun blob => S.literal blob c.shape c.dtype)

/-- One start of a slice or put_slice; `dyn` are the extra inputs, `sym` is `__sym__`. -/
def resolveStart (S : Sem V) (dyn : List V) (sym : List Nat) : StartSpec → Except EvalError Start
  | .static n => .ok (.static n)
  | .symbolic k => orFault (sym[k]?.map .bound)
  | .input k => orFault ((dyn[k]?.bind S.item).map .read)

def resolveStarts (S : Sem V) (dyn : List V) (sym : List Nat) :
    List StartSpec → Except EvalError (List Start)
  | [] => .ok []
  | spec :: rest => do
      let start ← resolveStart S dyn sym spec
      let starts ← resolveStarts S dyn sym rest
      .ok (start :: starts)

def applyOp (S : Sem V) (sym : List Nat) (op : NodeOp) (vs : List V) (shape : List Nat)
    (dtype : Dtype) : Except EvalError V :=
  match op, vs with
  | .prim op attrs, vs => orFault (S.prim op attrs vs shape dtype)
  | .slice starts lengths strides, t :: dyn => do
      let starts ← resolveStarts S dyn sym starts
      orFault (S.slice t starts lengths strides shape dtype)
  | .putSlice starts, t :: sl :: dyn => do
      let starts ← resolveStarts S dyn sym starts
      orFault (S.putSlice t sl starts shape dtype)
  | _, _ => .error .fault

def nodeReads : Node → List Nat
  | .op _ _ inputs _ _ => inputs
  | .fold _ _ _ inputs _ _ => inputs.take 2
  | .loop inputs _ _ _ => inputs

theorem nodeReads_sub {node : Node} {r : Nat} (mem : r ∈ nodeReads node) : r ∈ node.inputs := by
  cases node with
  | op => exact mem
  | fold => exact List.mem_of_mem_take mem
  | loop => exact mem

/-- `_interpret(fn, [acc, part])[0]` for one part after the other. -/
def foldParts (fn : List V → Except EvalError (List V)) : V → List V → Except EvalError V
  | acc, [] => .ok acc
  | acc, part :: rest => do
      let outs ← fn [acc, part]
      let acc ← orFault outs.head?
      foldParts fn acc rest

/-- The loop of `_run_while`, for at most `fuel` iterations. -/
def whileLoop (S : Sem V) (cond body : List V → Except EvalError (List V)) :
    Nat → List V → Except EvalError (List V)
  | fuel, state => do
      let outs ← cond state
      let go ← orFault (outs.head?.bind S.truthy)
      if go then
        match fuel with
        | 0 => .error .outOfFuel
        | fuel + 1 => do
            let next ← body state
            if next.all S.isTensor then whileLoop S cond body fuel next else .error .fault
      else .ok state

def bindParams (S : Sem V) (blobs : List Blob) (params : List V) (inputs : List InputSpec)
    (constants : List Constant) : Except EvalError (Env V) := do
  let values ← constants.mapM (makeConstant S blobs)
  let args ← inputs.mapM fun i => orFault params[i.index]?
  .ok (assign (assign (fun _ => none) (constants.map (·.id)) values) (inputs.map (·.id)) args)

mutual
/-- The results of one node, given the values it looks up. -/
def runNode (S : Sem V) (blobs : List Blob) (fuel : Nat) (sym : List Nat) :
    Node → List V → Except EvalError (List V)
  | .op _ op _ shape dtype, vs => do
      let v ← applyOp S sym op vs shape dtype
      .ok [v]
  | .fold _ op fn _ _ _, vs => do
      let t ← orFault vs[0]?
      let acc ← orFault vs[1]?
      let acc ← orFault (S.foldAcc op t acc)
      let parts ← orFault (S.foldParts op t)
      let acc ← foldParts (fun params => interpret S blobs fuel fn [] params) acc parts
      let v ← orFault (S.foldFinish op t acc)
      .ok [v]
  | .loop _ cond body _, state =>
      if state.all S.isTensor then
        whileLoop S (fun s => interpret S blobs fuel cond [] s)
          (fun s => interpret S blobs fuel body [] s) fuel state
      else .error .fault

def interpret (S : Sem V) (blobs : List Blob) (fuel : Nat) :
    SubGraph → List Nat → List V → Except EvalError (List V)
  | .mk inputs constants nodes outputs, sym, params => do
      let env ← bindParams S blobs params inputs constants
      let env ← evalNodes S blobs fuel sym nodes env
      fetch .missing env (outputs.map (·.node))

def evalNodes (S : Sem V) (blobs : List Blob) (fuel : Nat) (sym : List Nat) :
    List Node → Env V → Except EvalError (Env V)
  | [], env => .ok env
  | node :: rest, env => do
      let vs ← fetch .missing env (nodeReads node)
      let outs ← runNode S blobs fuel sym node vs
      evalNodes S blobs fuel sym rest (assign env node.definedIds outs)
end

theorem orFault_ok {β : Type} {o : Option β} {b : β} : orFault o = .ok b ↔ o = some b := by
  cases o <;> simp [orFault]

theorem except_bind_ok {β γ : Type} {x : Except EvalError β} {f : β → Except EvalError γ} {c : γ} :
    (x >>= f) = .ok c ↔ ∃ b, x = .ok b ∧ f b = .ok c := by
  cases x with
  | error e => simp [bind, Except.bind]
  | ok b => simp [bind, Except.bind]

theorem mapM_length {α β : Type} {f : α → Except EvalError β} {xs : List α} {ys : List β}
    (all : xs.mapM f = .ok ys) : ys.length = xs.length := by
  induction xs generalizing ys with
  | nil =>
    cases all
    rfl
  | cons x rest ih =>
    simp only [List.mapM_cons, except_bind_ok, pure, Except.pure, Except.ok.injEq] at all
    obtain ⟨y, _, zs, tail, rfl⟩ := all
    simp [ih tail]

section
variable {S : Sem V} {blobs : List Blob} {fuel : Nat} {sym : List Nat}

theorem evalNodes_cons {node : Node} {rest : List Node} {env out : Env V} :
    evalNodes S blobs fuel sym (node :: rest) env = .ok out ↔ ∃ vs outs,
      fetch EvalError.missing env (nodeReads node) = .ok vs ∧
      runNode S blobs fuel sym node vs = .ok outs ∧
        evalNodes S blobs fuel sym rest (assign env node.definedIds outs) = .ok out := by
  simp only [evalNodes, except_bind_ok]
  constructor
  · rintro ⟨vs, reads, outs, ran, tail⟩
    exact ⟨vs, outs, reads, ran, tail⟩
  · rintro ⟨vs, outs, reads, ran, tail⟩
    exact ⟨vs, reads, outs, ran, tail⟩

theorem bindParams_ok {params : List V} {inputs : List InputSpec}
    {constants : List Constant} {env : Env V} :
    bindParams S blobs params inputs constants = .ok env ↔ ∃ values args,
      constants.mapM (makeConstant S blobs) = .ok values ∧
        inputs.mapM (fun i => orFault params[i.index]?) = .ok args ∧
        assign (assign (fun _ => none) (constants.map (·.id)) values)
        (inputs.map (·.id)) args = env := by
  simp only [bindParams, except_bind_ok, Except.ok.injEq]
  constructor
  · rintro ⟨values, made, args, given, same⟩
    exact ⟨values, args, made, given, same⟩
  · rintro ⟨values, args, made, given, same⟩
    exact ⟨values, made, args, given, same⟩

theorem interpret_ok {body : SubGraph} {params outs : List V} :
    interpret S blobs fuel body sym params = .ok outs ↔ ∃ env final,
      bindParams S blobs params body.inputs body.constants = .ok env ∧
        evalNodes S blobs fuel sym body.nodes env = .ok final ∧
        fetch EvalError.missing final (body.outputs.map (·.node)) = .ok outs := by
  cases body with
  | mk inputs constants nodes outputs =>
    simp only [interpret, except_bind_ok, SubGraph.inputs, SubGraph.constants, SubGraph.nodes,
      SubGraph.outputs]
    constructor
    · rintro ⟨env, bound, final, ran, read⟩
      exact ⟨env, final, bound, ran, read⟩
    · rintro ⟨env, final, bound, ran, read⟩
      exact ⟨env, bound, final, ran, read⟩

end

def instr (S : Sem V) (blobs : List Blob) (fuel : Nat) (sym : List Nat) (node : Node) :
    Instr V EvalError :=
  ⟨nodeReads node, node.definedIds, runNode S blobs fuel sym node⟩

theorem evalNodes_eq_execAll (S : Sem V) (blobs : List Blob) (fuel : Nat) (sym : List Nat)
    (nodes : List Node) (env : Env V) : evalNodes S blobs fuel sym nodes env =
      execAll .missing (nodes.map (instr S blobs fuel sym)) env := by
  induction nodes generalizing env with
  | nil => simp [evalNodes, execAll]
  | cons node rest ih =>
    simp only [evalNodes, List.map_cons, execAll, exec, instr, bind, Except.bind]
    cases fetch EvalError.missing env (nodeReads node) with
    | error e => rfl
    | ok vs =>
      dsimp only
      cases runNode S blobs fuel sym node vs with
      | error e => rfl
      | ok outs => exact ih _

end NxTinygrad.Interpreter
