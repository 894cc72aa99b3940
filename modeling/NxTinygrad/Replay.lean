import NxTinygrad.Lib.Buffers
import NxTinygrad.Lib.Watched
import NxTinygrad.SymbolicStep

/- Evaluation as it happens in the worker: tensors are buffers, views of buffers or still to
   be computed, and the step of a while, captured once, writes its results into the same
   buffers on every replay. What the step computes from its arguments is the matter of
   `SymbolicStep`; here it is the body. -/
namespace NxTinygrad.Replay
open IR StraightLine Interpreter Capture SymbolicStep Watch Buffers

/-- A while node and how many outputs its step has; `path` stands for `id(node)`. -/
structure Site where
  path : List Nat
  width : Nat
  deriving DecidableEq, Repr

/-- A TinyJit: how often it was called, and the output buffers its second call fixed. -/
structure Jit where
  calls : Nat
  outs : List Nat

/-- The buffers of the device and `_while_steps`. -/
structure Machine (V : Type) where
  store : Store V
  jits : Site → Jit

def Machine.fresh (V : Type) : Machine V := ⟨⟨fun _ => none, 0⟩, fun _ => ⟨0, []⟩⟩

structure Views where
  op : NodeOp → Bool
  fold : FoldOp → Bool

variable {V : Type}

abbrev Cells (V : Type) := List (Cell V) × Machine V

def resultCell (isView : Bool) (f : List V → Option V) (cs : List (Cell V)) : Cell V :=
  match isView, cs with
  | true, [.buffer a] => .view a fun v => f [v]
  | true, [.view a g] => .view a fun v => (g v).bind fun w => f [w]
  | _, cs => .computed (combine f cs)

def readCell (m : Machine V) (c : Cell V) : Watched EvalError V :=
  lift (orFault (c.value m.store.heap))

def readCells (m : Machine V) (cs : List (Cell V)) : Watched EvalError (List V) :=
  lift (orFault (values m.store.heap cs))

def realize (m : Machine V) : Cell V → Watched EvalError (Cell V × Machine V)
  | .computed c => do
      let v ← readCell m (.computed c)
      let (cell, store) := m.store.alloc v
      pure (cell, { m with store := store })
  | c => pure (c, m)

def realizeAll (m : Machine V) : List (Cell V) → Watched EvalError (Cells V)
  | [] => pure ([], m)
  | c :: rest => do
      let (c, m) ← realize m c
      let (cs, m) ← realizeAll m rest
      pure (c :: cs, m)

def realizeState (S : Sem V) (m : Machine V) (cs : List (Cell V)) : Watched EvalError (Cells V) := do
  let (cs, m) ← realizeAll m cs
  let vs ← readCells m cs
  if vs.all S.isTensor then pure (cs, m) else lift (.error .fault)

/-- `operations.apply`: starts are read at once, the result is not computed yet. -/
def applyCells (S : Sem V) (views : Views) (m : Machine V) (op : NodeOp) (cs : List (Cell V))
    (shape : List Nat) (dtype : Dtype) : Watched EvalError (Cell V) :=
  match op, cs with
  | .prim p attrs, cs => pure (resultCell (views.op op) (fun vs => S.prim p attrs vs shape dtype) cs)
  | .slice starts lengths strides, t :: dyn => do
      let vs ← readCells m dyn
      let starts ← lift (resolveStarts S vs [] starts)
      pure (resultCell (views.op op)
        (fun vs => vs.head?.bind fun v => S.slice v starts lengths strides shape dtype) [t])
  | .putSlice starts, t :: sl :: dyn => do
      let vs ← readCells m dyn
      let starts ← lift (resolveStarts S vs [] starts)
      pure (resultCell (views.op op) (fun vs => match vs with
        | [v, w] => S.putSlice v w starts shape dtype
        | _ => none) [t, sl])
  | _, _ => lift (.error .fault)

/-- The buffers behind the entries of an env under `ids`. -/
def liveOf (env : Env (Cell V)) (ids : List Nat) : List Nat :=
  ids.flatMap fun id => ((env id).map Cell.foot).getD []

def keepInvariant (inv : Nat → Bool) : Nat → List V → List V
  | _, [] => []
  | j, c :: rest => if inv j then c :: keepInvariant inv (j + 1) rest
      else keepInvariant inv (j + 1) rest

def stepWidth (body : SubGraph) : Nat := (dropInvariant (invariant body) 0 body.outputs).length

/-- A call of the captured step. The first two calls put their results in new buffers, the
    second of them to stay; every later call overwrites these. `live` are the buffers that
    are still needed; overwriting one of them is what is watched. -/
def capturedStep (S : Sem V) (blobs : List Blob) (fuel : Nat) (site : Site) (body : SubGraph)
    (live : List Nat) (m : Machine V) (state : List (Cell V)) : Watched EvalError (Cells V) := do
  let vs ← readCells m state
  let outs ← lift (interpret S blobs fuel body [] vs)
  let results := dropInvariant (invariant body) 0 outs
  let jit := m.jits site
  if jit.calls < 2 then do
    let (cells, store) := m.store.allocAll results
    let jits := Function.update m.jits site ⟨jit.calls + 1, feet cells⟩
    let state ← lift (mergeState (invariant body) 0 state cells)
    pure (state, ⟨store, jits⟩)
  else do
    watch (jit.outs.all fun a =>
      !(live ++ feet (keepInvariant (invariant body) 0 state)).contains a)
    let store := m.store.writeAll jit.outs results
    let state ← lift (mergeState (invariant body) 0 state (jit.outs.map Cell.buffer))
    pure (state, { m with store := store })

def testCells (S : Sem V) (cond : List Nat → Machine V → List (Cell V) → Watched EvalError (Cells V))
    (live : List Nat) (m : Machine V) (state : List (Cell V)) :
      Watched EvalError (Bool × Machine V) := do
  let (outs, m) ← cond (live ++ feet state) m state
  let head ← lift (orFault outs.head?)
  let v ← readCell m head
  let go ← lift (orFault (S.truthy v))
  pure (go, m)

def loopCells (S : Sem V)
    (cond step : List Nat → Machine V → List (Cell V) → Watched EvalError (Cells V))
    (live : List Nat) : Nat → Machine V → List (Cell V) → Watched EvalError (Cells V)
  | fuel, m, state => do
      let (go, m) ← testCells S cond live m state
      if go then
        match fuel with
        | 0 => lift (.error .outOfFuel)
        | fuel + 1 => do
            let (next, m) ← step live m state
            let (next, m) ← realizeState S m next
            loopCells S cond step live fuel m next
      else pure (state, m)

/-- The loop of `_run_reduce`. The parts not yet folded are needed. -/
def foldCells (fn : List Nat → Machine V → List (Cell V) → Watched EvalError (Cells V))
    (live : List Nat) :
    Machine V → Cell V → List (Cell V) → Watched EvalError (Cell V × Machine V)
  | m, acc, [] => pure (acc, m)
  | m, acc, part :: rest => do
      let (outs, m) ← fn (live ++ feet rest) m [acc, part]
      let acc ← lift (orFault outs.head?)
      foldCells fn live m acc rest

def partCells (S : Sem V) (views : Views) (op : FoldOp) (t : Cell V) (count : Nat) : List (Cell V) :=
  (List.range count).map fun k =>
    resultCell (views.fold op) (fun vs => vs.head?.bind fun v => (S.foldParts op v).bind (·[k]?)) [t]

mutual
def runCells (S : Sem V) (blobs : List Blob) (fuel : Nat) (views : Views) (path live : List Nat)
    (m : Machine V) : Node → List (Cell V) → Watched EvalError (Cells V)
  | .op _ op _ shape dtype, cs => do
      let c ← applyCells S views m op cs shape dtype
      pure ([c], m)
  | .fold _ op fn _ _ _, cs => do
      let t ← lift (orFault cs[0]?)
      let acc ← lift (orFault cs[1]?)
      let v ← readCell m t
      let parts ← lift (orFault (S.foldParts op v))
      let start := resultCell (views.fold op) (fun vs => vs.head?.bind (S.foldAcc op v)) [acc]
      let (acc, m) ← foldCells
        (fun live m cs => interpretCells S blobs fuel views (0 :: path) live m fn cs) live m start
        (partCells S views op t parts.length)
      pure ([resultCell (views.fold op) (fun vs => vs.head?.bind (S.foldFinish op v)) [acc]], m)
  | .loop _ cond body _, cs => do
      let (state, m) ← realizeState S m cs
      loopCells S (fun live m cs => interpretCells S blobs fuel views (0 :: path) live m cond cs)
        (fun live m cs =>
          if subRequiresEager body then interpretCells S blobs fuel views (1 :: path) live m body cs
          else capturedStep S blobs fuel ⟨path, stepWidth body⟩ body live m cs)
        live fuel m state

def interpretCells (S : Sem V) (blobs : List Blob) (fuel : Nat) (views : Views) (path live : List Nat)
    (m : Machine V) : SubGraph → List (Cell V) → Watched EvalError (Cells V)
  | .mk inputs constants nodes outputs, params => do
      let made ← lift (constants.mapM (makeConstant S blobs))
      let args ← lift (inputs.mapM fun i => orFault params[i.index]?)
      let (cells, store) := m.store.allocAll made
      let env := assign (assign (fun _ => none) (constants.map (·.id)) cells) (inputs.map (·.id)) args
      let (env, m) ← evalCells S blobs fuel views path live (outputs.map (·.node)) 0
        { m with store := store } nodes env
      let outs ← lift (fetch .missing env (outputs.map (·.node)))
      pure (outs, m)

/-- `_eval_nodes`. While a node runs, what later nodes and the outputs read is needed. -/
def evalCells (S : Sem V) (blobs : List Blob) (fuel : Nat) (views : Views)
    (path live outputs : List Nat) (idx : Nat) (m : Machine V) :
    List Node → Env (Cell V) → Watched EvalError (Env (Cell V) × Machine V)
  | [], env => pure (env, m)
  | node :: rest, env => do
      let cs ← lift (fetch .missing env (nodeReads node))
      let needed := liveOf env (rest.flatMap Node.inputs ++ outputs)
      let (cells, m) ← runCells S blobs fuel views (idx :: path) (live ++ needed) m node cs
      evalCells S blobs fuel views path live outputs (idx + 1) m rest (assign env node.definedIds cells)
end

/-- `Executable.run` of a graph that is evaluated node by node, with the outputs copied out. -/
def execute (S : Sem V) (blobs : List Blob) (fuel : Nat) (views : Views) (g : Graph) (m : Machine V)
    (args : List V) : Watched EvalError (List V × Machine V) := do
  let made ← lift (g.constants.mapM (makeConstant S blobs))
  let (constants, store) := m.store.allocAll made
  let (inputs, store) := store.allocAll args
  let env := assign (assign (fun _ => none) (g.constants.map (·.id)) constants) (g.inputs.map (·.id))
    inputs
  let (env, m) ← evalCells S blobs fuel views [] [] (g.outputs.map (·.node)) 0 { m with store := store }
    g.nodes env
  let outs ← lift (fetch .missing env (g.outputs.map (·.node)))
  let vs ← readCells m outs
  pure (vs, m)

/-- One `execute` after the other on the same executable. -/
def executeAll (S : Sem V) (blobs : List Blob) (fuel : Nat) (views : Views) (g : Graph) :
    Machine V → List (List V) → Watched EvalError (List (List V))
  | _, [] => pure []
  | m, args :: rest => do
      let (outs, m) ← execute S blobs fuel views g m args
      let more ← executeAll S blobs fuel views g m rest
      pure (outs :: more)

def graphValues (S : Sem V) (blobs : List Blob) (fuel : Nat) (g : Graph) (args : List V) :
    Except EvalError (List V) := do
  let made ← g.constants.mapM (makeConstant S blobs)
  let env ← evalNodes S blobs fuel [] g.nodes
    (assign (assign (fun _ => none) (g.constants.map (·.id)) made) (g.inputs.map (·.id)) args)
  fetch .missing env (g.outputs.map (·.node))

end NxTinygrad.Replay
