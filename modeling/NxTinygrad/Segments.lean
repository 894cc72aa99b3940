import Mathlib.Data.List.Sort
import NxTinygrad.Capture
import NxTinygrad.Interpreter
import NxTinygrad.Wire

/- Segmented execution of a graph that has eager nodes: `_plan_segments` and
   `_eval_segments`, against plain `_eval_nodes`. -/
namespace NxTinygrad.Segments
open IR StraightLine Interpreter Capture

/-- A value in an executor env: a tensor, or a complex one held as a real tensor with a
    trailing axis of two inside the wrapper `Cx`. -/
inductive Val (T : Type) where
  | plain (t : T)
  | cx (t : T)
  deriving DecidableEq, Repr

variable {T : Type}

def Val.tensor : Val T → T
  | .plain t => t
  | .cx t => t

def Val.isCx : Val T → Bool
  | .plain _ => false
  | .cx _ => true

def wrap (dtype : Dtype) (t : T) : Val T := if dtype.isComplex then .cx t else .plain t

inductive Piece where
  | jit (nodes : List Node) (inputIds outputIds : List Nat)
  | eager (node : Node)

def Group.nodes : Group → List Node
  | .jit nodes => nodes
  | .eager node => [node]

/-- `needed` once the pieces of `groups` are behind the backward pass. -/
def neededFrom (outputs : List Nat) (groups : List Group) : List Nat :=
  outputs ++ groups.flatMap fun g => (Group.nodes g).flatMap Node.inputs

def collectRefs (defined constants : List Nat) : List Nat → List Nat → List Nat
  | [], inputs => inputs
  | ref :: rest, inputs =>
      if ref ∈ defined ∨ ref ∈ constants ∨ ref ∈ inputs then collectRefs defined constants rest inputs
      else collectRefs defined constants rest (inputs ++ [ref])

def segmentInputs (constants : List Nat) : List Node → List Nat → List Nat → List Nat
  | [], _, inputs => inputs
  | node :: rest, defined, inputs =>
      segmentInputs constants rest (defined ++ node.definedIds)
        (collectRefs defined constants node.inputs inputs)

def segmentOutputs (nodes : List Node) (after : List Nat) : List Nat :=
  ((nodes.flatMap Node.definedIds).dedup.insertionSort (· ≤ ·)).filter fun i => i ∈ after

def planPieces (constants outputs : List Nat) : List Group → List Piece
  | [] => []
  | .eager node :: rest => .eager node :: planPieces constants outputs rest
  | .jit nodes :: rest =>
      .jit nodes (segmentInputs constants nodes [] [])
        (segmentOutputs nodes (neededFrom outputs rest)) :: planPieces constants outputs rest

def Group.isJit : Group → Bool
  | .jit _ => true
  | .eager _ => false

def constantIds (g : Graph) : List Nat := g.constants.map (·.id)

def outputIds (g : Graph) : List Nat := g.outputs.map (·.node)

def planSegments (g : Graph) : Option (List Piece) :=
  let groups := planGroups g.nodes []
  if groups.any Group.isJit then some (planPieces (constantIds g) (outputIds g) groups) else none

def nodeDtypes : Node → List Dtype
  | .op _ _ _ _ dtype => [dtype]
  | .fold _ _ _ _ _ dtype => [dtype]
  | .loop _ _ _ outputs => outputs.map (·.dtype)

def idDtypes (g : Graph) : List (Nat × Dtype) :=
  (g.inputs.map (fun i => (i.id, i.dtype)) ++ g.constants.map (fun c => (c.id, c.dtype)) ++
    g.nodes.flatMap fun n => n.definedIds.zip (nodeDtypes n)).reverse

def idDtype (g : Graph) (id : Nat) : Option Dtype := (idDtypes g).lookup id

inductive Trouble where
  | missing (id : Nat)
  | failed (e : EvalError)
  deriving DecidableEq, Repr

structure Setting where
  blobs : List Blob
  fuel : Nat

def topInstr (S : Sem (Val T)) (set : Setting) (node : Node) : Instr (Val T) Trouble where
  reads := nodeReads node
  writes := node.definedIds
  run vs := (runNode S set.blobs set.fuel [] node vs).mapError .failed

def evalTop (S : Sem (Val T)) (set : Setting) (nodes : List Node) (env : Env (Val T)) :
    Except Trouble (Env (Val T)) :=
  execAll .missing (nodes.map (topInstr S set)) env

def bindArgs (env : Env (Val T)) (ids : List Nat) (dtypes : List Dtype) (args : List T) :
    Env (Val T) :=
  assign env ids (List.zipWith wrap dtypes args)

def segmentFn (S : Sem (Val T)) (set : Setting) (constEnv : Env (Val T)) (nodes : List Node)
    (ins outs : List Nat) (inDtypes : List Dtype) (args : List T) : Except Trouble (List T) :=
  match evalTop S set nodes (bindArgs constEnv ins inDtypes args) with
  | .error e => .error e
  | .ok env => match fetch .missing env outs with
    | .error e => .error e
    | .ok vs => .ok (vs.map Val.tensor)

def missed {α : Type} : Except Trouble α → List Nat
  | .error (.missing id) => [id]
  | _ => []

structure Outcome (T : Type) where
  result : Except Trouble (Env (Val T))
  missed : List Nat

/-- The step of a segment: `raises` says that capture or replay fails. -/
def segmentStep (S : Sem (Val T)) (set : Setting) (constEnv : Env (Val T)) (raises : Bool)
    (nodes : List Node) (ins outs : List Nat) (inDtypes : List Dtype) (env : Env (Val T)) :
    Except Trouble (List T) :=
  if raises then .error (.failed .fault)
  else match fetch .missing env ins with
    | .error e => .error e
    | .ok vs => segmentFn S set constEnv nodes ins outs inDtypes (vs.map Val.tensor)

/-- What is known about a segment before it runs: that it fell back before, that its
    step raises now, or neither. -/
inductive Luck where
  | jit
  | raises
  | interpret
  deriving DecidableEq, Repr

def evalPiece (S : Sem (Val T)) (set : Setting) (g : Graph) (constEnv : Env (Val T)) (luck : Luck)
    (env : Env (Val T)) : Piece → Outcome T
  | .eager node =>
      let r := evalTop S set [node] env
      ⟨r, missed r⟩
  | .jit nodes ins outs =>
      if outs.isEmpty then ⟨.ok env, []⟩
      else match ins.mapM (idDtype g), outs.mapM (idDtype g) with
        | some inDtypes, some outDtypes =>
            let plain := evalTop S set nodes env
            if luck = .interpret then ⟨plain, missed plain⟩
            else
              let attempt := segmentStep S set constEnv (luck = .raises) nodes ins outs inDtypes env
              match attempt with
              | .ok results => ⟨.ok (bindArgs env outs outDtypes results), []⟩
              | .error _ => ⟨plain, missed attempt ++ missed plain⟩
        | _, _ => ⟨.error (.failed .fault), []⟩

def evalPieces (S : Sem (Val T)) (set : Setting) (g : Graph) (constEnv : Env (Val T))
    (luck : Nat → Luck) : Nat → List Piece → Env (Val T) → Outcome T
  | _, [], env => ⟨.ok env, []⟩
  | idx, piece :: rest, env =>
      let first := evalPiece S set g constEnv (luck idx) env piece
      match first.result with
      | .error e => ⟨.error e, first.missed⟩
      | .ok env =>
          let more := evalPieces S set g constEnv luck (idx + 1) rest env
          ⟨more.result, first.missed ++ more.missed⟩

def constantEnv (g : Graph) (values : List (Val T)) : Env (Val T) :=
  assign (fun _ => none) (constantIds g) values

def startEnv (g : Graph) (values : List (Val T)) (args : List T) : Env (Val T) :=
  bindArgs (constantEnv g values) (g.inputs.map (·.id)) (g.inputs.map (·.dtype)) args

def readOutputs (g : Graph) (r : Except Trouble (Env (Val T))) : Except Trouble (List T) :=
  match r with
  | .error e => .error e
  | .ok env => match fetch .missing env (outputIds g) with
    | .error e => .error e
    | .ok vs => .ok (vs.map Val.tensor)

def plainRun (S : Sem (Val T)) (set : Setting) (g : Graph) (values : List (Val T)) (args : List T) :
    Except Trouble (List T) :=
  readOutputs g (evalTop S set g.nodes (startEnv g values args))

/-- The evaluation `_graph_fn` chooses, with the ids looked up in vain on the way. -/
def graphRun (S : Sem (Val T)) (set : Setting) (g : Graph) (values : List (Val T)) (luck : Nat → Luck)
    (args : List T) : Outcome T :=
  let env := startEnv g values args
  match if eager g then planSegments g else none with
  | some pieces => evalPieces S set g (constantEnv g values) luck 0 pieces env
  | none =>
      let r := evalTop S set g.nodes env
      ⟨r, missed r⟩

end NxTinygrad.Segments
