import NxTinygrad.Interpreter
import NxTinygrad.LoweringRuns

/- The value of an expression under values for its parameters, over the primitive operations
   that the worker computes with. What surrounds these operations, the branches of a cond and
   the function of a custom reduction, is a strategy: the reference evaluates predicates in
   order, the graph selects between branches that are all computed. -/
namespace NxTinygrad.Lowering
open IR Interpreter

structure Strategy (V : Type) where
  guard : V → Bool
  branch : List Tag → Except EvalError V → Except EvalError (List V) →
    Except EvalError (List V) → Except EvalError (List V)
  start : Expr → V → Option Start
  fold : FoldOp → (V → V → Except EvalError V) → V → V → Except EvalError V

def only {V : Type} (x : Except EvalError V) : Except EvalError (List V) := do
  let v ← x
  .ok [v]

section
variable {V : Type} (S : Sem V) (K : Strategy V) (fuel : Nat)

def runLoop (test body : List V → Except EvalError (List V)) (init : List V) :
    Except EvalError (List V) :=
  if init.all K.guard then whileLoop { S with isTensor := K.guard } test body fuel init
  else .error .fault

mutual
/-- The value of an expression; a loop may go round `fuel` times. -/
def eval : (Nat → Option V) → Expr → Except EvalError V
  | ρ, .parameter _ pos => orFault (ρ pos)
  | _, .constant t number => orFault (S.number (encodeNumber number) t.shape t.dtype)
  | _, .tensor t literal => orFault (S.literal literal.binary t.shape t.dtype)
  | ρ, .metadata _ inner => eval ρ inner
  | _, .tuple _ => .error .fault
  | ρ, .elem _ src k => do
      let vs ← evalTuple ρ src
      orFault vs[k]?
  | ρ, .block _ inputs (.tuple outputs) => do
      let args ← evalList ρ inputs
      let vs ← evalList (fun pos => args[pos]?) outputs
      orFault vs.head?
  | ρ, .block _ inputs default => do
      let args ← evalList ρ inputs
      eval (fun pos => args[pos]?) default
  | ρ, .cond t clauses default => do
      let vs ← evalClauses ρ t clauses (only (eval ρ default))
      orFault vs.head?
  | _, .loop _ _ _ _ => .error .fault
  | ρ, .op t o args =>
      if o.takes args.length then do
        let vs ← evalList ρ args
        orFault (S.prim o.prim (o.attrs ((args.head?.map (·.rank)).getD 0) t.shape) vs t.shape
          t.dtype)
      else .error .fault
  | ρ, .reduce _ a acc axes keepAxes body => do
      let v ← eval ρ a
      let w ← eval ρ acc
      K.fold (.reduce (normalizeAxes axes a.rank) keepAxes)
        (fun x y => eval (fun pos => [x, y][pos]?) body) v w
  | ρ, .windowReduce _ a acc window strides padding dilations body => do
      let v ← eval ρ a
      let w ← eval ρ acc
      K.fold (.windowReduce window strides padding dilations)
        (fun x y => eval (fun pos => [x, y][pos]?) body) v w
  | ρ, .slice t a starts lengths strides => do
      let v ← eval ρ a
      let ss ← evalDynamic ρ starts
      orFault (S.slice v ss lengths strides t.shape t.dtype)
  | ρ, .putSlice t a starts part => do
      let v ← eval ρ a
      let w ← eval ρ part
      let ss ← evalStarts ρ starts
      orFault (S.putSlice v w ss t.shape t.dtype)
  | ρ, .pad t a value config => do
      let v ← eval ρ a
      match scalarConstant "pad" value with
      | .ok number => orFault (S.prim .pad (padAttrs config number) [v] t.shape t.dtype)
      | .error _ => .error .fault
  | ρ, .windowScatter t o a source init window strides padding => do
      let v ← eval ρ a
      let w ← eval ρ source
      match scalarConstant (PrimOp.windowScatter o).name init with
      | .ok number => orFault (S.prim (.windowScatter o)
          (windowScatterAttrs number window strides padding) [v, w] t.shape t.dtype)
      | .error _ => .error .fault
  | _, .other _ _ => .error .fault

def evalTuple : (Nat → Option V) → Expr → Except EvalError (List V)
  | ρ, .tuple es => evalList ρ es
  | ρ, .metadata _ inner => evalTuple ρ inner
  | ρ, .block _ inputs (.tuple outputs) => do
      let args ← evalList ρ inputs
      evalList (fun pos => args[pos]?) outputs
  | ρ, .loop _ init test body => do
      let state ← evalList ρ init
      runLoop S K fuel (fun s => only (eval (fun pos => s[pos]?) test))
        (fun s => evalList (fun pos => s[pos]?) body) state
  | ρ, .cond _ clauses (.tuple elems) =>
      evalTupleClauses ρ (elems.map Expr.tag) clauses (evalList ρ elems)
  | _, _ => .error .fault

def evalList : (Nat → Option V) → List Expr → Except EvalError (List V)
  | _, [] => .ok []
  | ρ, e :: rest => do
      let v ← eval ρ e
      let vs ← evalList ρ rest
      .ok (v :: vs)

def evalClauses : (Nat → Option V) → Tag → List (Expr × Expr) → Except EvalError (List V) →
    Except EvalError (List V)
  | _, _, [], default => default
  | ρ, t, (pred, expr) :: rest, default =>
      K.branch [t] (eval ρ pred) (only (eval ρ expr)) (evalClauses ρ t rest default)

def evalTupleClauses : (Nat → Option V) → List Tag → List (Expr × Expr) →
    Except EvalError (List V) → Except EvalError (List V)
  | _, _, [], default => default
  | ρ, tags, (pred, .tuple es) :: rest, default =>
      K.branch tags (eval ρ pred) (evalList ρ es) (evalTupleClauses ρ tags rest default)
  | _, _, (_, _) :: _, _ => .error .fault

def evalDynamic : (Nat → Option V) → List (Int ⊕ Expr) → Except EvalError (List Start)
  | _, [] => .ok []
  | ρ, .inl n :: rest => do
      let ss ← evalDynamic ρ rest
      .ok (.static n :: ss)
  | ρ, .inr e :: rest => do
      let v ← eval ρ e
      let s ← orFault ((S.item v).map .read)
      let ss ← evalDynamic ρ rest
      .ok (s :: ss)

def evalStarts : (Nat → Option V) → List Expr → Except EvalError (List Start)
  | _, [] => .ok []
  | ρ, e :: rest => do
      let v ← eval ρ e
      let s ← orFault (K.start e v)
      let ss ← evalStarts ρ rest
      .ok (s :: ss)
end
end

end NxTinygrad.Lowering
