import NxTinygrad.Bindings
import NxTinygrad.Meaning
import NxTinygrad.OneNode
import NxTinygrad.ReplayRuns
import NxTinygrad.Validate

/- compiler.ex from end to end: the closure it makes of a traced function, and the containers of
   output_container.ex that go in and out. -/
namespace NxTinygrad.Closures
open IR Interpreter Lowering
open Bindings (Arg Tensor Values)
open ReplayRuns (AllTidy Good)
open Watch

/-- An `Nx.Container`: tensors under tuples, maps and structs, in the order of their traversal. -/
inductive Container (α : Type) where
  | leaf (a : α)
  | node (label : String) (parts : List (Container α))

section containers
variable {α β σ : Type}

mutual
def Container.traverse (f : α → σ → Option (β × σ)) : Container α → σ → Option (Container β × σ)
  | .leaf a, s => (f a s).map fun r => (.leaf r.1, r.2)
  | .node label parts, s => (traverseParts f parts s).map fun r => (.node label r.1, r.2)

def traverseParts (f : α → σ → Option (β × σ)) :
    List (Container α) → σ → Option (List (Container β) × σ)
  | [], s => some ([], s)
  | c :: rest, s => (c.traverse f s).bind fun r =>
      (traverseParts f rest r.2).map fun r' => (r.1 :: r'.1, r'.2)
end

mutual
def Container.leaves : Container α → List α
  | .leaf a => [a]
  | .node _ parts => leavesOf parts

def leavesOf : List (Container α) → List α
  | [] => []
  | c :: rest => c.leaves ++ leavesOf rest
end

mutual
def Container.shape : Container α → Container Unit
  | .leaf _ => .leaf ()
  | .node label parts => .node label (shapeOf parts)

def shapeOf : List (Container α) → List (Container Unit)
  | [] => []
  | c :: rest => c.shape :: shapeOf rest
end

mutual
def Container.map (f : α → β) : Container α → Container β
  | .leaf a => .leaf (f a)
  | .node label parts => .node label (mapOf f parts)

def mapOf (f : α → β) : List (Container α) → List (Container β)
  | [] => []
  | c :: rest => c.map f :: mapOf f rest
end

/-- `OutputContainer.flatten`: `Composite.reduce` into a list in reverse. -/
def flatten (c : Container α) : Option (List α) :=
  (c.traverse (fun t acc => some (t, t :: acc)) []).map fun r => r.2.reverse

/-- One leaf of `OutputContainer.reconstruct` takes the next tensor. -/
def place (swap : α → β → β) (template : α) : List β → Option (β × List β)
  | [] => none
  | t :: rest => some (swap template t, rest)

/-- `OutputContainer.reconstruct`: no tensor may be left over. -/
def reconstruct (swap : α → β → β) (c : Container α) (tensors : List β) : Option (Container β) :=
  (c.traverse (place swap) tensors).bind fun r => if r.2.isEmpty then some r.1 else none

mutual
theorem traverse_collects (f : α → β) (c : Container α) (acc : List β) :
    c.traverse (fun t acc => some (f t, f t :: acc)) acc =
      some (c.map f, (c.leaves.map f).reverse ++ acc) := by
  cases c with
  | leaf a => rfl
  | node label parts =>
    simp only [Container.traverse, collects_parts f parts acc, Option.map_some, Container.map,
      Container.leaves]

theorem collects_parts (f : α → β) (parts : List (Container α)) (acc : List β) :
    traverseParts (fun t acc => some (f t, f t :: acc)) parts acc =
      some (mapOf f parts, ((leavesOf parts).map f).reverse ++ acc) := by
  cases parts with
  | nil => rfl
  | cons c rest =>
    simp only [traverseParts, traverse_collects f c acc, Option.bind_some, collects_parts f rest,
      Option.map_some, mapOf, leavesOf, List.map_append, List.reverse_append, List.append_assoc]
end

mutual
theorem leaves_map (f : α → β) (c : Container α) : (c.map f).leaves = c.leaves.map f := by
  cases c with
  | leaf a => rfl
  | node label parts => exact leavesOf_map f parts

theorem leavesOf_map (f : α → β) (parts : List (Container α)) :
    leavesOf (mapOf f parts) = (leavesOf parts).map f := by
  cases parts with
  | nil => rfl
  | cons c rest =>
    simp only [mapOf, leavesOf, leaves_map f c, leavesOf_map f rest, List.map_append]
end

mutual
theorem traverse_swaps (swap : α → β → β) (c : Container α) (ts more : List β)
    (count : ts.length = c.leaves.length) : ∃ d : Container β,
      c.traverse (place swap) (ts ++ more) = some (d, more) ∧
      d.shape = c.shape ∧ d.leaves = List.zipWith swap c.leaves ts := by
  cases c with
  | leaf a =>
    obtain ⟨t, rfl⟩ := List.length_eq_one_iff.mp count
    exact ⟨.leaf (swap a t), rfl, rfl, rfl⟩
  | node label parts =>
    obtain ⟨ds, gone, shape, leaves⟩ := swaps_parts swap parts ts more count
    refine ⟨.node label ds, ?_, ?_, leaves⟩
    · simp only [Container.traverse, gone, Option.map_some]
    · simp only [Container.shape, shape]

theorem swaps_parts (swap : α → β → β) (parts : List (Container α)) (ts more : List β)
    (count : ts.length = (leavesOf parts).length) : ∃ ds : List (Container β),
      traverseParts (place swap) parts (ts ++ more) = some (ds, more) ∧
      shapeOf ds = shapeOf parts ∧ leavesOf ds = List.zipWith swap (leavesOf parts) ts := by
  cases parts with
  | nil =>
    obtain rfl := List.length_eq_zero_iff.mp count
    exact ⟨[], rfl, rfl, rfl⟩
  | cons c rest =>
    rw [leavesOf, List.length_append] at count
    have front : (ts.take c.leaves.length).length = c.leaves.length := by
      rw [List.length_take]
      omega
    have back : (ts.drop c.leaves.length).length = (leavesOf rest).length := by
      rw [List.length_drop]
      omega
    obtain ⟨d, first, shape, leaves⟩ :=
      traverse_swaps swap c (ts.take c.leaves.length) (ts.drop c.leaves.length ++ more) front
    obtain ⟨ds, others, shapes, leaves'⟩ :=
      swaps_parts swap rest (ts.drop c.leaves.length) more back
    rw [← List.append_assoc, List.take_append_drop] at first
    refine ⟨d :: ds, ?_, ?_, ?_⟩
    · simp only [traverseParts, first, Option.bind_some, others, Option.map_some]
    · simp only [shapeOf, shape, shapes]
    · rw [leavesOf, leavesOf, leaves, leaves', ← List.zipWith_append front.symm,
        List.take_append_drop]
end

end containers

inductive Failure where
  | lowering (e : Lowering.Raised)
  | validation (e : PyError)
  | capture
  | input (e : Bindings.Raised)
  | worker
  | evaluation (e : EvalError)
  | container

def precompile (devectorize : Expr → Expr) (traced : Container Expr) :
    Option (List Expr × Container Expr) :=
  (traced.traverse (fun t acc => some (devectorize t, devectorize t :: acc)) []).map fun r =>
    (r.2.reverse, r.1)

inductive Mode where
  | device
  | host
  deriving DecidableEq, Repr

/-- What `compile_graph` keeps for its closure. -/
structure Ctx where
  graph : Graph
  container : Container Expr
  output : Mode

/-- `compile_graph`: lowering, and the check and the capture of the worker. -/
def compileGraph (captures : Graph → Bool) (roots : List Expr) (container : Container Expr)
    (output : Mode) : Except Failure Ctx :=
  match toGraph roots with
  | .error e => .error (.lowering e)
  | .ok g => match Validate.validate g.toWire g.blobs Validate.maxNodes with
    | .error e => .error (.validation e)
    | .ok _ => if captures g then .ok ⟨g, container, output⟩ else .error .capture

/-- The buffers of a worker, the next id, and what the executable evaluates its nodes with. -/
structure Live (V : Type) where
  values : Values V
  next : Nat
  machine : Replay.Machine V

variable {V : Type}

def Live.put (L : Live V) (v : V) : Live V :=
  { L with
    values := { L.values with registry := Function.update L.values.registry L.next (some v) }
    next := L.next + 1 }

/-- The buffers behind the handles of a call, the same handle counted once; `base` says which they are. -/
def slots (base : Nat → Nat) (args : List Arg) : List Nat :=
  (args.filterMap fun
    | .handle id => some id
    | .blob _ _ _ => none).dedup.map base

/-- The worker: whether it captures a graph, the buffer behind each handle, which results are views, and how
    a tensor is sent. -/
structure Host (V : Type) where
  captures : Graph → Bool
  base : Nat → Nat
  views : Replay.Views
  encode : V → Dtype → Blob

def orElse {α : Type} (e : Failure) : Option α → Except Failure α
  | some a => .ok a
  | none => .error e

section run
variable (S : Sem V) (H : Host V) (fuel worker generation : Nat)

/-- `Executable.run`. What is watched are the buffers that a replay overwrites, and that no two handles share
    a buffer, which TinyJit rejects; else it applies the function that it has captured. -/
def run (g : Graph) (m : Replay.Machine V) (args : List Arg) (tensors : List V) :
    Watched Failure (List V × Replay.Machine V) :=
  if g.inputs.isEmpty || Capture.eager g then
    (Replay.execute S g.blobs fuel H.views g m tensors).mapError .evaluation
  else do
    watch (decide (slots H.base args).Nodup)
    let outs ← (lift (Replay.graphValues S g.blobs fuel g tensors)).mapError .evaluation
    pure (outs, m)

/-- The end of `cmd_execute` and `decode_outputs`: a handle for each output, or its bytes. -/
def decodeOutputs (mode : Mode) : List V → List OutputSpec → Live V → List Tensor × Live V
  | v :: vs, o :: specs, L =>
      let data := match mode with
        | .device => .backend worker generation L.next
        | .host => .host
      let here := match mode with
        | .device => L.put v
        | .host => L
      let (ts, L) := decodeOutputs mode vs specs here
      (⟨data, o.shape, o.dtype, .ok (H.encode v o.dtype)⟩ :: ts, L)
  | _, _, L => ([], L)

def swap (template : Expr) (tensor : Tensor) : Tensor :=
  { tensor with shape := template.tag.shape, dtype := template.tag.dtype }

def runOne (ctx : Ctx) (L : Live V) (params : List Tensor) :
    Watched Failure (Container Tensor × Live V) := do
  let (args, blobs) ←
    lift ((Bindings.buildInputs worker generation params ctx.graph.inputs).mapError .input)
  let tensors ← lift (orElse .worker (Bindings.executeInputs L.values args blobs))
  let (outs, m) ← run S H fuel ctx.graph L.machine args tensors
  let (ts, L) := decodeOutputs H worker generation ctx.output outs ctx.graph.outputs
    { L with machine := m }
  let c ← lift (orElse .container (reconstruct swap ctx.container ts))
  pure (c, L)

def runAll (ctx : Ctx) : Live V → List (List Tensor) →
    Watched Failure (List (Container Tensor) × Live V)
  | L, [] => pure ([], L)
  | L, params :: rest => do
      let (c, L) ← runOne S H fuel worker generation ctx L params
      let (cs, L) ← runAll ctx L rest
      pure (c :: cs, L)

/-- `__compile__`, and the closure it returns applied to a list of arguments. -/
def compile (devectorize : Expr → Expr) (traced : Container Expr) (output : Mode) (L : Live V)
    (argsList : List (List Tensor)) : Watched Failure (List (Container Tensor) × Live V) :=
  match precompile devectorize traced with
  | none => lift (.error .container)
  | some (roots, container) =>
      if roots.isEmpty then
        -- no leaf to swap
        pure (argsList.map fun _ =>
          container.map fun e => ⟨.host, e.tag.shape, e.tag.dtype, .error .outOfBounds⟩, L)
      else match compileGraph H.captures roots container output with
        | .error e => lift (.error e)
        | .ok ctx => runAll S H fuel worker generation ctx L argsList

end run

/-- Ids in use have been given out, and captured steps have buffers of their own. -/
structure Live.Sound (L : Live V) : Prop where
  held : ∀ id v, L.values.registry id = some v → id < L.next
  good : Good L.machine

/-- Buffers may come, and those that are there stay as they are. -/
structure Grows (L L' : Live V) : Prop where
  sound : L'.Sound
  decode : L'.values.decode = L.values.decode
  kept : ∀ id v, L.values.registry id = some v → L'.values.registry id = some v

theorem grows_machine {L : Live V} {m : Replay.Machine V} (sound : L.Sound) (good : Good m) :
    Grows L { L with machine := m } :=
  ⟨⟨sound.held, good⟩, rfl, fun _ _ there => there⟩

theorem grows_refl {L : Live V} (sound : L.Sound) : Grows L L := grows_machine sound sound.good

theorem grows_trans {L L' L'' : Live V} (first : Grows L L') (second : Grows L' L'') : Grows L L'' :=
  ⟨second.sound, second.decode.trans first.decode,
    fun id v there => second.kept id v (first.kept id v there)⟩

theorem put_registry (L : Live V) (v : V) (id : Nat) :
    (L.put v).values.registry id = if id = L.next then some v else L.values.registry id := by
  simp only [Live.put, Function.update_apply]

theorem grows_put {L : Live V} (sound : L.Sound) (v : V) : Grows L (L.put v) := by
  have step : (L.put v).next = L.next + 1 := rfl
  have held := sound.held
  refine ⟨⟨?_, sound.good⟩, rfl, ?_⟩
  · intro id w there
    rw [put_registry] at there
    split at there
    · omega
    · have old := held id w there
      omega
  · intro id w there
    have old := held id w there
    rw [put_registry, if_neg (by omega), there]

theorem value_kept {L L' : Live V} {worker : Nat} {t : Tensor} {v : V} (grows : Grows L L')
    (value : t.value L.values worker = some v) : t.value L'.values worker = some v := by
  unfold Tensor.value at value ⊢
  cases place : t.on worker with
  | some p =>
    rw [place] at value
    exact grows.kept _ _ value
  | none =>
    rw [place] at value
    rw [grows.decode]
    exact value

theorem values_kept {L L' : Live V} {worker : Nat} {ts : List Tensor} {vs : List V}
    (grows : Grows L L') (values : ts.map (Tensor.value L.values worker) = vs.map some) :
    ts.map (Tensor.value L'.values worker) = vs.map some := by
  induction ts generalizing vs with
  | nil => exact values
  | cons t ts ih =>
    cases vs with
    | nil => cases values
    | cons v vs =>
      rw [List.map_cons, List.map_cons, List.cons.injEq] at values ⊢
      exact ⟨value_kept grows values.1, ih values.2⟩

section run
variable {H : Host V} {worker generation : Nat}

def Readable (L : Live V) (encode : V → Dtype → Blob) (v : V) (shape : List Nat) (dtype : Dtype) :
    Prop :=
  L.values.decode (encode v dtype) shape dtype = some v

theorem decodeOutputs_spec {mode : Mode} {vs : List V} {specs : List OutputSpec} {L : Live V}
    (sound : L.Sound) (count : vs.length = specs.length)
    (readable : mode = .host → ∀ p ∈ vs.zip specs, Readable L H.encode p.1 p.2.shape p.2.dtype) :
    Grows L (decodeOutputs H worker generation mode vs specs L).2 ∧
      (decodeOutputs H worker generation mode vs specs L).1.map (Tensor.value
        (decodeOutputs H worker generation mode vs specs L).2.values worker) = vs.map some ∧
      (decodeOutputs H worker generation mode vs specs L).1.map (fun t => (t.shape, t.dtype)) =
        specs.map fun o => (o.shape, o.dtype) := by
  induction vs generalizing specs L with
  | nil =>
    obtain rfl := List.length_eq_zero_iff.mp count.symm
    exact ⟨grows_refl sound, rfl, rfl⟩
  | cons v vs ih =>
    cases specs with
    | nil => cases count
    | cons o specs =>
      have count : vs.length = specs.length := Nat.succ.inj count
      cases mode with
      | device =>
        have first := grows_put sound v
        obtain ⟨grows, values, shapes⟩ := ih first.sound count nofun
        refine ⟨grows_trans first grows, ?_, ?_⟩
        · simp only [decodeOutputs, List.map_cons, values, List.cons.injEq, and_true]
          have here : (L.put v).values.registry L.next = some v := by rw [put_registry, if_pos rfl]
          have later := grows.kept _ _ here
          simp only [Tensor.value, Tensor.on, if_true, later]
        · simp only [decodeOutputs, List.map_cons, shapes]
      | host =>
        have later : ∀ p ∈ vs.zip specs, Readable L H.encode p.1 p.2.shape p.2.dtype := by
          intro p mem
          exact readable rfl p (List.mem_cons_of_mem _ mem)
        obtain ⟨grows, values, shapes⟩ := ih sound count fun _ => later
        refine ⟨grows, ?_, ?_⟩
        · simp only [decodeOutputs, List.map_cons, values, List.cons.injEq, and_true]
          have here := readable rfl (v, o) List.mem_cons_self
          simp only [Tensor.value, Tensor.on, grows.decode]
          exact here
        · simp only [decodeOutputs, List.map_cons, shapes]

theorem swap_same {es : List Expr} {ts : List Tensor}
    (same : ts.map (fun t => (t.shape, t.dtype)) = es.map fun e => (e.tag.shape, e.tag.dtype)) :
    List.zipWith swap es ts = ts := by
  induction ts generalizing es with
  | nil => simp
  | cons t ts ih =>
    cases es with
    | nil => cases same
    | cons e es =>
      rw [List.map_cons, List.map_cons, List.cons.injEq, Prod.mk.injEq] at same
      obtain ⟨⟨shape, dtype⟩, rest⟩ := same
      rw [List.zipWith_cons_cons, ih rest, swap, ← shape, ← dtype]

theorem precompile_eq (devectorize : Expr → Expr) (traced : Container Expr) :
    precompile devectorize traced = some ((traced.map devectorize).leaves, traced.map devectorize) := by
  rw [precompile, traverse_collects, Option.map_some, List.append_nil, List.reverse_reverse,
    leaves_map]

theorem listRun_length {roots : List Expr} {before st : State} {ids : List Nat}
    (run : ListRun roots before ids st) : ids.length = roots.length := by
  induction roots generalizing before ids with
  | nil =>
    cases run
    rfl
  | cons e roots ih =>
    cases run with
    | cons first rest => rw [List.length_cons, List.length_cons, ih rest]

theorem toGraph_outputs {roots : List Expr} {g : Graph} (lowered : toGraph roots = .ok g) :
    g.outputs.map (fun o => (o.shape, o.dtype)) = roots.map fun e => (e.tag.shape, e.tag.dtype) := by
  obtain ⟨ids, st, run, rfl⟩ := toGraph_run lowered
  have count := listRun_length run
  simp only [outputSpecs]
  clear run lowered
  induction roots generalizing ids with
  | nil => simp
  | cons e roots ih =>
    cases ids with
    | nil => cases count
    | cons id ids =>
      rw [List.zipWith_cons_cons, List.map_cons, List.map_cons, ih ids (Nat.succ.inj count)]
      rfl

theorem mapM_orFault {α β : Type} {f : α → Option β} {xs : List α} {ys : List β}
    (given : xs.mapM (fun x => orFault (f x)) = .ok ys) : xs.mapM f = some ys := by
  induction xs generalizing ys with
  | nil =>
    cases given
    rfl
  | cons x xs ih =>
    rw [List.mapM_cons] at given ⊢
    obtain ⟨y, here, given⟩ := except_bind_ok.mp given
    obtain ⟨zs, more, given⟩ := except_bind_ok.mp given
    cases given
    rw [orFault_ok.mp here, ih more]
    rfl

variable {S : Sem V} {T : Types S} {fuel : Nat} {scopes : Scopes}

/-- The arguments of one call: where they have to be, as the graph declares them, and with a value for
    every expression. -/
structure Ready (T : Types S) (H : Host V) (fuel worker generation : Nat) (g : Graph)
    (roots : List Expr) (mode : Mode) (L : Live V) (params : List Tensor) (ws vs : List V) : Prop where
  fresh : ∀ i ∈ g.inputs, ∃ t, params[i.index]? = some t ∧ t.Fresh worker generation
  declared : Bindings.Declares params g.inputs
  given : params.map (Tensor.value L.values worker) = ws.map some
  evaluated : evalList S (.every T S.isTensor) fuel (fun pos => ws[pos]?) roots = .ok vs
  readable : mode = .host → ∀ p ∈ vs.zip g.outputs, Readable L H.encode p.1 p.2.shape p.2.dtype

/-- A container like the template, of tensors with these values and the types of the template. -/
structure Holds (worker : Nat) (L : Live V) (template : Container Expr) (vs : List V)
    (c : Container Tensor) : Prop where
  shape : c.shape = template.shape
  values : c.leaves.map (Tensor.value L.values worker) = vs.map some
  types : c.leaves.map (fun t => (t.shape, t.dtype)) =
    template.leaves.map fun e => (e.tag.shape, e.tag.dtype)

theorem ready_runs {g : Graph} {roots : List Expr} {mode : Mode} {L : Live V} {params : List Tensor}
    {ws vs : List V} (ready : Ready T H fuel worker generation g roots mode L params ws vs)
    (inside : ∀ e ∈ roots, Scoped scopes none e) (lowered : toGraph roots = .ok g) :
    ∃ args blobs tensors, Bindings.buildInputs worker generation params g.inputs = .ok (args, blobs) ∧
      Bindings.executeInputs L.values args blobs = some tensors ∧
      Replay.graphValues S g.blobs fuel g tensors = .ok vs := by
  obtain ⟨⟨args, blobs⟩, built⟩ : ∃ r, Bindings.buildInputs worker generation params g.inputs = .ok r :=
    Bindings.bind_pure_ok.mpr (Bindings.buildInputs_ok.mpr ready.fresh)
  have executed := (Bindings.buildInputs_binds (W := L.values) ready.declared built).executed
  have flow := evalList_refines (every_flow T) (Nat.le_refl fuel) roots _ vs ready.evaluated
  have meant := toGraph_flow inside lowered flow
  obtain ⟨env, final, bound, _⟩ := interpret_ok.mp meant
  obtain ⟨values, tensors, _, positional, _⟩ := bindParams_ok.mp bound
  have value : Bindings.paramValue L.values worker params = fun i => ws[i.index]? := by
    funext i
    have at_i := congrArg (fun xs => xs[i.index]?) ready.given
    simp only [List.getElem?_map] at at_i
    rw [Bindings.paramValue]
    cases here : params[i.index]? with
    | none =>
      rw [here] at at_i
      cases there : ws[i.index]? with
      | none => rfl
      | some w => simp [there] at at_i
    | some t =>
      rw [here] at at_i
      cases there : ws[i.index]? with
      | none => simp [there] at at_i
      | some w => simpa [there] using at_i
  refine ⟨args, blobs, tensors, built, ?_, ?_⟩
  · rw [executed, value]
    exact mapM_orFault positional
  · rw [← interpret_positional positional]
    exact meant

theorem run_meets {g : Graph} {m : Replay.Machine V} {args : List Arg} {tensors vs : List V}
    (tidy : AllTidy g.nodes) (good : Good m)
    (computed : Replay.graphValues S g.blobs fuel g tensors = .ok vs) :
    Meets (run S H fuel g m args tensors) fun r => r.1 = vs ∧ Good r.2 := by
  unfold run
  split
  · exact meets_mapError _ (ReplayRuns.execute_meets tidy good computed)
  · refine meets_watch fun _ => ?_
    have applied : Meets (lift (Replay.graphValues S g.blobs fuel g tensors)) (· = vs) :=
      fun _ => ⟨vs, computed, rfl⟩
    refine meets_bind (meets_mapError _ applied) ?_
    rintro _ rfl
    exact meets_pure ⟨rfl, good⟩

theorem runOne_meets {g : Graph} {container : Container Expr} {mode : Mode} {L : Live V}
    {params : List Tensor} {ws vs : List V} (tidy : AllTidy g.nodes)
    (ready : Ready T H fuel worker generation g container.leaves mode L params ws vs)
    (inside : ∀ e ∈ container.leaves, Scoped scopes none e)
    (lowered : toGraph container.leaves = .ok g) (sound : L.Sound) :
    Meets (runOne S H fuel worker generation ⟨g, container, mode⟩ L params) fun r =>
      Grows L r.2 ∧ Holds worker r.2 container vs r.1 := by
  obtain ⟨args, blobs, tensors, built, executed, computed⟩ := ready_runs ready inside lowered
  have outputs := toGraph_outputs lowered
  have count : vs.length = g.outputs.length := by
    have len := congrArg List.length outputs
    rw [List.length_map, List.length_map] at len
    rw [evalList_length ready.evaluated, len]
  unfold runOne
  refine meets_lift_bind (a := (args, blobs)) (by rw [built]; rfl) ?_
  refine meets_lift_bind (a := tensors) (by rw [executed]; rfl) ?_
  refine meets_bind (run_meets tidy sound.good computed) ?_
  rintro ⟨_, m⟩ ⟨rfl, good⟩
  have moved := grows_machine sound good
  dsimp only at moved ⊢
  obtain ⟨grows, values, types⟩ := @decodeOutputs_spec _ H worker
    generation mode _ _ _ moved.sound count ready.readable
  generalize decodeOutputs H worker generation mode _ g.outputs { L with machine := m } = decoded
    at grows values types ⊢
  obtain ⟨ts, L'⟩ := decoded
  have typed := types.trans outputs
  have enough : ts.length = container.leaves.length := by
    have len := congrArg List.length typed
    rwa [List.length_map, List.length_map] at len
  obtain ⟨c, placed, shape, leaves⟩ := traverse_swaps swap container ts [] enough
  rw [List.append_nil] at placed
  rw [swap_same typed] at leaves
  have put : orElse .container (reconstruct swap container ts) = .ok c := by
    simp only [reconstruct, placed, Option.bind_some, List.isEmpty_nil, if_true, orElse]
  refine meets_lift_bind put (meets_pure ⟨grows_trans moved grows, shape, ?_, ?_⟩)
  · rw [leaves]
    exact values
  · rw [leaves]
    exact typed

theorem ready_later {g : Graph} {roots : List Expr} {mode : Mode} {L L' : Live V} {params : List Tensor}
    {ws vs : List V} (grows : Grows L L')
    (ready : Ready T H fuel worker generation g roots mode L params ws vs) :
    Ready T H fuel worker generation g roots mode L' params ws vs := by
  refine ⟨ready.fresh, ready.declared, values_kept grows ready.given, ready.evaluated, ?_⟩
  intro host p mem
  unfold Readable
  rw [grows.decode]
  exact ready.readable host p mem

theorem holds_later {L L' : Live V} {template : Container Expr} {vs : List V} {c : Container Tensor}
    (grows : Grows L L') (holds : Holds worker L template vs c) : Holds worker L' template vs c :=
  ⟨holds.shape, values_kept grows holds.values, holds.types⟩

theorem runAll_meets {g : Graph} {container : Container Expr} {mode : Mode} {L : Live V}
    {argsList : List (List Tensor)} {values : List (List V × List V)} (tidy : AllTidy g.nodes)
    (inside : ∀ e ∈ container.leaves, Scoped scopes none e)
    (lowered : toGraph container.leaves = .ok g) (sound : L.Sound)
    (ready : List.Forall₂ (fun params p =>
      Ready T H fuel worker generation g container.leaves mode L params p.1 p.2) argsList values) :
    Meets (runAll S H fuel worker generation ⟨g, container, mode⟩ L argsList) fun r =>
      Grows L r.2 ∧ List.Forall₂ (fun p c => Holds worker r.2 container p.2 c) values r.1 := by
  induction argsList generalizing L values with
  | nil =>
    cases ready
    exact meets_pure ⟨grows_refl sound, .nil⟩
  | cons params argsList ih =>
    cases ready with
    | cons first rest =>
      unfold runAll
      refine meets_bind (runOne_meets tidy first inside lowered sound) ?_
      rintro ⟨c, L₁⟩ ⟨grows, holds⟩
      have later := rest.imp fun _ _ ready => ready_later grows ready
      refine meets_bind (ih grows.sound later) ?_
      rintro ⟨cs, L₂⟩ ⟨grows', all⟩
      exact meets_pure ⟨grows_trans grows grows', .cons (holds_later grows' holds) all⟩

/-- A closure of a traced function, called on some lists of arguments: every call returns a container like
    that of the function, in which each tensor is what its expression means on the arguments of this
    call; the tensors of earlier calls and of the arguments stay as they are. -/
theorem closure_returns {devectorize : Expr → Expr} {traced : Container Expr} {mode : Mode}
    {ctx : Ctx} {L : Live V} {argsList : List (List Tensor)} {values : List (List V × List V)}
    (some : (traced.map devectorize).leaves ≠ [])
    (inside : ∀ e ∈ (traced.map devectorize).leaves, Scoped scopes none e)
    (compiled : compileGraph H.captures (traced.map devectorize).leaves (traced.map devectorize) mode =
      .ok ctx) (tidy : AllTidy ctx.graph.nodes) (sound : L.Sound)
    (ready : List.Forall₂ (fun params p => Ready T H fuel worker generation ctx.graph
      (traced.map devectorize).leaves mode L params p.1 p.2) argsList values)
    (safe : (compile S H fuel worker generation devectorize traced mode L argsList).safe = true) :
    ∃ cs L', (compile S H fuel worker generation devectorize traced mode L argsList).result =
        .ok (cs, L') ∧ Grows L L' ∧
      List.Forall₂ (fun p c => Holds worker L' (traced.map devectorize) p.2 c ∧
        evalList S (.taken S) fuel (fun pos => p.1[pos]?) (traced.map devectorize).leaves =
          .ok p.2) values cs := by
  have nonempty : (traced.map devectorize).leaves.isEmpty = false := by simpa using some
  simp only [compile, precompile_eq, nonempty, compiled, Bool.false_eq_true, if_false] at safe ⊢
  simp only [compileGraph] at compiled
  split at compiled
  · cases compiled
  · rename_i g lowered
    split at compiled
    · cases compiled
    · split at compiled
      · cases compiled
        obtain ⟨⟨cs, L'⟩, ran, grows, holds⟩ := runAll_meets tidy inside lowered sound ready safe
        dsimp only at grows holds
        refine ⟨cs, L', ran, grows, ?_⟩
        -- the values of all branches are those of the branches taken
        have meant : List.Forall₂ (fun (params : List Tensor) (p : List V × List V) =>
            evalList S (.taken S) fuel (fun pos => p.1[pos]?) (traced.map devectorize).leaves =
              .ok p.2) argsList values :=
          ready.imp fun _ p each => evalList_refines (every_taken T S.isTensor) (Nat.le_refl fuel) _ _
            p.2 each.evaluated
        clear ran ready safe
        induction holds generalizing argsList with
        | nil => exact .nil
        | cons first rest ih =>
          cases meant with
          | cons here there => exact .cons ⟨first, here⟩ (ih there)
      · cases compiled

end run

/-! `fn p -> {choice, {p}} end`, called with 1 and with 0. -/

def pair : Container Expr := .node "tuple" [.leaf choice, .node "tuple" [.leaf (given 0)]]

def pairGraph : Graph where
  inputs := [⟨0, 0, [], .s64⟩]
  constants := [⟨1, .value (.int 7), [], .s64⟩, ⟨2, .value (.int 1), [], .s64⟩]
  nodes := [.loop [2] (.mk [⟨0, 0, [], .s64⟩] [] [] [⟨0, [], .s64⟩])
      (.mk [] [⟨0, .value (.int 0), [], .s64⟩] [] [⟨0, [], .s64⟩]) [⟨3, [], .s64⟩],
    .op 4 (.prim .select []) [0, 3, 1] [] .s64]
  outputs := [⟨4, [], .s64⟩, ⟨0, [], .s64⟩]
  blobs := []

theorem pair_compiled : compileGraph (fun _ => true) (pair.map id).leaves (pair.map id) .device =
    .ok ⟨pairGraph, pair.map id, .device⟩ := by
  have lowered : toGraph (pair.map id).leaves = .ok pairGraph := rfl
  have accepted : Validate.validate pairGraph.toWire pairGraph.blobs Validate.maxNodes = .ok () := rfl
  simp only [compileGraph, lowered, accepted, if_true]

theorem pair_tidy : AllTidy pairGraph.nodes :=
  ⟨⟨fun _ => ⟨by decide, rfl⟩, trivial, trivial⟩, trivial, trivial⟩

def oneByte : Host Scalar where
  captures _ := true
  base id := id
  views := ReplayRuns.noViews
  encode v _ := match v with
    | .real n => [UInt8.ofNat n.toNat]
    | .cx => []

def empty : Live Scalar where
  values := ⟨fun _ => none, fun blob _ _ => match blob with
    | [b] => some (.real b.toNat)
    | _ => none⟩
  next := 1
  machine := .fresh Scalar

theorem empty_sound : empty.Sound := ⟨nofun, ReplayRuns.good_fresh Scalar⟩

def sent (b : UInt8) : Tensor := ⟨.host, [], .s64, .ok [b]⟩

theorem sent_ready {b : UInt8} {vs : List Scalar}
    (evaluated : evalList Scalar.sem (.every Scalar.types Scalar.sem.isTensor) 1
      (fun pos => [Scalar.real b.toNat][pos]?) pair.leaves = .ok vs) :
    Ready Scalar.types oneByte 1 0 1 pairGraph pair.leaves .device empty [sent b] [.real b.toNat] vs where
  fresh i mem := by
    obtain rfl := List.mem_singleton.mp mem
    exact ⟨sent b, rfl, [b], rfl⟩
  declared i mem t there := by
    obtain rfl := List.mem_singleton.mp mem
    cases there
    exact ⟨rfl, rfl⟩
  given := rfl
  evaluated := evaluated
  readable := nofun

theorem pair_returns : ∃ cs L',
    (compile Scalar.sem oneByte 1 0 1 id pair .device empty [[sent 1], [sent 0]]).result =
      .ok (cs, L') ∧ Grows empty L' ∧
    List.Forall₂ (fun p c => Holds 0 L' (pair.map id) p.2 c ∧
      evalList Scalar.sem (.taken Scalar.sem) 1 (fun pos => p.1[pos]?) (pair.map id).leaves = .ok p.2)
      [([.real 1], [.real 0, .real 1]), ([.real 0], [.real 7, .real 0])] cs :=
  closure_returns (T := Scalar.types) (nofun) choice_scoped pair_compiled pair_tidy empty_sound
    (.cons (sent_ready rfl) (.cons (sent_ready rfl) .nil)) (by decide +kernel)

end NxTinygrad.Closures
