import NxTinygrad.Boundary

/- What `validate` leaves open: what stands below the top level, and entries it cannot read. -/
namespace NxTinygrad.Boundary
open IR Validate Wire StraightLine Interpreter Segments SegmentRuns

def heldBy (node : Json) : List Json :=
  if opOf node = some "while" then [attr node "cond", attr node "body"]
  else if (opOf node).any foldOps.contains then [attr node "fn"] else []

/-- A graph, its sub-graphs and theirs, nested at most `room` deep. -/
def levels : Nat → Json → List Json
  | 0, level => [level]
  | room + 1, level => level :: (itemsOf level "nodes").flatMap fun node =>
      (heldBy node).flatMap (levels room)

def allLevels (graph : Json) : List Json := levels graph.depth graph

def nodeCount (graph : Json) : Nat :=
  ((allLevels graph).map fun level => (itemsOf level "nodes").length).sum

structure LevelSound (level : Json) (blobs : List Blob) : Prop extends Linked level blobs where
  ops : Known level

/-- What is promised of an accepted graph, at every depth. -/
structure DeepSound (graph : Json) (blobs : List Blob) (maxNodes : Nat) : Prop where
  levels : ∀ level ∈ allLevels graph, LevelSound level blobs
  count : nodeCount graph ≤ maxNodes

structure Unchecked (graph : Json) (blobs : List Blob) (maxNodes : Nat) : Prop where
  linked : ∀ sub ∈ (allLevels graph).tail, Linked sub blobs
  ops : ∀ sub ∈ (allLevels graph).tail, ¬ Followed graph sub → Known sub
  count : nodeCount graph ≤ maxNodes

theorem levels_head (room : Nat) (level : Json) : levels room level = level :: (levels room level).tail := by
  cases room <;> rfl

theorem mem_levels_self (room : Nat) (level : Json) : level ∈ levels room level := by
  rw [levels_head]
  exact List.mem_cons_self ..

theorem depth_heldBy {level node sub : Json} (mem : node ∈ itemsOf level "nodes")
    (held : sub ∈ heldBy node) : sub.depth + 1 < level.depth := by
  have inside : ∃ key, sub = attr node key := by
    unfold heldBy at held
    split at held
    · rcases List.mem_cons.mp held with same | same
      · exact ⟨_, same⟩
      · exact ⟨_, List.mem_singleton.mp same⟩
    · split at held
      · exact ⟨_, List.mem_singleton.mp held⟩
      · cases held
  obtain ⟨key, rfl⟩ := inside
  exact depth_attr mem

theorem levels_closed {room : Nat} {graph level node sub : Json} (deep : graph.depth ≤ room)
    (here : level ∈ levels room graph) (mem : node ∈ itemsOf level "nodes")
    (held : sub ∈ heldBy node) : sub ∈ levels room graph := by
  induction room generalizing graph with
  | zero =>
    obtain rfl := List.mem_singleton.mp here
    have inside := depth_heldBy mem held
    omega
  | succ room ih =>
    simp only [levels, List.mem_cons, List.mem_flatMap] at here ⊢
    rcases here with rfl | ⟨outer, at_outer, inner, at_inner, below⟩
    · exact .inr ⟨node, mem, sub, held, mem_levels_self room sub⟩
    · have inside := depth_heldBy at_outer at_inner
      exact .inr ⟨outer, at_outer, inner, at_inner, ih (by omega) below⟩

theorem sound_everywhere_iff {graph : Json} {blobs : List Blob} {maxNodes : Nat}
    (accepted : validate graph blobs maxNodes = .ok ()) :
    DeepSound graph blobs maxNodes ↔ Unchecked graph blobs maxNodes := by
  obtain ⟨top, followed⟩ := accepted_sound accepted
  have split : allLevels graph = graph :: (allLevels graph).tail := levels_head ..
  constructor
  · intro sound
    have below : ∀ sub ∈ (allLevels graph).tail, LevelSound sub blobs :=
      fun sub mem => sound.levels sub (List.mem_of_mem_tail mem)
    exact ⟨fun sub mem => (below sub mem).toLinked, fun sub mem _ => (below sub mem).ops, sound.count⟩
  · intro rest
    refine ⟨?_, rest.count⟩
    intro level mem
    rw [split] at mem
    rcases List.mem_cons.mp mem with rfl | below
    · exact ⟨top.toLinked, top.ops⟩
    · refine ⟨rest.linked level below, ?_⟩
      by_cases follows : Followed graph level
      · exact (followed level follows).ops
      · exact rest.ops level below follows

/-- A while has a result for each of its outputs, before its first iteration and after the others. -/
def Fills (level : Json) : Prop :=
  ∀ node ∈ itemsOf level "nodes", opOf node = some "while" →
    (itemsOf node "outputs").length ≤ (itemsOf node "inputs").length ∧
    (itemsOf node "outputs").length ≤ (itemsOf (attr node "body") "outputs").length

mutual
def NodeCloses : Node → Prop
  | .op _ _ _ _ _ => True
  | .fold _ _ fn _ _ _ => SubCloses fn
  | .loop inputs cond body outputs => outputs.length ≤ inputs.length ∧
      outputs.length ≤ body.outputs.length ∧ SubCloses cond ∧ SubCloses body

def SubCloses : SubGraph → Prop
  | .mk inputs constants nodes outputs =>
      AllClose (inputs.map (·.id) ++ constants.map (·.id)) nodes (outputs.map (·.node))

def AllClose (known : List Nat) : List Node → List Nat → Prop
  | [], outputs => ∀ id ∈ outputs, id ∈ known
  | node :: rest, outputs => (∀ id ∈ node.inputs, id ∈ known) ∧ NodeCloses node ∧
      AllClose (known ++ node.definedIds) rest outputs
end

section
variable {V α β : Type} {S : Sem V} {blobs : List Blob} {fuel : Nat} {sym : List Nat}

def Finds (r : Except EvalError α) : Prop := ∀ id, r ≠ .error (.missing id)

theorem finds_ok (a : α) : Finds (.ok a : Except EvalError α) := by
  intro id same
  cases same

theorem finds_fault : Finds (.error .fault : Except EvalError α) := by
  intro id same
  cases same

theorem finds_orFault (o : Option α) : Finds (orFault o) := by
  cases o with
  | none => exact finds_fault
  | some a => exact finds_ok a

theorem finds_bind {x : Except EvalError α} {f : α → Except EvalError β} (first : Finds x)
    (next : ∀ a, x = .ok a → Finds (f a)) : Finds (x >>= f) := by
  cases x with
  | error e =>
    intro id same
    exact first id (by cases same; rfl)
  | ok a => exact next a rfl

theorem finds_mapM {f : α → Except EvalError β} (each : ∀ x, Finds (f x)) (xs : List α) :
    Finds (xs.mapM f) := by
  induction xs with
  | nil => exact finds_ok []
  | cons x rest ih =>
    rw [List.mapM_cons]
    exact finds_bind (each x) fun _ _ => finds_bind ih fun _ _ => finds_ok _

theorem finds_constant (c : Constant) : Finds (makeConstant S blobs c) := by
  unfold makeConstant
  split <;> exact finds_orFault _

theorem finds_starts (dyn : List V) (starts : List StartSpec) :
    Finds (resolveStarts S dyn sym starts) := by
  induction starts with
  | nil => exact finds_ok []
  | cons spec rest ih =>
    refine finds_bind ?_ fun _ _ => finds_bind ih fun _ _ => finds_ok _
    cases spec with
    | static n => exact finds_ok _
    | input k => exact finds_orFault _
    | symbolic k => exact finds_orFault _

theorem finds_apply (op : NodeOp) (vs : List V) (shape : List Nat) (dtype : Dtype) :
    Finds (applyOp S sym op vs shape dtype) := by
  unfold applyOp
  split
  · exact finds_orFault _
  · exact finds_bind (finds_starts _ _) fun _ _ => finds_orFault _
  · exact finds_bind (finds_starts _ _) fun _ _ => finds_orFault _
  · exact finds_fault

theorem finds_fold {fn : List V → Except EvalError (List V)} (each : ∀ params, Finds (fn params))
    (parts : List V) (acc : V) : Finds (foldParts fn acc parts) := by
  induction parts generalizing acc with
  | nil => exact finds_ok acc
  | cons part rest ih =>
    exact finds_bind (each _) fun outs _ => finds_bind (finds_orFault _) fun acc _ => ih acc

theorem finds_while {cond body : List V → Except EvalError (List V)} {count : Nat}
    (test : ∀ state, Finds (cond state)) (step : ∀ state, Finds (body state))
    (full : ∀ state next, body state = .ok next → count ≤ next.length) (fuel : Nat) {state : List V}
    (start : count ≤ state.length) :
    Finds (whileLoop S cond body fuel state) ∧
      ∀ last, whileLoop S cond body fuel state = .ok last → count ≤ last.length := by
  induction fuel generalizing state with
  | zero =>
    constructor
    · unfold whileLoop
      refine finds_bind (test _) fun _ _ => finds_bind (finds_orFault _) fun go _ => ?_
      split
      · intro id same
        cases same
      · exact finds_ok _
    · intro last done
      unfold whileLoop at done
      obtain ⟨_, _, done⟩ := except_bind_ok.mp done
      obtain ⟨go, _, done⟩ := except_bind_ok.mp done
      split at done
      · cases done
      · cases done
        exact start
  | succ fuel ih =>
    constructor
    · unfold whileLoop
      refine finds_bind (test _) fun _ _ => finds_bind (finds_orFault _) fun go _ => ?_
      split
      · refine finds_bind (step _) fun next ran => ?_
        split
        · exact (ih (full _ _ ran)).1
        · exact finds_fault
      · exact finds_ok _
    · intro last done
      unfold whileLoop at done
      obtain ⟨_, _, done⟩ := except_bind_ok.mp done
      obtain ⟨go, _, done⟩ := except_bind_ok.mp done
      split at done
      · obtain ⟨next, ran, done⟩ := except_bind_ok.mp done
        split at done
        · exact (ih (full _ _ ran)).2 last done
        · cases done
      · cases done
        exact start

theorem interpret_length {sub : SubGraph} {params outs : List V}
    (ran : interpret S blobs fuel sub sym params = .ok outs) : outs.length = sub.outputs.length := by
  obtain ⟨_, _, _, _, read⟩ := interpret_ok.mp ran
  rw [fetch_length read, List.length_map]

mutual
theorem runNode_finds {sym : List Nat} {node : Node} (closes : NodeCloses node) {vs : List V}
    (count : vs.length = (nodeReads node).length) :
    Finds (runNode S blobs fuel sym node vs) ∧
      ∀ outs, runNode S blobs fuel sym node vs = .ok outs → node.definedIds.length ≤ outs.length := by
  cases node with
  | op id op inputs shape dtype =>
    simp only [runNode]
    refine ⟨finds_bind (finds_apply _ _ _ _) fun _ _ => finds_ok _, ?_⟩
    intro outs ran
    obtain ⟨_, _, same⟩ := except_bind_ok.mp ran
    cases same
    exact Nat.le_refl _
  | fold id op fn inputs shape dtype =>
    have each : ∀ params, Finds (interpret S blobs fuel fn [] params) :=
      fun params => interpret_finds closes params
    simp only [runNode]
    constructor
    · refine finds_bind (finds_orFault _) fun _ _ => finds_bind (finds_orFault _) fun _ _ => ?_
      refine finds_bind (finds_orFault _) fun _ _ => finds_bind (finds_orFault _) fun _ _ => ?_
      refine finds_bind (finds_fold each _ _) fun _ _ => finds_bind (finds_orFault _) fun _ _ => ?_
      exact finds_ok _
    · intro outs ran
      obtain ⟨_, _, ran⟩ := except_bind_ok.mp ran
      obtain ⟨_, _, ran⟩ := except_bind_ok.mp ran
      obtain ⟨_, _, ran⟩ := except_bind_ok.mp ran
      obtain ⟨_, _, ran⟩ := except_bind_ok.mp ran
      obtain ⟨_, _, ran⟩ := except_bind_ok.mp ran
      obtain ⟨_, _, same⟩ := except_bind_ok.mp ran
      cases same
      exact Nat.le_refl _
  | loop inputs cond body outputs =>
    obtain ⟨given, returned, test, step⟩ := closes
    have tests : ∀ state, Finds (interpret S blobs fuel cond [] state) :=
      fun state => interpret_finds test state
    have steps : ∀ state, Finds (interpret S blobs fuel body [] state) :=
      fun state => interpret_finds step state
    have full : ∀ state next, interpret S blobs fuel body [] state = .ok next →
        outputs.length ≤ next.length := by
      intro state next ran
      rw [interpret_length ran]
      exact returned
    have start : outputs.length ≤ vs.length := count ▸ given
    have loop := @finds_while V S _ _ _ tests steps full fuel vs start
    simp only [runNode, Node.definedIds, List.length_map]
    split
    · exact loop
    · exact ⟨finds_fault, fun outs ran => nomatch ran⟩

theorem interpret_finds {sym : List Nat} {sub : SubGraph} (closes : SubCloses sub) (params : List V) :
    Finds (interpret S blobs fuel sub sym params) := by
  cases sub with
  | mk inputs constants nodes outputs =>
    simp only [interpret]
    refine finds_bind ?_ fun env bound => ?_
    · exact finds_bind (finds_mapM finds_constant _) fun _ _ =>
        finds_bind (finds_mapM (fun _ => finds_orFault _) _) fun _ _ => finds_ok _
    obtain ⟨values, args, made, given, rfl⟩ := bindParams_ok.mp bound
    have start : ∀ id ∈ inputs.map (·.id) ++ constants.map (·.id),
        (assign (assign (fun _ => none) (constants.map (·.id)) values) (inputs.map (·.id)) args
          id).isSome := by
      intro id mem
      rcases List.mem_append.mp mem with input | constant
      · exact assign_present (by rw [List.length_map, mapM_length given]) input
      · exact assign_keeps (assign_present (by rw [List.length_map, mapM_length made]) constant)
    obtain ⟨finds, final⟩ := evalNodes_finds closes start
    refine finds_bind finds fun env ran => ?_
    obtain ⟨vs, read⟩ := fetch_present (final env ran)
    rw [read]
    exact finds_ok vs

theorem evalNodes_finds {sym : List Nat} {known outputs : List Nat} {nodes : List Node}
    (closes : AllClose known nodes outputs) {env : Env V} (start : ∀ id ∈ known, (env id).isSome) :
    Finds (evalNodes S blobs fuel sym nodes env) ∧
      ∀ final, evalNodes S blobs fuel sym nodes env = .ok final →
        ∀ id ∈ outputs, (final id).isSome := by
  cases nodes with
  | nil =>
    simp only [evalNodes]
    refine ⟨finds_ok env, ?_⟩
    intro final same id mem
    cases same
    exact start id (closes id mem)
  | cons node rest =>
    obtain ⟨reads, here, later⟩ := closes
    obtain ⟨vs, read⟩ := @fetch_present V EvalError EvalError.missing env (nodeReads node)
      fun id mem => start id (reads id (nodeReads_sub mem))
    obtain ⟨finds, full⟩ := runNode_finds here (fetch_length read)
    have next : ∀ outs, runNode S blobs fuel sym node vs = .ok outs →
        ∀ id ∈ known ++ node.definedIds, (assign env node.definedIds outs id).isSome := by
      intro outs ran id mem
      rcases List.mem_append.mp mem with old | new
      · exact assign_keeps (start id old)
      · exact assign_filled (full outs ran) new
    simp only [evalNodes, read]
    constructor
    · exact finds_bind (finds_ok vs) fun vs' same => by
        cases same
        exact finds_bind finds fun outs ran => (evalNodes_finds later (next outs ran)).1
    · intro final ran
      obtain ⟨_, same, ran⟩ := except_bind_ok.mp ran
      cases same
      obtain ⟨outs, ran, tail⟩ := except_bind_ok.mp ran
      exact (evalNodes_finds later (next outs ran)).2 final tail
end

end

theorem refOf_wireNat (n : Nat) : refOf (wireNat n) = some n := by
  simp [refOf, wireNat, Json.number?, Json.int?]

theorem ids_wire {α : Type} {wire : α → Json} {id : α → Nat} (each : ∀ x, idOf (wire x) = some (id x))
    (xs : List α) : (xs.map wire).filterMap idOf = xs.map id := by
  induction xs with
  | nil => rfl
  | cons x rest ih => rw [List.map_cons, List.filterMap_cons, each, ih, List.map_cons]

theorem opOf_wire (node : Node) : (∃ op, opOf node.toWire = some op ∧ op ≠ "while" ∧
      ∀ reads cond body outs, node ≠ .loop reads cond body outs) ∨
    (opOf node.toWire = some "while" ∧ ∃ reads cond body outs, node = .loop reads cond body outs) := by
  cases node with
  | op id op reads shape dtype =>
    refine .inl ⟨op.name, by simp only [Node.toWire]; rfl, ?_, by simp⟩
    intro same
    exact op_plain op (by simp [same])
  | fold id op fn reads shape dtype =>
    refine .inl ⟨op.name, by simp only [Node.toWire]; rfl, ?_, by simp⟩
    cases op <;> simp [FoldOp.name]
  | loop reads cond body outs =>
    exact .inr ⟨by simp only [Node.toWire]; rfl, _, _, _, _, rfl⟩

theorem idOf_wireNat {j : Json} {n : Nat} (field : j.field? "id" = some (wireNat n)) : idOf j = some n := by
  rw [idOf, field, Option.bind_some, nat_wireNat]

theorem definesOf_wire (node : Node) : definesOf node.toWire = node.definedIds := by
  rcases opOf_wire node with ⟨op, named, plain, single⟩ | ⟨loop, reads, cond, body, outs, rfl⟩
  · have other : opOf node.toWire ≠ some "while" := by
      rw [named]
      simpa using plain
    rw [definesOf, if_neg other]
    cases node with
    | op id op reads shape dtype =>
      have here : idOf (Node.op id op reads shape dtype).toWire = some id :=
        idOf_wireNat (by simp only [Node.toWire]; rfl)
      simp [here, Node.definedIds]
    | fold id op fn reads shape dtype =>
      have here : idOf (Node.fold id op fn reads shape dtype).toWire = some id :=
        idOf_wireNat (by simp only [Node.toWire]; rfl)
      simp [here, Node.definedIds]
    | loop reads cond body outs => exact absurd rfl (single reads cond body outs)
  · have items : itemsOf (Node.loop reads cond body outs).toWire "outputs" = outs.map (·.toWire) := by
      simp only [Node.toWire]
      rfl
    rw [definesOf, if_pos loop, items]
    exact ids_wire (fun _ => rfl) outs

theorem inputs_wire (node : Node) : itemsOf node.toWire "inputs" = node.inputs.map wireNat := by
  cases node <;> (simp only [Node.toWire]; rfl)

theorem nodes_wire (sub : SubGraph) : itemsOf sub.toWire "nodes" = sub.nodes.map (·.toWire) := by
  cases sub
  simp only [SubGraph.toWire, nodesToWire_eq]
  rfl

theorem outputs_wire (sub : SubGraph) : itemsOf sub.toWire "outputs" = sub.outputs.map (·.toWire) := by
  cases sub
  simp only [SubGraph.toWire]
  rfl

theorem arguments_wire (sub : SubGraph) :
    argumentIds sub.toWire = sub.inputs.map (·.id) ++ sub.constants.map (·.id) := by
  cases sub with
  | mk inputs constants nodes outputs =>
    have given : itemsOf (SubGraph.mk inputs constants nodes outputs).toWire "inputs" =
        inputs.map (·.toWire) := by
      simp only [SubGraph.toWire]
      rfl
    have made : itemsOf (SubGraph.mk inputs constants nodes outputs).toWire "constants" =
        constants.map (·.toWire) := by
      simp only [SubGraph.toWire]
      rfl
    rw [argumentIds, given, made, ids_wire (fun _ => rfl), ids_wire (fun _ => rfl)]
    rfl

theorem reads_known {level : Json} {blobs : List Blob} (linked : Linked level blobs) {front back : List Node}
    {node : Node} (split : itemsOf level "nodes" = (front ++ node :: back).map (·.toWire)) :
    ∀ id ∈ node.inputs, id ∈ argumentIds level ++ front.flatMap Node.definedIds := by
  intro id mem
  rw [List.map_append, List.map_cons] at split
  have there : wireNat id ∈ itemsOf node.toWire "inputs" := by
    rw [inputs_wire]
    exact List.mem_map_of_mem mem
  obtain ⟨found, known, same⟩ := linked.refs _ _ _ split _ there
  rw [refOf_wireNat, Option.some.injEq] at same
  subst same
  have ids : (front.map (·.toWire)).flatMap definesOf = front.flatMap Node.definedIds := by
    rw [List.flatMap_map]
    exact congrArg (front.flatMap ·) (funext definesOf_wire)
  rwa [ids] at known

theorem outputs_known (sub : SubGraph) {level : Json} {blobs : List Blob} (linked : Linked level blobs)
    (nodes : itemsOf level "nodes" = sub.nodes.map (·.toWire))
    (outputs : itemsOf level "outputs" = sub.outputs.map (·.toWire)) :
    ∀ id ∈ sub.outputs.map (·.node), id ∈ argumentIds level ++ sub.nodes.flatMap Node.definedIds := by
  intro id mem
  obtain ⟨out, there, rfl⟩ := List.mem_map.mp mem
  have here : out.toWire ∈ itemsOf level "outputs" := by
    rw [outputs]
    exact List.mem_map_of_mem there
  obtain ⟨found, known, same⟩ := linked.outputs _ here
  have named : (out.toWire.field? "node").bind refOf = some out.node := refOf_wireNat out.node
  rw [named, Option.some.injEq] at same
  subst same
  have ids : (sub.nodes.map (·.toWire)).flatMap definesOf = sub.nodes.flatMap Node.definedIds := by
    rw [List.flatMap_map]
    exact congrArg (sub.nodes.flatMap ·) (funext definesOf_wire)
  rwa [topIds, nodes, ids] at known

section
variable {all : List Json} {blobs : List Blob}

mutual
theorem node_closes (closed : ∀ level ∈ all, ∀ node ∈ itemsOf level "nodes", ∀ sub ∈ heldBy node, sub ∈ all)
    (sound : ∀ level ∈ all, Linked level blobs ∧ Fills level) {level : Json} (mem : level ∈ all)
    {node : Node} (here : node.toWire ∈ itemsOf level "nodes") : NodeCloses node := by
  cases node with
  | op id op reads shape dtype => trivial
  | fold id op fn reads shape dtype =>
    have held : fn.toWire ∈ heldBy (Node.fold id op fn reads shape dtype).toWire := by
      cases op <;> (simp only [Node.toWire]; exact List.mem_singleton.mpr rfl)
    exact sub_closes closed sound (closed level mem _ here _ held)
  | loop reads cond body outs =>
    have held : ∀ sub ∈ [cond, body], sub.toWire ∈ heldBy (Node.loop reads cond body outs).toWire := by
      intro sub either
      simp only [Node.toWire]
      exact List.mem_map_of_mem either
    obtain ⟨given, returned⟩ := (sound level mem).2 _ here (by simp only [Node.toWire]; rfl)
    have outputs : itemsOf (Node.loop reads cond body outs).toWire "outputs" = outs.map (·.toWire) := by
      simp only [Node.toWire]
      rfl
    have step : attr (Node.loop reads cond body outs).toWire "body" = body.toWire := by
      simp only [Node.toWire]
      rfl
    rw [outputs, inputs_wire, List.length_map, List.length_map] at given
    rw [outputs, step, outputs_wire, List.length_map, List.length_map] at returned
    exact ⟨given, returned, sub_closes closed sound (closed level mem _ here _ (held cond (by simp))),
      sub_closes closed sound (closed level mem _ here _ (held body (by simp)))⟩

theorem sub_closes (closed : ∀ level ∈ all, ∀ node ∈ itemsOf level "nodes", ∀ sub ∈ heldBy node, sub ∈ all)
    (sound : ∀ level ∈ all, Linked level blobs ∧ Fills level) {sub : SubGraph}
    (mem : sub.toWire ∈ all) : SubCloses sub := by
  cases sub with
  | mk inputs constants nodes outputs =>
    have known := arguments_wire (.mk inputs constants nodes outputs)
    have start := all_close closed sound mem [] (nodes_wire (.mk inputs constants nodes outputs))
      (outputs_known _ (sound _ mem).1 (nodes_wire _) (outputs_wire _))
    rw [List.flatMap_nil, List.append_nil, known] at start
    exact start

theorem all_close (closed : ∀ level ∈ all, ∀ node ∈ itemsOf level "nodes", ∀ sub ∈ heldBy node, sub ∈ all)
    (sound : ∀ level ∈ all, Linked level blobs ∧ Fills level) {level : Json} (mem : level ∈ all)
    (front : List Node) {nodes : List Node} (split : itemsOf level "nodes" = (front ++ nodes).map (·.toWire))
    {outputs : List Nat}
    (last : ∀ id ∈ outputs, id ∈ argumentIds level ++ (front ++ nodes).flatMap Node.definedIds) :
    AllClose (argumentIds level ++ front.flatMap Node.definedIds) nodes outputs := by
  cases nodes with
  | nil =>
    rw [List.append_nil] at last
    exact last
  | cons node rest =>
    have here : node.toWire ∈ itemsOf level "nodes" := by
      rw [split]
      exact List.mem_map_of_mem (by simp)
    have shift : front ++ node :: rest = (front ++ [node]) ++ rest := by simp
    have later := all_close closed sound mem (front ++ [node]) (shift ▸ split) (shift ▸ last)
    rw [List.flatMap_append, List.flatMap_singleton, ← List.append_assoc] at later
    exact ⟨reads_known (sound level mem).1 split, node_closes closed sound mem here, later⟩
end

end

theorem interpretation_finds {V : Type} {S : Sem V} {g : Graph} {fuel : Nat} {params : List V}
    (sound : ∀ level ∈ allLevels g.toWire, Linked level g.blobs ∧ Fills level) :
    Finds (interpret S g.blobs fuel (.mk g.inputs g.constants g.nodes g.outputs) [] params) := by
  have top : g.toWire ∈ allLevels g.toWire := mem_levels_self ..
  have closed : ∀ level ∈ allLevels g.toWire, ∀ node ∈ itemsOf level "nodes", ∀ sub ∈ heldBy node,
      sub ∈ allLevels g.toWire :=
    fun level here node mem sub held => levels_closed (Nat.le_refl _) here mem held
  have nodes : itemsOf g.toWire "nodes" = g.nodes.map (·.toWire) := by
    simp only [Graph.toWire, nodesToWire_eq]
    rfl
  have arguments : argumentIds g.toWire = g.inputs.map (·.id) ++ g.constants.map (·.id) :=
    arguments_wire (.mk g.inputs g.constants g.nodes g.outputs)
  have start := all_close closed sound top [] nodes
    (outputs_known (.mk g.inputs g.constants g.nodes g.outputs) (sound _ top).1 nodes rfl)
  rw [List.flatMap_nil, List.append_nil, arguments] at start
  have closes : SubCloses (.mk g.inputs g.constants g.nodes g.outputs) := start
  exact interpret_finds closes params

/-! Rejection, entry by entry. -/

def got (j : Json) (key : String) : Json := (j.field? key).getD .null

def EachReached {α : Type} (passes reads : α → Prop) : List α → Prop
  | [] => True
  | x :: rest => reads x ∧ (passes x → EachReached passes reads rest)

def Along (f : Table → Json → Except PyError Table) (reads : Table → Json → Prop) :
    Table → List Json → Prop
  | _, [] => True
  | t, x :: rest => reads t x ∧ ∀ t', f t x = .ok t' → Along f reads t' rest

def SpecReads (j : Json) : Prop :=
  (shape? (got j "shape")).isSome = true → hashable (got j "dtype") = true

def EntryReads (t : Table) (j : Json) : Prop :=
  j.isObj = true ∧ ∀ id, idOf j = some id → id ∉ t.defined → SpecReads j

def InputReads (t : Table) (inp : Json) : Prop :=
  inp.isObj = true ∧ ∀ id, idOf inp = some id → id ∉ t.defined →
    (got inp "index").nat?.isSome = true → SpecReads inp

def Defined (t : Table) (ref : Json) : Prop := ∃ id ∈ t.defined, refOf ref = some id

def Supported (node : Json) : Prop := ∃ op ∈ supportedOps, opOf node = some op

def SubReads : Nat → Json → Prop
  | 0, _ => False
  | room + 1, sub => sub.isObj = true →
      (∀ key ∈ subGraphKeys, (got sub key).items?.isSome = true) → itemsOf sub "outputs" ≠ [] →
      EachReached (fun node => Supported node ∧ (opOf node = some "while" →
          ∀ key ∈ ["cond", "body"], validateSubgraph room (attr node key) = .ok ()))
        (fun node => node.isObj = true ∧ hashable (got node "op") = true ∧
          (opOf node = some "while" → (got node "attrs").isObj = true ∧ SubReads room (attr node "cond") ∧
            (validateSubgraph room (attr node "cond") = .ok () → SubReads room (attr node "body"))))
        (itemsOf sub "nodes")

def WhileReads (room : Nat) (t : Table) (node : Json) : Prop :=
  itemsOf node "outputs" ≠ [] → Along validateWhileOutput EntryReads t (itemsOf node "outputs") ∧
    ∀ t', foldTable validateWhileOutput t (itemsOf node "outputs") = .ok t' →
      SubReads room (attr node "cond") ∧
        (validateSubgraph room (attr node "cond") = .ok () → SubReads room (attr node "body"))

def PlainReads (room : Nat) (t : Table) (node : Json) : Prop :=
  ∀ id, idOf node = some id → id ∉ t.defined → SpecReads node ∧
    ∀ spec, checkSpec "node" node = .ok spec → (opOf node).any foldOps.contains = true →
      SubReads room (attr node "fn")

def NodeReads (room : Nat) (t : Table) (node : Json) : Prop :=
  node.isObj = true ∧ hashable (got node "op") = true ∧
    (Supported node → (got node "inputs").items?.isSome = true →
      EachReached (Defined t) (hashable · = true) (itemsOf node "inputs") ∧
        ((∀ ref ∈ itemsOf node "inputs", Defined t ref) → (got node "attrs").isObj = true →
          if opOf node = some "while" then WhileReads room t node else PlainReads room t node))

def OutputReads (t : Table) (out : Json) : Prop :=
  out.isObj = true ∧ hashable (got out "node") = true ∧ (Defined t (got out "node") → SpecReads out)

/-- Every entry that is reached, because all checks before it pass, can be read. -/
def Reads (graph : Json) (blobs : List Blob) (maxNodes : Nat) : Prop :=
  graph.isObj = true → isVersion (got graph "version") = true →
  (∀ key ∈ subGraphKeys, (got graph key).items?.isSome = true) →
  (itemsOf graph "nodes").length ≤ maxNodes →
    Along validateInput InputReads ⟨[], []⟩ (itemsOf graph "inputs") ∧
    ∀ t₁, foldTable validateInput ⟨[], []⟩ (itemsOf graph "inputs") = .ok t₁ →
    ((itemsOf graph "inputs").map fun inp => (inp.field? "index").bind Json.nat?).Nodup →
      Along (validateConstant blobs) EntryReads t₁ (itemsOf graph "constants") ∧
      ∀ t₂, foldTable (validateConstant blobs) t₁ (itemsOf graph "constants") = .ok t₂ →
        Along (validateNode graph.depth) (NodeReads graph.depth) t₂ (itemsOf graph "nodes") ∧
        ∀ t₃, foldTable (validateNode graph.depth) t₂ (itemsOf graph "nodes") = .ok t₃ →
        itemsOf graph "outputs" ≠ [] →
          EachReached (fun out => validateOutput t₃ out = .ok ()) (OutputReads t₃)
            (itemsOf graph "outputs")

section
variable {α β : Type}

theorem caught_bind_iff {x : Except PyError α} {f : α → Except PyError β} :
    Caught (x >>= f) ↔ Caught x ∧ ∀ a, x = .ok a → Caught (f a) := by
  constructor
  · intro caught
    cases x with
    | error e => exact ⟨fun e' same => caught e' (by cases same; rfl), nofun⟩
    | ok a => exact ⟨caught_ok a, fun a' same => by cases same; exact caught⟩
  · rintro ⟨first, next⟩
    exact caught_bind first next

theorem caught_check_iff {cond : Bool} {v : Violation} {f : Unit → Except PyError β} :
    Caught (check cond v >>= f) ↔ (cond = true → Caught (f ())) := by
  rw [caught_bind_iff]
  constructor
  · rintro ⟨-, next⟩ passed
    exact next () (check_ok.mpr passed)
  · intro next
    exact ⟨caught_check cond v, fun _ passed => next (check_ok.mp passed)⟩

theorem caught_attr_iff {j : Json} {key : String} {f : Json → Except PyError β} :
    Caught (getAttr j key >>= f) ↔ j.isObj = true ∧ Caught (f (got j key)) := by
  rw [caught_bind_iff]
  cases j with
  | obj fields =>
    constructor
    · rintro ⟨-, next⟩
      exact ⟨rfl, next _ rfl⟩
    · rintro ⟨-, next⟩
      exact ⟨caught_ok _, fun x same => by cases same; exact next⟩
  | _ =>
    refine ⟨fun ⟨caught, _⟩ => ?_, fun ⟨object, _⟩ => nomatch object⟩
    obtain ⟨v, same⟩ := caught .attributeError rfl
    cases same

theorem hashable_iff_isIn {names : List String} {j : Json} : hashable j = true ↔ Caught (isIn names j) := by
  refine ⟨caught_isIn names, fun caught => ?_⟩
  cases j with
  | arr items =>
    obtain ⟨v, same⟩ := caught .typeError rfl
    cases same
  | obj fields =>
    obtain ⟨v, same⟩ := caught .typeError rfl
    cases same
  | _ => rfl

theorem hashable_iff_isDefined {ids : List Nat} {j : Json} :
    hashable j = true ↔ Caught (isDefined ids j) := by
  refine ⟨caught_isDefined ids, fun caught => ?_⟩
  cases j with
  | arr items =>
    obtain ⟨v, same⟩ := caught .typeError rfl
    cases same
  | obj fields =>
    obtain ⟨v, same⟩ := caught .typeError rfl
    cases same
  | _ => rfl

theorem isIn_iff {names : List String} {j : Json} :
    isIn names j = .ok true ↔ ∃ s ∈ names, j.str? = some s := by
  refine ⟨isIn_ok, ?_⟩
  rintro ⟨s, mem, str⟩
  cases j with
  | str s' =>
    cases str
    simpa [isIn] using mem
  | _ => cases str

theorem isDefined_iff {ids : List Nat} {j : Json} :
    isDefined ids j = .ok true ↔ hashable j = true ∧ ∃ id ∈ ids, refOf j = some id := by
  constructor
  · intro found
    have caught : Caught (isDefined ids j) := by
      rw [found]
      exact caught_ok true
    exact ⟨hashable_iff_isDefined.mpr caught, isDefined_ok found⟩
  · rintro ⟨hash, id, mem, same⟩
    unfold refOf at same
    obtain ⟨n, number, same⟩ := Option.bind_eq_some_iff.mp same
    split at same
    · cases same
      cases j with
      | arr items => cases hash
      | obj fields => cases hash
      | _ => simp_all [isDefined]
    · cases same

theorem caught_isIn_iff {names : List String} {j : Json} {v : Violation} {f : Unit → Except PyError β} :
    Caught (isIn names j >>= fun found => check found v >>= f) ↔
      hashable j = true ∧ ((∃ s ∈ names, j.str? = some s) → Caught (f ())) := by
  rw [caught_bind_iff, ← hashable_iff_isIn]
  refine and_congr_right fun _ => ?_
  constructor
  · intro next there
    exact caught_check_iff.mp (next true (isIn_iff.mpr there)) rfl
  · intro next found eq
    refine caught_check_iff.mpr fun passed => next ?_
    subst passed
    exact isIn_iff.mp eq

theorem caught_isDefined_iff {ids : List Nat} {j : Json} {v : Violation} {f : Unit → Except PyError β} :
    Caught (isDefined ids j >>= fun found => check found v >>= f) ↔
      hashable j = true ∧ ((∃ id ∈ ids, refOf j = some id) → Caught (f ())) := by
  rw [caught_bind_iff, ← hashable_iff_isDefined]
  refine and_congr_right fun hash => ?_
  constructor
  · intro next there
    exact caught_check_iff.mp (next true (isDefined_iff.mpr ⟨hash, there⟩)) rfl
  · intro next found eq
    refine caught_check_iff.mpr fun passed => next ?_
    subst passed
    exact (isDefined_iff.mp eq).2

theorem caught_define_iff {t : Table} {entity : String} {ident : Json}
    {f : Table × Nat → Except PyError β} : Caught (define t entity ident >>= f) ↔
      ∀ id, ident.nat? = some id → id ∉ t.defined → Caught (f ({ t with defined := id :: t.defined }, id)) := by
  rw [caught_bind_iff]
  constructor
  · rintro ⟨-, next⟩ id nat fresh
    refine next _ ?_
    simp [define, nat, fresh]
  · intro next
    refine ⟨caught_define t entity ident, ?_⟩
    rintro ⟨t', id⟩ defines
    obtain ⟨nat, fresh, rfl⟩ := define_ok defines
    exact next id nat fresh

theorem caught_forEach_iff {f : α → Except PyError Unit} {passes reads : α → Prop}
    (one : ∀ x, Caught (f x) ↔ reads x) (ok : ∀ x, reads x → (f x = .ok () ↔ passes x)) (xs : List α) :
    Caught (forEach f xs) ↔ EachReached passes reads xs := by
  induction xs with
  | nil => exact iff_of_true (caught_ok ()) trivial
  | cons x rest ih =>
    have step : Caught (forEach f (x :: rest)) ↔
        Caught (f x) ∧ ∀ u, f x = .ok u → Caught (forEach f rest) := caught_bind_iff
    rw [step, one x]
    refine and_congr_right fun here => ?_
    rw [← ih]
    exact ⟨fun next passed => next () ((ok x here).mpr passed), fun next _ done => next ((ok x here).mp done)⟩

theorem caught_foldTable_iff {f : Table → Json → Except PyError Table} {reads : Table → Json → Prop}
    (one : ∀ t x, Caught (f t x) ↔ reads t x) (t : Table) (xs : List Json) :
    Caught (foldTable f t xs) ↔ Along f reads t xs := by
  induction xs generalizing t with
  | nil => exact iff_of_true (caught_ok t) trivial
  | cons x rest ih =>
    have step : Caught (foldTable f t (x :: rest)) ↔
        Caught (f t x) ∧ ∀ t', f t x = .ok t' → Caught (foldTable f t' rest) := caught_bind_iff
    rw [step, one]
    exact and_congr_right fun _ => forall₂_congr fun t' _ => ih t'

end

theorem got_bind {α : Type} {f : Json → Option α} (null : f .null = none) (j : Json) (key : String) :
    f (got j key) = (j.field? key).bind f := by
  unfold got
  cases j.field? key with
  | none => exact null
  | some x => rfl

theorem got_id (j : Json) : (got j "id").nat? = idOf j := got_bind rfl j "id"

theorem got_op (node : Json) : (got node "op").str? = opOf node := got_bind rfl node "op"

theorem supported_iff {node : Json} :
    isIn supportedOps (got node "op") = .ok true ↔ Supported node := by
  rw [isIn_iff, got_op]
  rfl

theorem got_items (j : Json) (key : String) : (got j key).items?.getD [] = itemsOf j key := by
  have found : (got j key).items? = (j.field? key).bind Json.items? := got_bind rfl j key
  rw [itemsOf, found]

theorem caught_checkSpec_iff {entity : String} {j : Json} :
    Caught (checkSpec entity j) ↔ j.isObj = true ∧ SpecReads j := by
  unfold checkSpec
  simp only [caught_attr_iff, caught_check_iff, caught_isIn_iff]
  constructor
  · rintro ⟨object, next⟩
    exact ⟨object, fun good => (next good).2.1⟩
  · rintro ⟨object, reads⟩
    exact ⟨object, fun good => ⟨object, reads good, fun _ => caught_ok _⟩⟩

theorem caught_input_iff {t : Table} {inp : Json} : Caught (validateInput t inp) ↔ InputReads t inp := by
  unfold validateInput
  simp only [caught_attr_iff, caught_define_iff, caught_check_iff, got_id]
  constructor
  · rintro ⟨object, next⟩
    refine ⟨object, fun id new fresh index => ?_⟩
    exact (caught_checkSpec_iff.mp (caught_bind_iff.mp ((next id new fresh).2 index)).1).2
  · rintro ⟨object, reads⟩
    refine ⟨object, fun id new fresh => ⟨object, fun index => ?_⟩⟩
    exact caught_bind (caught_checkSpec_iff.mpr ⟨object, reads id new fresh index⟩) fun _ _ => caught_ok _

theorem caught_whileOutput_iff {t : Table} {out : Json} :
    Caught (validateWhileOutput t out) ↔ EntryReads t out := by
  unfold validateWhileOutput
  simp only [caught_attr_iff, caught_define_iff, got_id]
  constructor
  · rintro ⟨object, next⟩
    refine ⟨object, fun id new fresh => ?_⟩
    exact (caught_checkSpec_iff.mp (caught_bind_iff.mp (next id new fresh)).1).2
  · rintro ⟨object, reads⟩
    refine ⟨object, fun id new fresh => ?_⟩
    exact caught_bind (caught_checkSpec_iff.mpr ⟨object, reads id new fresh⟩) fun _ _ => caught_ok _

theorem caught_constant_iff {blobs : List Blob} {t : Table} {const : Json} :
    Caught (validateConstant blobs t const) ↔ EntryReads t const := by
  unfold validateConstant
  simp only [caught_attr_iff, caught_define_iff, got_id]
  constructor
  · rintro ⟨object, next⟩
    refine ⟨object, fun id new fresh => ?_⟩
    exact (caught_checkSpec_iff.mp (caught_bind_iff.mp (next id new fresh)).1).2
  · rintro ⟨object, reads⟩
    refine ⟨object, fun id new fresh => ?_⟩
    refine caught_bind (caught_checkSpec_iff.mpr ⟨object, reads id new fresh⟩) fun spec _ => ?_
    refine caught_check_bind fun _ => ?_
    split
    · rename_i present
      obtain ⟨j, field⟩ := Option.isSome_iff_exists.mp present
      refine caught_bind ?_ fun _ _ => caught_ok _
      refine caught_bind (caught_getItem field) fun index _ => ?_
      exact caught_check_bind fun _ => caught_check _ _
    · exact caught_bind (caught_ok ()) fun _ _ => caught_ok _

theorem caught_refs_iff {t : Table} {refs : List Json} :
    Caught (forEach (checkRef t) refs) ↔ EachReached (Defined t) (hashable · = true) refs := by
  refine caught_forEach_iff (fun ref => ?_) (fun ref hash => ?_) refs
  · rw [checkRef, caught_bind_iff, ← hashable_iff_isDefined]
    exact ⟨And.left, fun hash => ⟨hash, fun _ _ => caught_check _ _⟩⟩
  · simp only [checkRef, bind_eq_ok, check_ok]
    constructor
    · rintro ⟨_, found, rfl⟩
      exact isDefined_ok found
    · intro there
      exact ⟨true, isDefined_iff.mpr ⟨hash, there⟩, rfl⟩

theorem refs_ok {t : Table} {refs : List Json} (all : ∀ ref ∈ refs, Defined t ref) :
    forEach (checkRef t) refs = .ok () := by
  refine forEach_ok.mpr fun ref mem => ?_
  obtain ⟨id, known, same⟩ := all ref mem
  have hash : hashable ref = true := by
    cases ref with
    | arr items => cases same
    | obj fields => cases same
    | _ => rfl
  have found := isDefined_iff.mpr ⟨hash, id, known, same⟩
  simp only [checkRef, found]
  rfl

theorem attrs_there {node : Json} (object : (got node "attrs").isObj = true) :
    getItem node "attrs" = .ok (got node "attrs") := by
  unfold got at object ⊢
  cases field : node.field? "attrs" with
  | none =>
    rw [field] at object
    cases object
  | some x => rw [getItem, field, Option.getD_some]

theorem got_attr {node : Json} (object : (got node "attrs").isObj = true) (key : String) :
    got (got node "attrs") key = attr node key := by
  have there := attrs_there object
  rw [getItem] at there
  cases field : node.field? "attrs" with
  | none =>
    rw [field] at there
    cases there
  | some x =>
    rw [attr, field, Option.bind_some, got]
    rw [got, field, Option.getD_some]

theorem attr_there {j : Json} (object : j.isObj = true) (key : String) : getAttr j key = .ok (got j key) := by
  cases j with
  | obj fields => rfl
  | _ => cases object

theorem item_there {j : Json} {key : String} (list : (got j key).items?.isSome = true) :
    getItem j key = .ok (got j key) := by
  unfold got at list ⊢
  cases field : j.field? key with
  | none =>
    rw [field] at list
    cases list
  | some x => rw [getItem, field, Option.getD_some]

theorem caught_attrs_iff {β : Type} {node : Json} {key : String} {f : Json → Json → Except PyError β} :
    Caught (getItem node "attrs" >>= fun attrs => getAttr attrs key >>= f attrs) ↔
      (got node "attrs").isObj = true ∧ Caught (f (got node "attrs") (attr node key)) := by
  by_cases object : (got node "attrs").isObj = true
  · rw [attrs_there object]
    change Caught (getAttr (got node "attrs") key >>= _) ↔ _
    rw [caught_attr_iff, got_attr object]
  · refine iff_of_false ?_ fun both => object both.1
    intro caught
    cases field : node.field? "attrs" with
    | none =>
      obtain ⟨v, same⟩ := caught .keyError (by rw [getItem, field]; rfl)
      cases same
    | some x =>
      have there : getItem node "attrs" = .ok (got node "attrs") := by
        rw [getItem, got, field, Option.getD_some]
      rw [there] at caught
      exact object (caught_attr_iff.mp caught).1

theorem caught_lists_iff {β : Type} {j : Json} {v : String → Violation} {f : Unit → Except PyError β}
    (object : j.isObj = true) (keys : List String) :
    Caught (forEach (fun key => do
        let x ← getAttr j key
        check x.items?.isSome (v key)) keys >>= f) ↔
      ((∀ key ∈ keys, (got j key).items?.isSome = true) → Caught (f ())) := by
  have done : forEach (fun key => do
      let x ← getAttr j key
      check x.items?.isSome (v key)) keys = .ok () ↔ ∀ key ∈ keys, (got j key).items?.isSome = true := by
    rw [forEach_ok]
    refine forall₂_congr fun key _ => ?_
    rw [attr_there object]
    exact check_ok
  rw [caught_bind_iff]
  constructor
  · rintro ⟨-, next⟩ all
    exact next () (done.mpr all)
  · intro next
    refine ⟨caught_forEach fun key _ => ?_, fun _ passed => next (done.mp passed)⟩
    exact caught_bind (caught_getAttr object key) fun x _ => caught_check _ _

theorem caught_while_iff {β : Type} {room : Nat} {node : Json} {last : Json → Except PyError β}
    (first : ∀ sub, Caught (validateSubgraph room sub) ↔ SubReads room sub)
    (second : ∀ sub, Caught (last sub) ↔ SubReads room sub) :
    Caught (getItem node "attrs" >>= fun attrs => getAttr attrs "cond" >>= fun cond =>
        validateSubgraph room cond >>= fun _ => getAttr attrs "body" >>= last) ↔
      (got node "attrs").isObj = true ∧ SubReads room (attr node "cond") ∧
        (validateSubgraph room (attr node "cond") = .ok () → SubReads room (attr node "body")) := by
  rw [caught_attrs_iff]
  refine and_congr_right fun object => ?_
  rw [caught_bind_iff, first]
  refine and_congr_right fun _ => ?_
  have step : Caught (getAttr (got node "attrs") "body" >>= last) ↔ SubReads room (attr node "body") := by
    rw [caught_attr_iff, got_attr object, second]
    exact and_iff_right object
  rw [step]
  exact ⟨fun next passed => next () passed, fun next _ passed => next passed⟩

theorem while_ok_iff {room : Nat} {node : Json} (object : (got node "attrs").isObj = true) :
    (getItem node "attrs" >>= fun attrs => getAttr attrs "cond" >>= fun cond =>
        validateSubgraph room cond >>= fun _ => getAttr attrs "body" >>= validateSubgraph room) = .ok () ↔
      ∀ key ∈ ["cond", "body"], validateSubgraph room (attr node key) = .ok () := by
  simp only [attrs_there object, attr_there object, got_attr object, bind_eq_ok, Except.ok.injEq,
    exists_eq_left', List.mem_cons, List.not_mem_nil, or_false, forall_eq_or_imp, forall_eq]
  exact ⟨fun ⟨_, both⟩ => both, fun both => ⟨(), both⟩⟩

theorem caught_sub_iff (room : Nat) (sub : Json) :
    Caught (validateSubgraph room sub) ↔ SubReads room sub := by
  induction room generalizing sub with
  | zero =>
    refine iff_of_false ?_ id
    intro caught
    obtain ⟨v, same⟩ := caught .recursionError rfl
    cases same
  | succ room ih =>
    simp only [validateSubgraph, SubReads, caught_check_iff]
    refine forall_congr' fun object => ?_
    rw [caught_lists_iff object]
    refine forall_congr' fun lists => ?_
    rw [item_there (lists "outputs" (by decide)), item_there (lists "nodes" (by decide))]
    change Caught (check (decide (1 ≤ ((got sub "outputs").items?.getD []).length)) .subNoOutputs >>=
      fun _ => forEach _ ((got sub "nodes").items?.getD [])) ↔ _
    rw [caught_check_iff, got_items, got_items, decide_eq_true_eq, Nat.one_le_iff_ne_zero, ne_eq,
      List.length_eq_zero_iff]
    refine forall_congr' fun _ => caught_forEach_iff (fun node => ?_) (fun node reads => ?_) _
    · rw [caught_attr_iff, caught_isIn_iff, got_op]
      refine and_congr_right fun object => and_congr_right fun hash => ?_
      by_cases loop : opOf node = some "while"
      · simp only [if_pos loop]
        have known : ∃ s ∈ supportedOps, opOf node = some s := ⟨"while", by decide, loop⟩
        exact ⟨fun next _ => (caught_while_iff ih ih).mp (next known), fun next _ =>
          (caught_while_iff ih ih).mpr (next loop)⟩
      · simp only [if_neg loop]
        exact iff_of_true (fun _ => caught_ok ()) fun is_loop => absurd is_loop loop
    · obtain ⟨object, -, nested⟩ := reads
      simp only [attr_there object, got_op, bind_eq_ok, check_ok, Except.ok.injEq, exists_eq_left']
      constructor
      · rintro ⟨_, found, _, rfl, rest⟩
        refine ⟨supported_iff.mp found, fun loop => ?_⟩
        rw [if_pos loop] at rest
        exact (while_ok_iff (nested loop).1).mp rest
      · rintro ⟨known, subs⟩
        refine ⟨true, supported_iff.mpr known, (), rfl, ?_⟩
        split
        · rename_i loop
          exact (while_ok_iff (nested loop).1).mpr (subs loop)
        · rfl

theorem caught_validateWhile_iff {room : Nat} {t : Table} {node : Json} (object : node.isObj = true)
    (attrs : (got node "attrs").isObj = true) :
    Caught (validateWhile room t node) ↔ WhileReads room t node := by
  unfold validateWhile WhileReads
  rw [caught_attr_iff, caught_check_iff, got_items, decide_eq_true_eq, Nat.one_le_iff_ne_zero, ne_eq,
    List.length_eq_zero_iff, and_iff_right object]
  refine forall_congr' fun _ => ?_
  rw [caught_bind_iff, caught_foldTable_iff fun t x => caught_whileOutput_iff]
  refine and_congr_right fun _ => forall₂_congr fun t' _ => ?_
  have last (sub : Json) : Caught (validateSubgraph room sub >>= fun _ => .ok t') ↔ SubReads room sub := by
    rw [caught_bind_iff, caught_sub_iff]
    exact and_iff_left fun _ _ => caught_ok t'
  rw [caught_while_iff (caught_sub_iff room) last]
  exact and_iff_right attrs

theorem caught_plain_iff {room : Nat} {t : Table} {node : Json} (object : node.isObj = true)
    (attrs : (got node "attrs").isObj = true) :
    Caught (validatePlain room t node (got node "op")) ↔ PlainReads room t node := by
  unfold validatePlain PlainReads
  rw [caught_attr_iff, caught_define_iff, got_id, and_iff_right object]
  refine forall₂_congr fun id _ => forall_congr' fun _ => ?_
  rw [caught_bind_iff, caught_checkSpec_iff, and_iff_right object]
  refine and_congr_right fun _ => forall₂_congr fun spec _ => ?_
  rw [got_op]
  by_cases fold : (opOf node).any foldOps.contains = true
  · have last (sub : Json) :
        Caught (validateSubgraph room sub >>= fun _ =>
          .ok ((Table.mk (id :: t.defined) t.specs).record id spec)) ↔ SubReads room sub := by
      rw [caught_bind_iff, caught_sub_iff]
      exact and_iff_left fun _ _ => caught_ok _
    simp only [fold, forall_const, if_true]
    rw [caught_attrs_iff, last]
    exact and_iff_right attrs
  · simp only [if_neg fold]
    exact iff_of_true (caught_bind (caught_ok ()) fun _ _ => caught_ok _) fun is_fold => absurd is_fold fold

theorem caught_node_iff {room : Nat} {t : Table} {node : Json} :
    Caught (validateNode room t node) ↔ NodeReads room t node := by
  unfold validateNode NodeReads
  rw [caught_attr_iff, caught_isIn_iff, got_op]
  refine and_congr_right fun object => and_congr_right fun _ => forall_congr' fun _ => ?_
  rw [caught_attr_iff, caught_check_iff, and_iff_right object, got_items]
  refine forall_congr' fun _ => ?_
  rw [caught_bind_iff, caught_refs_iff]
  refine and_congr_right fun read => ?_
  have rest : Caught (getAttr node "attrs" >>= fun attrs => check attrs.isObj .attrsNotObject >>= fun _ =>
      if opOf node = some "while" then validateWhile room t node
      else validatePlain room t node (got node "op")) ↔ ((got node "attrs").isObj = true →
        if opOf node = some "while" then WhileReads room t node else PlainReads room t node) := by
    rw [caught_attr_iff, caught_check_iff, and_iff_right object]
    refine forall_congr' fun attrs => ?_
    split
    · exact caught_validateWhile_iff object attrs
    · exact caught_plain_iff object attrs
  rw [← rest]
  constructor
  · intro next all
    exact next () (refs_ok all)
  · intro next _ passed
    refine next ?_
    intro ref mem
    obtain ⟨_, found, hit⟩ := bind_eq_ok.mp (forEach_ok.mp passed ref mem)
    rw [check_ok.mp hit] at found
    exact isDefined_ok found

theorem caught_output_iff {t : Table} {out : Json} (recorded : Recorded t) :
    Caught (validateOutput t out) ↔ OutputReads t out := by
  unfold validateOutput OutputReads
  rw [caught_attr_iff, caught_isDefined_iff]
  refine and_congr_right fun object => and_congr_right fun _ => forall_congr' fun there => ?_
  rw [caught_bind_iff, caught_checkSpec_iff, and_iff_right object]
  refine and_iff_left_of_imp fun _ spec _ => ?_
  obtain ⟨id, mem, eq⟩ := there
  obtain ⟨n, number, same⟩ := Option.bind_eq_some_iff.mp eq
  split at same
  · cases same
    obtain ⟨expected, found⟩ := Option.isSome_iff_exists.mp (recorded _ mem)
    rw [number, Option.getD_some, found]
    exact caught_check_bind fun _ => caught_check _ _
  · cases same

theorem caught_iff (graph : Json) (blobs : List Blob) (maxNodes : Nat) :
    Caught (validate graph blobs maxNodes) ↔ Reads graph blobs maxNodes := by
  unfold validate Reads
  rw [caught_check_iff]
  refine forall_congr' fun object => ?_
  rw [caught_attr_iff, caught_check_iff, and_iff_right object]
  refine forall_congr' fun _ => ?_
  rw [caught_lists_iff object]
  refine forall_congr' fun _ => ?_
  rw [caught_check_iff, decide_eq_true_eq]
  refine forall_congr' fun _ => ?_
  rw [caught_bind_iff, caught_foldTable_iff fun t x => caught_input_iff]
  refine and_congr_right fun _ => forall₂_congr fun t₁ inputs => ?_
  simp only [caught_check_iff, decide_eq_true_eq]
  refine forall_congr' fun _ => ?_
  rw [caught_bind_iff, caught_foldTable_iff fun t x => caught_constant_iff]
  refine and_congr_right fun _ => forall₂_congr fun t₂ constants => ?_
  rw [caught_bind_iff, caught_foldTable_iff fun t x => caught_node_iff]
  refine and_congr_right fun _ => forall₂_congr fun t₃ nodes => ?_
  rw [caught_check_iff, decide_eq_true_eq, Nat.one_le_iff_ne_zero, ne_eq, List.length_eq_zero_iff]
  have recorded : Recorded t₃ := by
    have first : Recorded t₁ := (inputs_grow inputs).recorded fun id mem => by cases mem
    exact (nodes_grow nodes).recorded ((constants_grow constants).recorded first)
  refine forall_congr' fun _ => ?_
  exact caught_forEach_iff (fun out => caught_output_iff recorded) (fun _ _ => Iff.rfl) _

theorem reads_of_readable {graph : Json} (blobs : List Blob) (maxNodes : Nat) (readable : Readable graph) :
    Reads graph blobs maxNodes :=
  (caught_iff graph blobs maxNodes).mp (rejected_caught readable)

/-- What `validate` checks holds of the graphs it accepts; all that was promised of them holds exactly
    when the rest does. It raises nothing but its own exception exactly when the entries it reaches can
    be read. A graph of which the promise holds, with whiles that fill their outputs, is interpreted
    without missing an id. -/
theorem validation_iff (graph : Json) (blobs : List Blob) (maxNodes : Nat) :
    (validate graph blobs maxNodes = .ok () →
      (TopSound graph blobs maxNodes ∧ ∀ sub, Followed graph sub → SubSound sub) ∧
        (DeepSound graph blobs maxNodes ↔ Unchecked graph blobs maxNodes)) ∧
    ((∀ e, validate graph blobs maxNodes = .error e → ∃ v, e = .graphValidation v) ↔
      Reads graph blobs maxNodes) ∧
    (Readable graph → Reads graph blobs maxNodes) ∧
    ∀ (V : Type) (S : Sem V) (g : Graph) (fuel : Nat) (params : List V),
      g.toWire = graph → g.blobs = blobs → validate graph blobs maxNodes = .ok () →
      Unchecked graph blobs maxNodes → (∀ level ∈ allLevels graph, Fills level) → ∀ id,
        interpret S blobs fuel (.mk g.inputs g.constants g.nodes g.outputs) [] params ≠
          .error (.missing id) := by
  refine ⟨?_, caught_iff graph blobs maxNodes, reads_of_readable blobs maxNodes, ?_⟩
  · intro accepted
    exact ⟨accepted_sound accepted, sound_everywhere_iff accepted⟩
  · rintro V S g fuel params rfl rfl accepted rest fills
    have sound := (sound_everywhere_iff accepted).mpr rest
    exact interpretation_finds fun level mem => ⟨(sound.levels level mem).toLinked, fills level mem⟩

theorem linked_flat {level : Json} {blobs : List Blob} (distinct : (topIds level).Nodup)
    (constants : itemsOf level "constants" = [])
    (reads : ∀ node ∈ itemsOf level "nodes", ∀ ref ∈ itemsOf node "inputs",
      ∃ id ∈ argumentIds level, refOf ref = some id)
    (outputs : ∀ out ∈ itemsOf level "outputs", ∃ id ∈ topIds level,
      (out.field? "node").bind refOf = some id) : Linked level blobs := by
  refine ⟨distinct, ?_, ?_, outputs⟩
  · intro const mem
    rw [constants] at mem
    cases mem
  · intro front node back split ref mem
    obtain ⟨id, known, same⟩ := reads node (by simp [split]) ref mem
    exact ⟨id, List.mem_append_left _ known, same⟩

def turningTest : SubGraph := .mk [⟨0, 0, [1], .f32⟩] [] [] [⟨0, [1], .f32⟩]

def turningStep : SubGraph :=
  .mk [⟨0, 0, [1], .f32⟩] [] [.op 1 (.prim (.unary .conjugate) []) [0] [1] .f32] [⟨1, [1], .f32⟩]

def turning : Graph where
  inputs := [⟨0, 0, [1], .f32⟩]
  constants := []
  nodes := [.loop [0] turningTest turningStep [⟨1, [1], .f32⟩]]
  outputs := [⟨1, [1], .f32⟩]
  blobs := []

theorem turning_unchecked : Unchecked turning.toWire [] 2 where
  linked sub mem := by
    have each : sub ∈ [turningTest.toWire, turningStep.toWire] := mem
    simp only [List.mem_cons, List.not_mem_nil, or_false] at each
    rcases each with rfl | rfl
    · refine linked_flat (by decide) rfl (fun node mem => nomatch mem) fun out mem => ?_
      obtain rfl := List.mem_singleton.mp mem
      exact ⟨0, by decide, rfl⟩
    · refine linked_flat (by decide) rfl (fun node mem ref read => ?_) fun out mem => ?_
      · obtain rfl := List.mem_singleton.mp mem
        obtain rfl := List.mem_singleton.mp read
        exact ⟨0, by decide, rfl⟩
      · obtain rfl := List.mem_singleton.mp mem
        exact ⟨1, by decide, rfl⟩
  ops sub mem _ := by
    have each : sub ∈ [turningTest.toWire, turningStep.toWire] := mem
    simp only [List.mem_cons, List.not_mem_nil, or_false] at each
    intro node here
    rcases each with rfl | rfl
    · cases here
    · obtain rfl := List.mem_singleton.mp here
      exact ⟨"conjugate", by decide, rfl⟩
  count := by decide

theorem turning_sound : DeepSound turning.toWire [] 2 ∧
    (∃ v, PyError.graphValidation (.version .null) = .graphValidation v) ∧
    ∀ id, interpret conjugation [] 1 (.mk turning.inputs turning.constants turning.nodes turning.outputs) []
      [.plain [0]] ≠ .error (.missing id) := by
  have accepted : validate turning.toWire [] 2 = .ok () := rfl
  have fills : ∀ level ∈ allLevels turning.toWire, Fills level := by
    intro level mem node here loop
    have each : level ∈ [turning.toWire, turningTest.toWire, turningStep.toWire] := mem
    simp only [List.mem_cons, List.not_mem_nil, or_false] at each
    rcases each with rfl | rfl | rfl
    · obtain rfl := List.mem_singleton.mp here
      decide
    · cases here
    · obtain rfl := List.mem_singleton.mp here
      exact absurd loop (by decide)
  refine ⟨?_, ?_, ?_⟩
  · exact ((validation_iff turning.toWire [] 2).1 accepted).2.mpr turning_unchecked
  · exact (validation_iff (.obj []) [] 2).2.1.mpr (fun _ version => nomatch version) _ rfl
  · exact (validation_iff turning.toWire [] 2).2.2.2 _ conjugation turning 1 [.plain [0]] rfl rfl accepted
      turning_unchecked fills

/-- A condition that reads an id it does not define, from a blob that is not there. -/
def looseCond : SubGraph :=
  .mk [] [⟨1, .data 5, [], .f32⟩] [.op 1 (.prim (.unary .negate) []) [7] [] .f32] [⟨1, [], .f32⟩]

def looseWhile : Graph where
  inputs := [⟨0, 0, [], .f32⟩]
  constants := []
  nodes := [.loop [0] looseCond (.mk [⟨0, 0, [], .f32⟩] [] [] [⟨0, [], .f32⟩]) [⟨1, [], .f32⟩]]
  outputs := [⟨1, [], .f32⟩]
  blobs := []

def wireSub (nodes : List Json) : Json :=
  .obj [("inputs", .arr []), ("constants", .arr []), ("nodes", .arr nodes), ("outputs", .arr [.null])]

/-- A while whose condition holds a reduce whose function holds an operation `op`. -/
def hiddenOp (op : String) : Json :=
  .obj [("version", .int 1), ("inputs", .arr []), ("constants", .arr []),
    ("nodes", .arr [.obj [("op", .str "while"), ("inputs", .arr []),
      ("outputs", .arr [.obj [("id", .int 0), ("shape", .arr []), ("dtype", .str "f32")]]),
      ("attrs", .obj [
        ("cond", wireSub [.obj [("op", .str "reduce"),
          ("attrs", .obj [("fn", wireSub [.obj [("op", .str op)]])])]]),
        ("body", wireSub [])])]]),
    ("outputs", .arr [.obj [("node", .int 0), ("shape", .arr []), ("dtype", .str "f32")]])]

def bareInput : Json :=
  .obj [("version", .int 1), ("inputs", .arr [.int 3]), ("constants", .arr []), ("nodes", .arr []),
    ("outputs", .arr [])]

/-- Sub-graphs are checked for their operations only, reduce functions inside them not at
    all, and a malformed entry escapes as another exception. -/
theorem validation_leaks :
    (validate looseWhile.toWire [] 1 = .ok () ∧
      (itemsOf looseWhile.toWire "nodes").length + (itemsOf looseCond.toWire "nodes").length = 2 ∧
      evalNodes conjugation [] 1 [] [.op 1 (.prim (.unary .negate) []) [7] [] .f32] (fun _ => none) =
        .error (.missing 7)) ∧
    (∀ op, validate (hiddenOp op) [] Validate.maxNodes = .ok ()) ∧
    validate bareInput [] Validate.maxNodes = .error .attributeError :=
  ⟨⟨rfl, rfl, rfl⟩, fun _ => rfl, rfl⟩

end NxTinygrad.Boundary
