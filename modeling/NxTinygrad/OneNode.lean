import NxTinygrad.Accepted
import NxTinygrad.Meaning
import NxTinygrad.Replay

/- The graph of a single operation on parameters and constants: it has one node, and its value is
   what the operation makes of the operands. -/
namespace NxTinygrad.Lowering
open IR Interpreter StraightLine Validate

def Expr.isLeaf : Expr → Bool
  | .parameter _ _ | .constant _ _ => true
  | _ => false

section
variable {st st' : State} {root : Expr} {args : List Expr} {ids : List Nat} {op : NodeOp}

theorem lower_bare (e : Expr) (st : State) : lower true e st = lower false e.strip st := by
  induction e using Expr.strip.induct with
  | case1 t inner ih =>
    simp only [lower, Expr.strip]
    exact ih
  | case2 e plain =>
    have same : e.strip = e := by
      cases e with
      | metadata t inner => exact absurd rfl (plain t inner)
      | _ => rfl
    rw [same]
    cases e with
    | metadata t inner => exact absurd rfl (plain t inner)
    | block t inputs default =>
      cases kind : default.isTuple with
      | false => rw [lower_block kind, lower_block kind]
      | true =>
        obtain ⟨outputs, rfl⟩ := isTuple_iff.mp kind
        simp only [lower]
    | _ => simp only [lower]

theorem lowerDynamic_children (starts : List (Int ⊕ Expr)) (st : State) :
    lowerDynamic starts st = lowerChildren (dynamicStarts starts) st := by
  induction starts generalizing st with
  | nil => simp only [lowerDynamic, dynamicStarts, List.filterMap_nil, lowerChildren]
  | cons s rest ih =>
    cases s with
    | inl n =>
      simp only [lowerDynamic]
      exact ih st
    | inr e =>
      have split : dynamicStarts (.inr e :: rest) = e :: dynamicStarts rest := rfl
      simp only [lowerDynamic, split, lowerChildren, ih]

theorem lowerStarts_children {k : Nat} {starts : List Expr} {specs : List StartSpec}
    (classified : putSliceStarts k starts = .ok specs) (st : State) :
    lowerStarts starts st = lowerChildren (runtimeStarts starts) st := by
  induction starts generalizing k specs st with
  | nil => simp only [lowerStarts, runtimeStarts, List.filter_nil, List.map_nil, lowerChildren]
  | cons e rest ih =>
    simp only [putSliceStarts, bind_ok] at classified
    obtain ⟨found, here, classified⟩ := classified
    rw [runtimeStarts_cons, classify_ok here]
    simp only [lowerStarts, here]
    cases found with
    | none =>
      obtain ⟨more, tail, _⟩ := bind_ok.mp classified
      have both := lower_bare e st
      simp only [Option.isSome_none, Bool.false_eq_true, if_false, lowerChildren, ← both, bind,
        Except.bind, ih tail]
    | some number =>
      cases number with
      | int n =>
        obtain ⟨more, tail, _⟩ := bind_ok.mp classified
        exact ih tail st
      | _ => cases classified

theorem lower_node (new : st.ids root.tag.ref = none) (plan : root.plan = some (args, op))
    (children : lowerChildren args st = .ok (ids, st')) :
    lower false root st = .ok (st'.addNode root.tag op ids) := by
  cases root with
  | op t o es =>
    simp only [Expr.plan, Option.ite_none_right_eq_some, Option.some.injEq, Prod.mk.injEq] at plan
    obtain ⟨takes, rfl, rfl⟩ := plan
    have new : st.ids t.ref = none := new
    simp only [lower, cached, new, takes, if_true, children]
    rfl
  | slice t a starts lengths strides =>
    simp only [Expr.plan, Option.some.injEq, Prod.mk.injEq] at plan
    obtain ⟨rfl, rfl⟩ := plan
    have new : st.ids t.ref = none := new
    simp only [lowerChildren, bind_ok, Prod.exists, Except.ok.injEq, Prod.mk.injEq] at children
    obtain ⟨id, st₁, first, rest, st₂, tail, rfl, rfl⟩ := children
    simp only [lower, cached, new, first, lowerDynamic_children, tail, bind, Except.bind]
    rfl
  | putSlice t a starts part =>
    simp only [Expr.plan] at plan
    cases classified : putSliceStarts 0 starts with
    | error e => simp [classified] at plan
    | ok specs =>
      simp only [classified, Option.some.injEq, Prod.mk.injEq] at plan
      obtain ⟨rfl, rfl⟩ := plan
      have new : st.ids t.ref = none := new
      simp only [lowerChildren, bind_ok, Prod.exists, Except.ok.injEq, Prod.mk.injEq] at children
      obtain ⟨id, st₁, first, _, _, ⟨partId, st₂, second, rest, st₃, tail, rfl, rfl⟩, rfl, rfl⟩ :=
        children
      simp only [lower, cached, new, first, second, classified,
        lowerStarts_children classified, tail, bind, Except.bind]
      rfl
  | pad t a value config =>
    simp only [Expr.plan] at plan
    cases constant : scalarConstant "pad" value with
    | error e => simp [constant] at plan
    | ok x =>
      simp only [constant, Option.some.injEq, Prod.mk.injEq] at plan
      obtain ⟨rfl, rfl⟩ := plan
      have new : st.ids t.ref = none := new
      simp only [lowerChildren, bind_ok, Prod.exists, Except.ok.injEq, Prod.mk.injEq] at children
      obtain ⟨id, st₁, first, _, _, ⟨rfl, rfl⟩, rfl, rfl⟩ := children
      simp only [lower, cached, new, first, constant, bind, Except.bind]
      rfl
  | windowScatter t o a source init window strides padding =>
    simp only [Expr.plan] at plan
    cases constant : scalarConstant (PrimOp.windowScatter o).name init with
    | error e => simp [constant] at plan
    | ok x =>
      simp only [constant, Option.some.injEq, Prod.mk.injEq] at plan
      obtain ⟨rfl, rfl⟩ := plan
      have new : st.ids t.ref = none := new
      simp only [lowerChildren, bind_ok, Prod.exists, Except.ok.injEq, Prod.mk.injEq] at children
      obtain ⟨id, st₁, first, _, _, ⟨sourceId, st₂, second, _, _, ⟨rfl, rfl⟩, rfl, rfl⟩,
          rfl, rfl⟩ :=
        children
      simp only [lower, cached, new, first, second, constant, bind, Except.bind]
      rfl
  | _ => cases plan

end

/-- A state in which some of the expressions `es`, all of them leaves, were lowered. -/
structure Leaves (es : List Expr) (st : State) : Prop where
  nodes : st.nodes = []
  blobs : st.blobs = []
  unbound : st.paramBind = none
  known : ∀ ref id, st.ids ref = some id → ∃ e ∈ es, e.tag.ref = ref
  inputs : ∀ i ∈ st.inputs, ∃ t, .parameter t i.index ∈ es ∧ (i.shape, i.dtype) = t.spec

section
variable {es xs : List Expr} {st st' : State} {e : Expr}

theorem Leaves.start (es : List Expr) : Leaves es (.start [] 0) where
  nodes := rfl
  blobs := rfl
  unbound := rfl
  known _ _ known := by cases known
  inputs _ mem := by cases mem

theorem Leaves.put (leaves : Leaves es st) (mem : e ∈ es) (id : Nat) :
    ∀ ref id', (st.put e.tag.ref id).ids ref = some id' → ∃ e ∈ es, e.tag.ref = ref := by
  intro ref id' known
  by_cases same : ref = e.tag.ref
  · exact ⟨e, mem, same.symm⟩
  · exact leaves.known ref id' (by simpa [State.put, Function.update_of_ne same] using known)

theorem lower_leaf (leaves : Leaves es st) (mem : e ∈ es) (leaf : e.isLeaf = true) :
    ∃ id st', lower false e st = .ok (id, st') ∧ Leaves es st' ∧
    (st.inputs ≠ [] → st'.inputs ≠ []) := by
  cases e with
  | parameter t pos =>
    simp only [lower, cached]
    cases known : st.ids t.ref with
    | some k => exact ⟨k, st, rfl, leaves, id⟩
    | none =>
      have unbound : st.bound pos = none := by simp [State.bound, leaves.unbound]
      simp only [lowerParameter, unbound]
      refine ⟨_, _, rfl, ⟨leaves.nodes, leaves.blobs, leaves.unbound, leaves.put mem _, ?_⟩, ?_⟩
      · intro i there
        rcases List.mem_cons.mp there with rfl | there
        · exact ⟨t, mem, rfl⟩
        · exact leaves.inputs i there
      · intro _
        simp
  | constant t number =>
    simp only [lower, cached]
    cases known : st.ids t.ref with
    | some k => exact ⟨k, st, rfl, leaves, id⟩
    | none =>
      simp only [lowerConstant]
      exact ⟨_, _, rfl, ⟨leaves.nodes, leaves.blobs, leaves.unbound, leaves.put mem _,
        leaves.inputs⟩, id⟩
  | _ => cases leaf

theorem lower_leaves (leaves : Leaves es st) (all : ∀ e ∈ xs, e ∈ es ∧ e.isLeaf = true) :
    ∃ ids st', lowerChildren xs st = .ok (ids, st') ∧ Leaves es st' ∧
      (st.inputs ≠ [] → st'.inputs ≠ []) := by
  induction xs generalizing st with
  | nil => exact ⟨[], st, by simp only [lowerChildren], leaves, id⟩
  | cons e rest ih =>
    obtain ⟨mem, leaf⟩ := all e (List.mem_cons_self ..)
    obtain ⟨id, st₁, first, leaves₁, more₁⟩ := lower_leaf leaves mem leaf
    obtain ⟨ids, st₂, tail, leaves₂, more₂⟩ :=
      ih leaves₁ fun x mem => all x (List.mem_cons_of_mem _ mem)
    refine ⟨id :: ids, st₂, ?_, leaves₂, more₂ ∘ more₁⟩
    simp only [lowerChildren, first, tail, bind, Except.bind]

theorem children_length {ids : List Nat} (children : lowerChildren xs st = .ok (ids, st')) :
    ids.length = xs.length := by
  induction xs generalizing st ids with
  | nil =>
    simp only [lowerChildren, Except.ok.injEq, Prod.mk.injEq] at children
    rw [← children.1]
    rfl
  | cons e rest ih =>
    simp only [lowerChildren, bind_ok, Prod.exists, Except.ok.injEq, Prod.mk.injEq] at children
    obtain ⟨id, st₁, _, more, st₂, tail, rfl, rfl⟩ := children
    simp [ih tail]

theorem lower_first {t : Tag} {pos : Nat} {rest : List Expr} {ids : List Nat}
    (all : ∀ e ∈ .parameter t pos :: rest, e.isLeaf = true)
    (lowered : lowerChildren (.parameter t pos :: rest) (.start [] 0) = .ok (ids, st')) :
    st'.inputs ≠ [] := by
  have here : Leaves (.parameter t pos :: rest) (.start [] 0) := .start _
  obtain ⟨id, st₁, first, leaves₁, _⟩ := lower_leaf here (List.mem_cons_self ..) rfl
  have some_input : st₁.inputs ≠ [] := by
    have new : (State.start [] 0).ids t.ref = none := rfl
    have unbound : (State.start [] 0).bound pos = none := rfl
    simp only [lower, cached, new, lowerParameter, unbound, Except.ok.injEq, Prod.mk.injEq] at first
    rw [← first.2]
    simp
  have others : ∀ e ∈ rest, e ∈ .parameter t pos :: rest ∧ e.isLeaf = true := fun e mem =>
    ⟨List.mem_cons_of_mem _ mem, all e (List.mem_cons_of_mem _ mem)⟩
  obtain ⟨more, st₂, tail, _, kept⟩ := lower_leaves leaves₁ others
  simp only [lowerChildren, first, tail, bind, Except.bind, Except.ok.injEq,
    Prod.mk.injEq] at lowered
  rw [← lowered.2]
  exact kept some_input

end

/-- The graph of an operation whose operands were lowered to `ids`. -/
def nodeGraph (root : Expr) (op : NodeOp) (ids : List Nat) (st : State) : Graph where
  inputs := st.inputs.reverse
  constants := st.constants.reverse
  nodes := [.op st.counter op ids root.tag.shape root.tag.dtype]
  outputs := [⟨st.counter, root.tag.shape, root.tag.dtype⟩]
  blobs := []

section
variable {root : Expr} {args : List Expr} {op : NodeOp} {ids : List Nat} {st : State}

theorem toGraph_node (plan : root.plan = some (args, op)) (all : ∀ e ∈ args, e.isLeaf = true) :
    ∃ ids st, lowerChildren args (.start [] 0) = .ok (ids, st) ∧ Leaves args st ∧
      toGraph [root] = .ok (nodeGraph root op ids st) := by
  obtain ⟨ids, st, children, leaves, _⟩ :=
    lower_leaves (Leaves.start args) fun e mem => ⟨mem, all e mem⟩
  have lowered := lower_node rfl plan children
  refine ⟨ids, st, children, leaves, ?_⟩
  simp only [toGraph, lowerOutputs, lowered, bind, Except.bind, State.addNode,
    State.alloc, State.put, leaves.nodes, leaves.blobs]
  rfl

variable {V : Type} {S : Sem V} {fuel : Nat} {params vs : List V} {scopes : Scopes}

theorem node_value (root : Expr) (op : NodeOp) (children : lowerChildren args (.start [] 0) = .ok (ids, st))
    (leaves : Leaves args st) (inside : ∀ a ∈ args, Scoped scopes none a)
    (ran : evalList S (.flow S) fuel (fun pos => params[pos]?) args = .ok vs) :
    let g := nodeGraph root op ids st
    interpret S g.blobs fuel (.mk g.inputs g.constants g.nodes g.outputs) [] params =
      (applyOp S [] op vs root.tag.shape root.tag.dtype).map ([·]) := by
  intro g
  have run := lowerChildren_run args children
  have fits : st.blobs.reverse <+: [] := by rw [leaves.blobs]; exact List.prefix_refl _
  obtain ⟨E, _, sim, held⟩ := run.sim ⟨.root, rfl⟩ inside (.start rfl) fits ran
  obtain ⟨base, bound, evaluated⟩ := sim.built.runs
  have same : base = E := by simpa [leaves.nodes, evalNodes] using evaluated
  subst same
  have reads : fetch EvalError.missing base
      (nodeReads (.op st.counter op ids root.tag.shape root.tag.dtype)) = .ok vs := held.fetched
  have bound : bindParams S g.blobs params g.inputs g.constants = .ok base := bound
  simp only [interpret, bound, bind, Except.bind]
  change (evalNodes S [] fuel [] [.op st.counter op ids root.tag.shape root.tag.dtype] base >>= _) =
      _
  simp only [evalNodes, reads, runNode, bind, Except.bind]
  cases applyOp S [] op vs root.tag.shape root.tag.dtype with
  | error e => rfl
  | ok v =>
    simp [assign, Node.definedIds, fetch, g, nodeGraph, Except.map]

theorem interpret_positional {g : Graph} {args : List V}
    (given : g.inputs.mapM (fun i => orFault params[i.index]?) = .ok args) :
    interpret S g.blobs fuel (.mk g.inputs g.constants g.nodes g.outputs) [] params =
      Replay.graphValues S g.blobs fuel g args := by
  simp only [interpret, bindParams, given, Replay.graphValues, bind, Except.bind]
  cases g.constants.mapM (makeConstant S g.blobs) <;> rfl

end

structure Placed (es : List Expr) (e : Expr) : Prop where
  leaf : e.isLeaf = true
  here : named es e.tag.ref = e
  rank : e.tag.shape.length ≤ maxRank
  position : ∀ t pos, e = .parameter t pos → pos = t.ref

section
variable {es : List Expr} {e root : Expr} {args : List Expr} {op : NodeOp}

theorem Placed.operands {σ : Type} (placed : Placed es e) (s inner : σ) :
    e.operands s inner = [] := by
  cases e with
  | parameter | constant => rfl
  | _ => cases placed.leaf

theorem Placed.subs (placed : Placed es e) : e.subs = [] := by
  cases e with
  | parameter | constant => rfl
  | _ => cases placed.leaf

theorem Placed.scoped (placed : Placed es e) : Scoped (scopesOf es) none e :=
  scoped_leaf placed.here (placed.operands none _) placed.subs

theorem Placed.typed (placed : Placed es e) : WellTyped ⟨named es, id⟩ none e := by
  have declared : Declares ⟨named es, id⟩ none e := by
    cases e with
    | parameter t pos => exact placed.position t pos rfl
    | constant => trivial
    | _ => cases placed.leaf
  refine .mk (fun _ => ⟨named es, id⟩) (fun _ => placed.here) declared placed.rank ?_ ?_
  · intro c mem
    rw [placed.operands] at mem
    cases mem
  · intro sub mem
    rw [placed.subs] at mem
    cases mem

theorem node_typed (plan : root.plan = some (args, op)) (here : named es root.tag.ref = root)
    (rank : root.tag.shape.length ≤ maxRank)
    (placed : ∀ {σ : Type} (s inner : σ), ∀ c ∈ root.operands s inner, c.1 = s ∧ Placed es c.2) :
    WellTyped ⟨named es, id⟩ none root := by
  have declared : Declares ⟨named es, id⟩ none root := by
    cases root with
    | op | slice | putSlice | pad | windowScatter => trivial
    | _ => cases plan
  have subs : root.subs = [] := by
    cases root with
    | op | slice | putSlice | pad | windowScatter => rfl
    | _ => cases plan
  refine .mk (fun _ => ⟨named es, id⟩) (fun _ => here) declared rank ?_ ?_
  · intro c mem
    obtain ⟨scope, leaf⟩ := placed _ _ c mem
    rw [scope]
    exact leaf.typed
  · intro sub mem
    rw [subs] at mem
    cases mem

theorem node_accepted (plan : root.plan = some (args, op)) (here : named es root.tag.ref = root)
    (rank : root.tag.shape.length ≤ maxRank)
    (placed : ∀ {σ : Type} (s inner : σ), ∀ c ∈ root.operands s inner, c.1 = s ∧ Placed es c.2)
    (leaves : ∀ e ∈ args, Placed es e) :
    ∃ ids st, lowerChildren args (.start [] 0) = .ok (ids, st) ∧ Leaves args st ∧
      toGraph [root] = .ok (nodeGraph root op ids st) ∧
      validate (nodeGraph root op ids st).toWire (nodeGraph root op ids st).blobs maxNodes =
      .ok () := by
  obtain ⟨ids, st, children, lowered, made⟩ := toGraph_node plan fun e mem => (leaves e mem).leaf
  have typed : ∀ e ∈ [root], WellTyped ⟨named es, id⟩ none e := by
    intro e mem
    rw [List.mem_singleton.mp mem]
    exact node_typed plan here rank placed
  have few : (nodeGraph root op ids st).nodes.length ≤ maxNodes := by
    have one : 1 ≤ maxNodes := by decide
    exact one
  exact ⟨ids, st, children, lowered, made,
    (toGraph_accepted (List.cons_ne_nil root []) typed made few).2⟩

end

end NxTinygrad.Lowering
