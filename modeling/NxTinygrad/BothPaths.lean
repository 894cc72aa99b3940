import NxTinygrad.Capture
import NxTinygrad.Eager
import NxTinygrad.OneNode

/- An operation of the eager backend, and the compiled graph of this operation alone. -/
namespace NxTinygrad.Eager
open IR Interpreter Lowering NDArray Reductions Validate

variable {α : Type} {K : Kernels α}

def operand (ts : List (Buffer K)) (k : Nat) : Expr :=
  .parameter ⟨k, (ts[k]?.map (·.shape)).getD [], (ts[k]?.map (·.dtype)).getD .f32⟩ k

def startExpr (ts : List (Buffer K)) (ref : Ref) : StartArg → Expr
  | .integer n => .constant ⟨ref, [], .s32⟩ (.int n)
  | .constant dtype n => .constant ⟨ref, [], dtype⟩ (.int n)
  | .tensor k => operand ts k

def sliceExprs (ts : List (Buffer K)) : Ref → List StartArg → List (Int ⊕ Expr)
  | _, [] => []
  | ref, .integer n :: rest => .inl n :: sliceExprs ts (ref + 1) rest
  | ref, s :: rest => .inr (startExpr ts ref s) :: sliceExprs ts (ref + 1) rest

def putExprs (ts : List (Buffer K)) : Ref → List StartArg → List Expr
  | _, [] => []
  | ref, s :: rest => startExpr ts ref s :: putExprs ts (ref + 1) rest

def scalarExpr (ts : List (Buffer K)) (ref : Ref) : ScalarArg → Expr
  | .constant dtype x => .constant ⟨ref, [], dtype⟩ x
  | .tensor k => operand ts k

def Call.expr (ts : List (Buffer K)) (out : Spec) : Call → Expr
  | .op o args => .op ⟨ts.length, out.1, out.2⟩ o (args.map (operand ts))
  | .slice a starts lengths strides => .slice ⟨ts.length, out.1, out.2⟩ (operand ts a)
      (sliceExprs ts (ts.length + 1) starts) lengths strides
  | .putSlice a starts part => .putSlice ⟨ts.length, out.1, out.2⟩ (operand ts a)
      (putExprs ts (ts.length + 1) starts) (operand ts part)
  | .pad a value config => .pad ⟨ts.length, out.1, out.2⟩ (operand ts a)
      (scalarExpr ts (ts.length + 1) value) config
  | .windowScatter o a source init window strides padding =>
      .windowScatter ⟨ts.length, out.1, out.2⟩ o
      (operand ts a) (operand ts source) (scalarExpr ts (ts.length + 1) init) window strides padding

def dummy (K : Kernels α) (spec : Spec) (seed : Nat) : Buffer K where
  shape := spec.1
  dtype := spec.2
  tensor := ⟨storedShape spec.1 spec.2,
    (List.range (storedShape spec.1 spec.2).prod).map fun i => K.counter spec.2 (i + seed), by simp⟩
  stored := rfl
  elements x mem := by
    obtain ⟨i, _, rfl⟩ := List.mem_map.mp mem
    exact K.counter_of spec.2 (i + seed)

theorem dummies_stored (K : Kernels α) (inputs : List (Buffer K)) (seed : Nat) :
    Stored (inputs.map fun b => dummy K b.spec seed) := by
  intro b mem
  obtain ⟨c, _, rfl⟩ := List.mem_map.mp mem
  rfl

/-- No part makes the complex number NaN: `wire_numpy` computes `re + 1j * im`. -/
def folds (K : Kernels α) : List α → Bool
  | re :: im :: rest => !(K.isNan re || K.isNan im || K.isInf im) && folds K rest
  | _ => true

/-- `_validate_replay` of an output that the replay computes as it was computed before: NaN equals NaN for
    floats only. -/
def replays (K : Kernels α) (dtype : Dtype) (t : NDArray α) : Bool :=
  if dtype.isComplex then folds K t.data else true

def graphFn (K : Kernels α) (g : Graph) (inputs : List (Buffer K)) : Option (List (Value α)) :=
  (Replay.graphValues K.sem g.blobs 0 g (inputs.map Buffer.value)).toOption

def captures (K : Kernels α) (g : Graph) : Bool :=
  let call := fun seed => graphFn K g (g.inputs.map fun i => dummy K (i.shape, i.dtype) seed)
  if g.inputs.isEmpty || Capture.eager g then true
  else (call 1).isSome && (call 2).isSome && (call 3).any fun outs =>
    outs.length == g.outputs.length && (outs.zip g.outputs).all fun o =>
      (tensor o.1).shape == storedShape o.2.shape o.2.dtype && replays K o.2.dtype (tensor o.1)

def compiled (K : Kernels α) (ts : List (Buffer K)) (out : Spec) (call : Call) :
    Option (NDArray α) := do
  let g ← (toGraph [call.expr ts out]).toOption
  let _ ← (validate g.toWire g.blobs maxNodes).toOption
  if captures K g then
    let inputs ← g.inputs.mapM fun i => ts[i.index]?
    let outs ← graphFn K g inputs
    outs.head?.map tensor
  else none

def StartArg.operands : StartArg → List Nat
  | .tensor k => [k]
  | _ => []

def ScalarArg.operands : ScalarArg → List Nat
  | .tensor k => [k]
  | _ => []

def Call.operands : Call → List Nat
  | .op _ args => args
  | .slice a starts _ _ => a :: starts.flatMap StartArg.operands
  | .putSlice a starts part => a :: part :: starts.flatMap StartArg.operands
  | .pad a value _ => a :: value.operands
  | .windowScatter _ a source init _ _ _ => a :: source :: init.operands

inductive SliceOf : List Nat → List Nat → List Nat → List Nat → Prop where
  | nil : SliceOf [] [] [] []
  | cons {d l s ds ls ss os} : l ≤ d → 0 < s → SliceOf ds ls ss os →
      SliceOf (d :: ds) (l :: ls) (s :: ss) ((l + s - 1) / s :: os)

def StartArg.Passed (ts : List (Buffer K)) : StartArg → Prop
  | .integer _ => True
  | .constant dtype n => Dtype.Holds dtype n
  | .tensor k => ∀ s, ts[k]? = some s → s.shape = [] ∧ s.dtype.isComplex = false

def Passed (ts : List (Buffer K)) (out : Spec) (call : Call) : Prop :=
  (∀ k ∈ call.operands, k < ts.length) ∧ match call with
    | .op o args => o.takes args.length = true
    | .slice a starts lengths strides => ∀ t, ts[a]? = some t → out.2 = t.dtype ∧
        SliceOf t.shape lengths strides out.1 ∧ starts.length = t.shape.length ∧
          ∀ s ∈ starts, s.Passed ts
    | .putSlice a starts slice => ∀ t s, ts[a]? = some t → ts[slice]? = some s → out.1 = t.shape ∧
        (out.2.isComplex = false → t.dtype.isComplex = false ∧ s.dtype.isComplex = false) ∧
          s.shape.length = t.shape.length ∧ starts.length = t.shape.length ∧
            ∀ s ∈ starts, s.Passed ts
    | .pad _ _ _ | .windowScatter _ _ _ _ _ _ _ => True

def Ranked (ts : List (Buffer K)) (out : Spec) (call : Call) : Prop :=
  out.1.length ≤ maxRank ∧ ∀ k ∈ call.operands, ∀ t, ts[k]? = some t → t.shape.length ≤ maxRank

def Resident (ts : List (Buffer K)) (call : Call) : Prop :=
  ∀ k ∈ call.operands, ∀ t, ts[k]? = some t → t.constant = false

theorem Resident.stored {ts inputs : List (Buffer K)} {call : Call} {ks : List Nat}
    (resident : Resident ts call) (named : ∀ k ∈ ks, k ∈ call.operands)
    (read : ks.mapM (ts[·]?) = some inputs) : Stored inputs := by
  intro b mem
  obtain ⟨j, at_j⟩ := List.mem_iff_getElem?.mp mem
  rw [(NDArray.mapM_get read).2, Option.bind_eq_some_iff] at at_j
  obtain ⟨k, at_k, there⟩ := at_j
  exact resident k (named k (List.mem_of_getElem? at_k)) b there

theorem Resident.one {ts : List (Buffer K)} {call : Call} {a : Nat} {t : Buffer K}
    (resident : Resident ts call) (named : a ∈ call.operands) (there : ts[a]? = some t) :
    Stored [t] :=
  List.forall_mem_singleton.mpr (resident a named t there)

theorem Resident.two {ts : List (Buffer K)} {call : Call} {a b : Nat} {t u : Buffer K}
    (resident : Resident ts call) (named : a ∈ call.operands) (named' : b ∈ call.operands)
    (there : ts[a]? = some t) (there' : ts[b]? = some u) : Stored [t, u] :=
  List.forall_mem_cons.mpr ⟨resident a named t there, resident.one named' there'⟩

def InRange : List Nat → List Nat → List StartArg → Prop
  | d :: ds, l :: ls, .integer n :: rest => (0 ≤ n ∧ n + l ≤ d) ∧ InRange ds ls rest
  | _ :: ds, _ :: ls, _ :: rest => InRange ds ls rest
  | _, _, _ => True

def StartArg.isInteger : StartArg → Bool
  | .integer _ => true
  | _ => false

def ScalarArg.Exact (K : Kernels α) : ScalarArg → Prop
  | .constant dtype x => K.toNumber dtype (K.scalar dtype x) = some x
  | .tensor _ => False

/-- A slice starts inside its axes, a complex one at integers; a pad does not crop; what fills is a number. -/
def Supported (ts : List (Buffer K)) : Call → Prop
  | .op _ _ | .putSlice _ _ _ => True
  | .slice a starts lengths _ => ∀ t, ts[a]? = some t → InRange t.shape lengths starts ∧
      (t.dtype.isComplex = true → ∀ s ∈ starts, s.isInteger = true)
  | .pad _ value config => value.Exact K ∧ Backend.crops config = false
  | .windowScatter _ _ _ init _ _ _ => init.Exact K

/-- What the third call on dummy inputs computes passes `_validate_replay`. -/
def Replays (K : Kernels α) (ts : List (Buffer K)) (out : Spec) (call : Call) : Prop :=
  call.operands ≠ [] → ∀ r, eager K (ts.map fun t => dummy K t.spec 3) out call = some r →
    replays K out.2 r.tensor = true

def table (ts : List (Buffer K)) (root : Expr) (starts : List StartArg) : List Expr :=
  (List.range ts.length).map (operand ts) ++ root :: putExprs ts (ts.length + 1) starts

/-- A leaf of rank at most 16 whose reference stands for it, a parameter being a tensor. -/
structure LeafOf (ts : List (Buffer K)) (es : List Expr) (e : Expr) : Prop extends Placed es e where
  tensor : ∀ t pos, e = .parameter t pos → ∃ b, ts[pos]? = some b ∧ t.spec = b.spec

section leaves
variable {ts us : List (Buffer K)} {root : Expr} {starts : List StartArg} {k : Nat}

theorem operand_eq {b : Buffer K} (there : ts[k]? = some b) :
    operand ts k = .parameter ⟨k, b.shape, b.dtype⟩ k := by
  simp [operand, there]

theorem operand_leaf {b : Buffer K} (there : ts[k]? = some b) (rank : b.shape.length ≤ maxRank) :
    LeafOf ts (table ts root starts) (operand ts k) := by
  have low : k < ts.length := (List.getElem?_eq_some_iff.mp there).1
  rw [operand_eq there]
  refine ⟨⟨rfl, ?_, rank, ?_⟩, ?_⟩
  · have found : (table ts root starts)[k]? = some (operand ts k) := by
      rw [table, List.getElem?_append_left (by simpa using low)]
      simp [low]
    simp [named, Expr.tag, found, operand_eq there]
  · intro t pos same
    cases same
    rfl
  · intro t pos same
    cases same
    exact ⟨b, there, rfl⟩

theorem root_here (tag : root.tag.ref = ts.length) :
    named (table ts root starts) root.tag.ref = root := by
  have found : (table ts root starts)[ts.length]? = some root := by
    rw [table, List.getElem?_append_right (by simp)]
    simp
  rw [named, tag, found]
  rfl

theorem putExprs_get (ts : List (Buffer K)) (ref : Ref) (starts : List StartArg) (j : Nat) :
    (putExprs ts ref starts)[j]? = starts[j]?.map (startExpr ts (ref + j)) := by
  induction starts generalizing ref j with
  | nil => simp [putExprs]
  | cons s rest ih =>
    cases j with
    | zero => simp [putExprs]
    | succ j =>
      have shift : ref + 1 + j = ref + (j + 1) := by rw [Nat.add_assoc, Nat.add_comm 1 j]
      simp [putExprs, ih, shift]

def Reachable (ts : List (Buffer K)) (ks : List Nat) : Prop :=
  ∀ k ∈ ks, ∃ b, ts[k]? = some b ∧ b.shape.length ≤ maxRank

theorem start_leaf (reach : Reachable ts (starts.flatMap StartArg.operands)) {e : Expr}
    (mem : e ∈ putExprs ts (ts.length + 1) starts) : LeafOf ts (table ts root starts) e := by
  obtain ⟨j, at_j⟩ := List.mem_iff_getElem?.mp mem
  rw [putExprs_get] at at_j
  obtain ⟨s, at_s, rfl⟩ := Option.map_eq_some_iff.mp at_j
  have found : (table ts root starts)[ts.length + 1 + j]? =
      some (startExpr ts (ts.length + 1 + j) s) := by
    have shift : ts.length + 1 + j - ts.length = j + 1 := by omega
    have beyond : ((List.range ts.length).map (operand ts)).length ≤ ts.length + 1 + j := by
      rw [List.length_map, List.length_range]
      omega
    rw [table, List.getElem?_append_right beyond]
    simp [shift, putExprs_get, at_s]
  cases s with
  | tensor k =>
    obtain ⟨b, there, rank⟩ := reach k
      (List.mem_flatMap.mpr ⟨_, List.mem_of_getElem? at_s, List.mem_singleton.mpr rfl⟩)
    exact operand_leaf there rank
  | integer n | constant dtype n =>
    refine ⟨⟨rfl, ?_, Nat.zero_le _, fun t pos same => by cases same⟩,
      fun t pos same => by cases same⟩
    rw [named, startExpr, Expr.tag]
    simp [found, startExpr]

theorem dynamic_mem (ts : List (Buffer K)) (ref : Ref) (starts : List StartArg) {e : Expr}
    (mem : e ∈ dynamicStarts (sliceExprs ts ref starts)) : e ∈ putExprs ts ref starts := by
  induction starts generalizing ref with
  | nil => cases mem
  | cons s rest ih =>
    cases s with
    | integer n => exact List.mem_cons_of_mem _ (ih (ref + 1) mem)
    | constant | tensor =>
      rcases List.mem_cons.mp mem with rfl | mem
      · exact List.mem_cons_self ..
      · exact List.mem_cons_of_mem _ (ih (ref + 1) mem)

end leaves

theorem mapM_of_forall₂ {m : Type → Type} [Monad m] [LawfulMonad m] {β γ : Type} {f : β → m γ}
    {l : List β} {ys : List γ} (each : List.Forall₂ (fun x y => f x = pure y) l ys) :
    l.mapM f = pure ys := by
  induction each with
  | nil => simp
  | cons here _ ih => simp [List.mapM_cons, here, ih]

theorem exists_forall₂ {β γ : Type} {R : β → γ → Prop} {l : List β} (each : ∀ x ∈ l, ∃ y, R x y) :
    ∃ ys, List.Forall₂ R l ys := by
  induction l with
  | nil => exact ⟨[], .nil⟩
  | cons x rest ih =>
    obtain ⟨y, here⟩ := each x (List.mem_cons_self ..)
    obtain ⟨ys, tail⟩ := ih fun x mem => each x (List.mem_cons_of_mem _ mem)
    exact ⟨y :: ys, .cons here tail⟩

section graph
variable {ts us : List (Buffer K)}

abbrev evalOn (us : List (Buffer K)) : List Expr → Except EvalError (List (Value α)) :=
  evalList K.sem (.flow K.sem) 0 fun pos => (us.map Buffer.value)[pos]?

theorem eval_operand {k : Nat} {u : Buffer K} (there : us[k]? = some u) :
    eval K.sem (.flow K.sem) 0 (fun pos => (us.map Buffer.value)[pos]?)
    (operand ts k) = .ok u.value := by
  simp [operand, eval, there, orFault]

theorem evalOn_operands {ks : List Nat} {inputs : List (Buffer K)}
    (read : List.Forall₂ (fun k u => us[k]? = some u) ks inputs) :
    evalOn us (ks.map (operand ts)) = .ok (inputs.map Buffer.value) := by
  induction read with
  | nil => exact evalList_nil
  | cons here _ ih => exact evalList_cons.mpr ⟨_, _, eval_operand here, ih, rfl⟩

theorem same_spec (same : us.map Buffer.spec = ts.map Buffer.spec) {k : Nat} {b : Buffer K}
    (there : ts[k]? = some b) : ∃ u, us[k]? = some u ∧ u.spec = b.spec := by
  have at_k := congrArg (·[k]?) same
  simp only [List.getElem?_map, there, Option.map_some] at at_k
  exact Option.map_eq_some_iff.mp at_k

variable {es args : List Expr} {root : Expr} {op : NodeOp} {ids : List Nat} {st : State}
  {vs : List (Value α)}

theorem graph_computes (root : Expr) (op : NodeOp) (leaves : ∀ e ∈ args, LeafOf ts es e)
    (children : lowerChildren args (.start [] 0) = .ok (ids, st)) (lowered : Leaves args st)
    (same : us.map Buffer.spec = ts.map Buffer.spec) (ran : evalOn us args = .ok vs) :
    ∃ inputs, List.Forall₂ (fun (i : InputSpec) u => us[i.index]? = some u ∧
    u.spec = (i.shape, i.dtype))
        (nodeGraph root op ids st).inputs inputs ∧
      graphFn K (nodeGraph root op ids st) inputs =
        (applyOp K.sem [] op vs root.tag.shape root.tag.dtype).toOption.map ([·]) := by
  obtain ⟨inputs, each⟩ : ∃ inputs, List.Forall₂
      (fun (i : InputSpec) u => us[i.index]? = some u ∧ u.spec = (i.shape, i.dtype))
      (nodeGraph root op ids st).inputs inputs := by
    apply exists_forall₂
    intro i mem
    obtain ⟨t, here, spec⟩ := lowered.inputs i (List.mem_reverse.mp mem)
    obtain ⟨b, there, spec'⟩ := (leaves _ here).tensor t i.index rfl
    obtain ⟨u, at_u, spec''⟩ := same_spec same there
    exact ⟨u, at_u, spec''.trans (spec'.symm.trans spec.symm)⟩
  refine ⟨inputs, each, ?_⟩
  have given : (nodeGraph root op ids st).inputs.mapM
      (fun i => orFault (us.map Buffer.value)[i.index]?) =
      .ok (inputs.map Buffer.value) := by
    apply mapM_of_forall₂
    rw [List.forall₂_map_right_iff]
    refine each.imp ?_
    intro i u here
    simp [here.1, orFault]
    rfl
  have value := node_value (S := K.sem) root op children lowered
    (fun a mem => (leaves a mem).scoped) ran
  dsimp only at value
  rw [interpret_positional given] at value
  rw [graphFn, value]
  cases applyOp K.sem [] op vs root.tag.shape root.tag.dtype <;> rfl

theorem expr_tag (ts : List (Buffer K)) (out : Spec) (call : Call) :
    (call.expr ts out).tag = ⟨ts.length, out.1, out.2⟩ := by cases call <;> rfl

variable {out : Spec} {call : Call}

structure OneNode (ts : List (Buffer K)) (out : Spec) (call : Call) (args : List Expr) (op : NodeOp)
    (g : Graph) : Prop where
  compiled : compiled K ts out call = if captures K g then do
      let inputs ← g.inputs.mapM fun i => ts[i.index]?
      let outs ← graphFn K g inputs
      outs.head?.map tensor
    else none
  nodes : ∃ id ids, g.nodes = [.op id op ids out.1 out.2] ∧ ids.length = args.length ∧
    g.outputs = [⟨id, out.1, out.2⟩]
  created : args = [] → g.inputs = []
  reads : (∃ t pos rest, args = .parameter t pos :: rest) → g.inputs ≠ []
  computes : ∀ us vs, us.map Buffer.spec = ts.map Buffer.spec → evalOn us args = .ok vs →
    ∃ inputs, List.Forall₂ (fun (i : InputSpec) u => us[i.index]? = some u ∧
    u.spec = (i.shape, i.dtype))
        g.inputs inputs ∧
      graphFn K g inputs = (applyOp K.sem [] op vs out.1 out.2).toOption.map ([·])

theorem one_node {es : List Expr} (plan : (call.expr ts out).plan = some (args, op))
    (here : named es (call.expr ts out).tag.ref = call.expr ts out) (rank : out.1.length ≤ maxRank)
    (placed : ∀ {σ : Type} (s inner : σ), ∀ c ∈ (call.expr ts out).operands s inner,
      c.1 = s ∧ Placed es c.2)
    (leaves : ∀ e ∈ args, LeafOf ts es e) : ∃ g, OneNode ts out call args op g := by
  have rank' : (call.expr ts out).tag.shape.length ≤ maxRank := by rwa [expr_tag]
  obtain ⟨ids, st, children, lowered, made, accepted⟩ :=
    node_accepted plan here rank' placed fun e mem => (leaves e mem).toPlaced
  have node : (nodeGraph (call.expr ts out) op ids st).nodes =
      [.op st.counter op ids out.1 out.2] := by
    simp only [nodeGraph, expr_tag]
  have output : (nodeGraph (call.expr ts out) op ids st).outputs =
      [⟨st.counter, out.1, out.2⟩] := by
    simp only [nodeGraph, expr_tag]
  refine ⟨nodeGraph (call.expr ts out) op ids st, ?_,
    ⟨st.counter, ids, node, children_length children, output⟩, ?_, ?_, ?_⟩
  · unfold Eager.compiled
    rw [made]
    simp only [Except.toOption, Option.bind_eq_bind, Option.bind_some, accepted]
  · rintro rfl
    simp only [lowerChildren, Except.ok.injEq, Prod.mk.injEq] at children
    rw [nodeGraph, ← children.2]
    rfl
  · rintro ⟨t, pos, rest, rfl⟩
    have some_input := lower_first (fun e mem => (leaves e mem).leaf) children
    simpa [nodeGraph] using some_input
  · intro us vs same ran
    have value := graph_computes (call.expr ts out) op leaves children lowered same ran
    rwa [expr_tag] at value

theorem compiled_free {g : Graph} (node : OneNode ts out call args op g)
    (free : g.inputs = [] ∨ Capture.eager g = true) (ran : evalOn ts args = .ok vs) :
    compiled K ts out call = (applyOp K.sem [] op vs out.1 out.2).toOption.map tensor := by
  have captured : captures K g = true := by
    unfold captures
    rcases free with none | eager
    · simp [none]
    · simp [eager]
  obtain ⟨inputs, each, value⟩ := node.computes ts vs rfl ran
  have given : g.inputs.mapM (fun i => ts[i.index]?) = some inputs :=
    mapM_of_forall₂ (each.imp fun _ _ here => here.1)
  rw [node.compiled, if_pos captured, given]
  simp only [Option.bind_eq_bind, Option.bind_some, value]
  cases (applyOp K.sem [] op vs out.1 out.2).toOption <;> rfl

theorem dummy_spec (spec : Spec) (seed : Nat) : (dummy K spec seed).spec = spec := rfl

theorem captured_whole {ids shape : List Nat} {id : Nat} {specs : List Spec} {dtype : Dtype}
    (static : Static out.2 op specs) (len : ids.length = specs.length) :
    Capture.requiresEager (.op id op ids shape dtype) = false := by
  cases op with
  | prim => rfl
  | slice =>
    obtain ⟨a, rfl, _⟩ := static
    simp only [Capture.requiresEager, len, List.length_singleton]
    rfl
  | putSlice =>
    obtain ⟨a, b, rfl, _⟩ := static
    simp only [Capture.requiresEager, len, List.length_cons, List.length_nil]
    rfl

theorem call_dummies {g : Graph} {ks : List Nat} {inputs : List (Buffer K)}
    (node : OneNode ts out call (ks.map (operand ts)) op g)
    (read : List.Forall₂ (fun k u => ts[k]? = some u) ks inputs) (seed : Nat) :
    graphFn K g (g.inputs.map fun i => dummy K (i.shape, i.dtype) seed) =
      (applyOp K.sem [] op ((inputs.map fun b => dummy K b.spec seed).map Buffer.value) out.1
        out.2).toOption.map ([·]) := by
  have same : (ts.map fun t => dummy K t.spec seed).map Buffer.spec = ts.map Buffer.spec := by
    rw [List.map_map]
    rfl
  have read' : List.Forall₂ (fun k u => (ts.map fun t => dummy K t.spec seed)[k]? = some u) ks
      (inputs.map fun b => dummy K b.spec seed) := by
    rw [List.forall₂_map_right_iff]
    refine read.imp ?_
    intro k u here
    simp [here]
  obtain ⟨made, each, value⟩ := node.computes _ _ same (evalOn_operands read')
  have dummies : g.inputs.map (fun i => dummy K (i.shape, i.dtype) seed) = made := by
    rw [← List.forall₂_eq_eq_eq, List.forall₂_map_left_iff]
    refine each.imp ?_
    intro i u here
    obtain ⟨at_i, spec⟩ := here
    rw [List.getElem?_map] at at_i
    obtain ⟨b, _, rfl⟩ := Option.map_eq_some_iff.mp at_i
    rw [← spec, dummy_spec]
  rw [dummies, value]

theorem compiled_captured {g : Graph} {ks : List Nat} {inputs : List (Buffer K)}
    (node : OneNode ts out call (ks.map (operand ts)) op g) (nonempty : ks ≠ [])
    (static : Static out.2 op (inputs.map Buffer.spec))
    (read : List.Forall₂ (fun k u => ts[k]? = some u) ks inputs) (stored : Stored inputs)
    (replay : ∀ r, runNode K op out (inputs.map fun b => dummy K b.spec 3) = some r →
      replays K out.2 r.tensor = true) :
    (runNode K op out inputs).map (·.tensor) = compiled K ts out call := by
  obtain ⟨id, ids, nodes, len, outputs⟩ := node.nodes
  have no_eager : Capture.eager g = false := by
    have len' : ids.length = (inputs.map Buffer.spec).length := by
      rw [len, List.length_map, List.length_map, read.length_eq]
    simp [Capture.eager, nodes, captured_whole static len']
  have some_input : g.inputs.isEmpty = false := by
    cases ks with
    | nil => exact absurd rfl nonempty
    | cons k rest =>
      have reads := node.reads ⟨_, _, _, rfl⟩
      simpa using reads
  obtain ⟨made, each, value⟩ := node.computes ts _ rfl (evalOn_operands read)
  have given : g.inputs.mapM (fun i => ts[i.index]?) = some made :=
    mapM_of_forall₂ (each.imp fun _ _ here => here.1)
  -- dummy inputs have the specs of the tensors, so they raise when the tensors do
  have kinds (seed : Nat) :
      (applyOp K.sem [] op (inputs.map Buffer.value) out.1 out.2).toOption.map kind =
        (applyOp K.sem [] op ((inputs.map fun b => dummy K b.spec seed).map Buffer.value) out.1
          out.2).toOption.map kind := by
    refine apply_lazy static ?_ ?_
    · rw [List.forall₂_map_left_iff, List.forall₂_map_right_iff, List.forall₂_same]
      exact fun b _ => b.value_of
    · rw [List.map_map, List.forall₂_map_left_iff, List.forall₂_map_right_iff, List.forall₂_same]
      exact fun b _ => (dummy K b.spec seed).value_of
  rw [node.compiled, given, runNode_tensor stored]
  simp only [captures, some_input, no_eager, Bool.or_self, Bool.false_eq_true, if_false,
    call_dummies node read, Option.bind_eq_bind, Option.bind_some, value, outputs]
  cases real : (applyOp K.sem [] op (inputs.map Buffer.value) out.1 out.2).toOption with
  | none => simp
  | some v =>
    obtain ⟨v₁, first, _⟩ := Option.map_eq_some_iff.mp ((kinds 1).symm.trans (congrArg _ real))
    obtain ⟨v₂, second, _⟩ := Option.map_eq_some_iff.mp ((kinds 2).symm.trans (congrArg _ real))
    obtain ⟨v₃, third, kind₃⟩ := Option.map_eq_some_iff.mp ((kinds 3).symm.trans (congrArg _ real))
    have shapes : (tensor v₃).shape = (tensor v).shape := congrArg Prod.snd kind₃
    simp only [first, second, third, Option.map_some, Option.isSome_some, Bool.true_and,
      Option.any_some,
      List.length_singleton, BEq.rfl, List.zip_cons_cons, List.zip_nil_right, List.all_cons,
      List.all_nil, Bool.and_true, shapes, List.head?_cons, Option.bind_some]
    by_cases stored : (tensor v).shape = storedShape out.1 out.2
    · have check : replays K out.2 (tensor v₃) = true := by
        have run := runNode_tensor (dummies_stored K inputs 3) op out
        rw [third] at run
        simp only [Option.map_some, Option.filter_some, shapes, stored, decide_true, if_true] at run
        obtain ⟨r, ran, same⟩ := Option.map_eq_some_iff.mp run
        rw [← same]
        exact replay r ran
      simp [stored, check]
    · simp [stored]

end graph

end NxTinygrad.Eager
