import Mathlib.Data.List.Nodup
import NxTinygrad.Capture
import NxTinygrad.Tensors

/- The step that `_make_while_step` builds for a while body, against interpreting the body.
   TinyJit applies the function it traced to its arguments, and a Variable stands for the
   value it is bound to, so neither shows below; nor do the clones, which keep values. -/
namespace NxTinygrad.SymbolicStep
open IR StraightLine Interpreter Capture Tensors

variable {α V : Type}

def boundOf (S : Sem V) (scratch : Env V) (use : Use) : Except EvalError Nat := do
  let v ← match scratch use.id with
    | some v => .ok v
    | none => .error (.missing use.id)
  let raw ← orFault (S.item v)
  .ok (clamp raw use.hi).toNat

def bindUses (S : Sem V) (blobs : List Blob) (fuel : Nat) (body : SubGraph) (plan : Plan)
    (state : List V) : Except EvalError (List Nat) :=
  if plan.uses.isEmpty then .ok []
  else do
    let scratch ← bindParams S blobs state body.inputs plan.ancConsts
    let scratch ← evalNodes S blobs fuel [] plan.ancNodes scratch
    plan.uses.mapM (boundOf S scratch)

/-- `input_id_by_index.get(j)`: the last input of an index counts. -/
def inputIdAt (inputs : List InputSpec) (j : Nat) : Option Nat :=
  (inputs.reverse.find? fun i => i.index = j).map (·.id)

def invariant (body : SubGraph) (j : Nat) : Bool :=
  match body.outputs[j]? with
  | some out => inputIdAt body.inputs j = some out.node
  | none => false

def dropInvariant (inv : Nat → Bool) : Nat → List V → List V
  | _, [] => []
  | j, out :: rest => if inv j then dropInvariant inv (j + 1) rest
      else out :: dropInvariant inv (j + 1) rest

/-- `[state[j] if j in invariant else next(outs) for j in range(n_state)]`. -/
def mergeState (inv : Nat → Bool) : Nat → List V → List V → Except EvalError (List V)
  | _, [], _ => .ok []
  | j, kept :: rest, outs =>
      if inv j then do
        let state ← mergeState inv (j + 1) rest outs
        .ok (kept :: state)
      else match outs with
        | [] => .error .fault
        | out :: outs => do
            let state ← mergeState inv (j + 1) rest outs
            .ok (out :: state)

def symbolicStep (S : Sem V) (blobs : List Blob) (fuel : Nat) (body : SubGraph) (state : List V) :
    Except EvalError (List V) :=
  match symbolicWhilePlan body with
  | none => .error .fault
  | some plan => do
      let bound ← bindUses S blobs fuel body plan state
      let outs ← interpret S blobs fuel plan.symBody bound state
      mergeState (invariant body) 0 state (dropInvariant (invariant body) 0 outs)

def whileStep (S : Sem V) (blobs : List Blob) (fuel : Nat) (body : SubGraph) (state : List V) :
    Except EvalError (List V) :=
  if subRequiresEager body then interpret S blobs fuel body [] state
  else symbolicStep S blobs fuel body state

inductive Rewritten (dims spans : List Nat) : Nat → List Start → List Start → Prop where
  | nil (axis : Nat) : Rewritten dims spans axis [] []
  | static {axis : Nat} {rest rest' : List Start} (n : Int) :
      Rewritten dims spans (axis + 1) rest rest' →
      Rewritten dims spans axis (.static n :: rest) (.static n :: rest')
  | pinned {axis dim span : Nat} {rest rest' : List Start} (raw : Int) : dims[axis]? = some dim →
      spans[axis]? = some span → dim ≤ span → Rewritten dims spans (axis + 1) rest rest' →
      Rewritten dims spans axis (.read raw :: rest) (.static 0 :: rest')
  | bound {axis dim span : Nat} {rest rest' : List Start} (raw : Int) : dims[axis]? = some dim →
      spans[axis]? = some span → span < dim → Rewritten dims spans (axis + 1) rest rest' →
      Rewritten dims spans axis (.read raw :: rest)
        (.bound (clamp raw ((dim - span : Nat) : Int)).toNat :: rest')

theorem clamp_room {dim span : Nat} (raw : Int) (room : span < dim) :
    ((clamp raw ((dim - span : Nat) : Int)).toNat : Int) = clamp raw ((dim : Int) - span) := by
  simp only [clamp]
  omega

theorem clamp_pinned {dim span : Nat} (raw : Int) (full : dim ≤ span) :
    clamp raw ((dim : Int) - span) = 0 := by
  simp only [clamp]
  omega

theorem sliceOffsets_rewritten {dims spans : List Nat} {axis : Nat} {starts starts' : List Start}
    (same : Rewritten dims spans axis starts starts') :
    sliceOffsets dims spans axis starts' = sliceOffsets dims spans axis starts := by
  induction same with
  | nil axis => rfl
  | static n _ ih => simp only [sliceOffsets, ih]
  | pinned raw at_dim at_span full _ ih =>
    simp only [sliceOffsets, ih, at_dim, at_span, Option.bind_eq_bind, Option.bind_some,
      clamp_pinned raw full]
  | bound raw at_dim at_span room _ ih =>
    simp only [sliceOffsets, ih, at_dim, at_span, Option.bind_eq_bind, Option.bind_some,
      clamp_room raw room]

theorem putOffsets_rewritten {dims spans : List Nat} {axis : Nat} {starts starts' : List Start}
    (same : Rewritten dims spans axis starts starts') :
    putOffsets dims spans axis starts' = putOffsets dims spans axis starts := by
  induction same with
  | nil axis => rfl
  | static n _ ih => simp only [putOffsets, ih]
  | pinned raw at_dim at_span full _ ih =>
    have zero : clamp 0 ((_ : Int) - _) = 0 := clamp_pinned 0 full
    simp only [putOffsets, ih, at_dim, at_span, Option.bind_eq_bind, Option.bind_some,
      clamp_pinned raw full, zero]
  | bound raw at_dim at_span room _ ih =>
    simp only [putOffsets, ih, at_dim, at_span, Option.bind_eq_bind, Option.bind_some,
      clamp_room raw room]

theorem putSliceOp_rewritten (P : Prims α) {target sl : Tensor α} {starts starts' : List Start}
    (same : Rewritten target.shape sl.shape 0 starts starts') :
    putSliceOp P target sl starts' = putSliceOp P target sl starts := by
  simp only [putSliceOp, putOffsets_rewritten same]

def SpecsFit : List Nat → List StartSpec → List Nat → List Nat → Prop
  | [], [], [], [] => True
  | dim :: dims, spec :: specs, length :: lengths, _ :: strides =>
      length ≤ dim ∧ (∀ n, spec = .static n → 0 ≤ n ∧ n + length ≤ dim) ∧
        SpecsFit dims specs lengths strides
  | _, _, _, _ => False

inductive Resolves (S : Sem V) (dyn : List V) : List StartSpec → List Start → Prop where
  | nil : Resolves S dyn [] []
  | static {specs : List StartSpec} {starts : List Start} (n : Int) : Resolves S dyn specs starts →
      Resolves S dyn (.static n :: specs) (.static n :: starts)
  | input {k : Nat} {v : V} {raw : Int} {specs : List StartSpec} {starts : List Start} :
      dyn[k]? = some v → S.item v = some raw → Resolves S dyn specs starts →
      Resolves S dyn (.input k :: specs) (.read raw :: starts)

theorem resolves_of_ok {S : Sem V} {dyn : List V} {specs : List StartSpec} {starts : List Start}
    (h : resolveStarts S dyn [] specs = .ok starts) : Resolves S dyn specs starts := by
  induction specs generalizing starts with
  | nil =>
    cases h
    exact Resolves.nil
  | cons spec rest ih =>
    obtain ⟨start, here, h⟩ := except_bind_ok.mp h
    obtain ⟨starts, tail, same⟩ := except_bind_ok.mp h
    cases same
    cases spec with
    | static n =>
      cases here
      exact Resolves.static n (ih tail)
    | symbolic k => simp [resolveStart, orFault] at here
    | input k =>
      simp only [resolveStart, orFault_ok, Option.map_eq_some_iff, Option.bind_eq_some_iff] at here
      obtain ⟨raw, ⟨v, at_k, item⟩, rfl⟩ := here
      exact Resolves.input at_k item (ih tail)

theorem resolves_not_bound {S : Sem V} {dyn : List V} {specs : List StartSpec} {starts : List Start}
    (resolves : Resolves S dyn specs starts) : starts.any isBound = false := by
  induction resolves with
  | nil => rfl
  | static n _ ih => simpa [isBound] using ih
  | input _ _ _ ih => simpa [isBound] using ih

theorem sliceOffsets_cons (dim length : Nat) (dims lengths : List Nat) (axis : Nat)
    (starts : List Start) : sliceOffsets (dim :: dims) (length :: lengths) (axis + 1) starts =
      sliceOffsets dims lengths axis starts := by
  induction starts generalizing axis with
  | nil => rfl
  | cons start rest ih => simp only [sliceOffsets, ih, List.getElem?_cons_succ]

theorem specsFit_cons {dims lengths strides : List Nat} {spec : StartSpec} {specs : List StartSpec}
    (fits : SpecsFit dims (spec :: specs) lengths strides) :
    ∃ dim dims' length lengths' step strides', dims = dim :: dims' ∧ lengths = length :: lengths' ∧
      strides = step :: strides' ∧ length ≤ dim ∧
      (∀ n, spec = .static n → 0 ≤ n ∧ n + length ≤ dim) ∧ SpecsFit dims' specs lengths' strides' := by
  cases dims with
  | nil => exact fits.elim
  | cons dim dims =>
    cases lengths with
    | nil => exact fits.elim
    | cons length lengths =>
      cases strides with
      | nil => exact fits.elim
      | cons step strides => exact ⟨dim, dims, length, lengths, step, strides, rfl, rfl, rfl, fits⟩

theorem fit_of_specs {S : Sem V} {dyn : List V} {dims lengths strides : List Nat}
    {specs : List StartSpec} {starts : List Start} {offsets : List Int} {axes : List Axis}
    (resolves : Resolves S dyn specs starts) (fits : SpecsFit dims specs lengths strides)
    (clamped : sliceOffsets dims lengths 0 starts = some offsets)
    (sliced : sliceAxes dims (List.zipWith (fun w st => ⟨some w.1, some w.2, st⟩)
      (windows offsets lengths) strides) = some axes) : Fit dims offsets lengths strides := by
  induction resolves generalizing dims lengths strides offsets axes with
  | nil =>
    cases dims with
    | cons => exact fits.elim
    | nil =>
      cases lengths with
      | cons => exact fits.elim
      | nil =>
        cases strides with
        | cons => exact fits.elim
        | nil =>
          cases clamped
          exact Fit.nil
  | static n _ ih =>
    obtain ⟨dim, dims, length, lengths, step, strides, rfl, rfl, rfl, _, static, fits⟩ :=
      specsFit_cons fits
    obtain ⟨low, high⟩ := static n rfl
    simp only [sliceOffsets, sliceOffsets_cons, Option.bind_eq_bind, Option.bind_some,
      Option.bind_eq_some_iff, Option.some.injEq] at clamped
    obtain ⟨tail, clamped, rfl⟩ := clamped
    simp only [windows, List.zipWith_cons_cons, sliceAxes, Option.bind_eq_bind,
      Option.bind_eq_some_iff] at sliced
    obtain ⟨axis, here, axes, sliced, _⟩ := sliced
    refine Fit.cons low high ?_ (ih fits clamped sliced)
    intro zero
    simp [Slice.axis, zero] at here
  | @input k v raw specs starts _ _ _ ih =>
    obtain ⟨dim, dims, length, lengths, step, strides, rfl, rfl, rfl, le, _, fits⟩ :=
      specsFit_cons fits
    simp only [sliceOffsets, sliceOffsets_cons, List.getElem?_cons_zero, Option.bind_eq_bind,
      Option.bind_some, Option.bind_eq_some_iff, Option.some.injEq] at clamped
    obtain ⟨tail, clamped, rfl⟩ := clamped
    simp only [windows, List.zipWith_cons_cons, sliceAxes, Option.bind_eq_bind,
      Option.bind_eq_some_iff] at sliced
    obtain ⟨axis, here, axes, sliced, _⟩ := sliced
    refine Fit.cons ?_ ?_ ?_ (ih fits clamped sliced)
    · simp only [clamp]
      omega
    · simp only [clamp]
      omega
    · intro zero
      simp [Slice.axis, zero] at here

theorem sliceOp_rewritten {S : Sem V} {dyn : List V} {t out : Tensor α} {specs : List StartSpec}
    {starts starts' : List Start} {lengths strides : List Nat}
    (same : Rewritten t.shape lengths 0 starts starts') (resolves : Resolves S dyn specs starts)
    (fits : SpecsFit t.shape specs lengths strides)
    (h : sliceOp t starts lengths strides = some out) :
      sliceOp t starts' lengths strides = some out := by
  simp only [sliceOp, resolves_not_bound resolves, Bool.false_eq_true, if_false, Option.bind_eq_bind,
    Option.bind_eq_some_iff] at h
  obtain ⟨offsets, clamped, sliced⟩ := h
  obtain ⟨axes, at_axes, _⟩ := Option.map_eq_some_iff.mp sliced
  have fit := fit_of_specs resolves fits clamped at_axes
  simp only [sliceOp, sliceOffsets_rewritten same, clamped, Option.bind_eq_bind, Option.bind_some]
  split
  · rw [← sliced]
    exact shrink_strided t fit
  · exact sliced

def CanRead (S : Sem V) (final : Env V) (use : Use) : Prop :=
  ∃ v raw, final use.id = some v ∧ S.item v = some raw

def Bounds (S : Sem V) (final : Env V) (uses : List Use) (bound : List Nat) : Prop :=
  ∀ (u : Nat) (use : Use), uses[u]? = some use → ∃ v raw, final use.id = some v ∧ S.item v = some raw ∧
    bound[u]? = some (clamp raw use.hi).toNat

/-- Every axis with a runtime start has a dimension and a span. -/
def Ranked (dims spans : List Nat) : Nat → List Start → Prop
  | _, [] => True
  | axis, .read _ :: rest => (∃ dim, dims[axis]? = some dim) ∧ (∃ span, spans[axis]? = some span) ∧
      Ranked dims spans (axis + 1) rest
  | axis, _ :: rest => Ranked dims spans (axis + 1) rest

theorem ranked_of_slice {dims spans : List Nat} {axis : Nat} {starts : List Start} {offsets : List Int}
    (h : sliceOffsets dims spans axis starts = some offsets) : Ranked dims spans axis starts := by
  induction starts generalizing axis offsets with
  | nil => trivial
  | cons start rest ih =>
    cases start with
    | static n =>
      simp only [sliceOffsets, Option.bind_eq_bind, Option.bind_some, Option.bind_eq_some_iff] at h
      obtain ⟨tail, h, _⟩ := h
      exact ih h
    | bound n =>
      simp only [sliceOffsets, Option.bind_eq_bind, Option.bind_some, Option.bind_eq_some_iff] at h
      obtain ⟨tail, h, _⟩ := h
      exact ih h
    | read raw =>
      simp only [sliceOffsets, Option.bind_eq_bind, Option.bind_some, Option.bind_eq_some_iff] at h
      obtain ⟨dim, at_dim, span, at_span, tail, h, _⟩ := h
      exact ⟨⟨dim, at_dim⟩, ⟨span, at_span⟩, ih h⟩

theorem ranked_of_put {dims spans : List Nat} {axis : Nat} {starts : List Start}
    {config : List (Int × Int)} (h : putOffsets dims spans axis starts = some config) :
    Ranked dims spans axis starts := by
  induction starts generalizing axis config with
  | nil => trivial
  | cons start rest ih =>
    simp only [putOffsets, Option.bind_eq_bind, Option.bind_eq_some_iff] at h
    obtain ⟨dim, at_dim, span, at_span, tail, h, _⟩ := h
    cases start with
    | static n => exact ih h
    | bound n => exact ih h
    | read raw => exact ⟨⟨dim, at_dim⟩, ⟨span, at_span⟩, ih h⟩

theorem rewriteStarts_spec {S : Sem V} {final : Env V} {dyn : List V} {dynIds dims spans : List Nat}
    (values : ∀ (k : Nat) (v : V), dyn[k]? = some v → ∃ id : Nat, dynIds[k]? = some id ∧
      final id = some v)
    {specs : List StartSpec} {starts : List Start} (resolves : Resolves S dyn specs starts) {axis : Nat}
    (ranked : Ranked dims spans axis starts) (uses : List Use) :
    ∃ specs' new, rewriteStarts dims spans dynIds axis specs uses = some (specs', uses ++ new) ∧
      (∀ use ∈ new, CanRead S final use) ∧
      ∀ total bound, uses ++ new <+: total → Bounds S final total bound →
        ∃ starts', resolveStarts S dyn bound specs' = .ok starts' ∧
          Rewritten dims spans axis starts starts' := by
  induction resolves generalizing axis uses with
  | nil =>
    refine ⟨[], [], by simp [rewriteStarts], ?_, ?_⟩
    · intro use mem
      cases mem
    · intro total bound _ _
      exact ⟨[], rfl, Rewritten.nil axis⟩
  | static n _ ih =>
    obtain ⟨specs', new, rewritten, can, resolved⟩ := @ih (axis + 1) ranked uses
    refine ⟨.static n :: specs', new, by simp [rewriteStarts, rewritten], can, ?_⟩
    intro total bound early bounds
    obtain ⟨starts', ok, same⟩ := resolved total bound early bounds
    refine ⟨.static n :: starts', ?_, Rewritten.static n same⟩
    simp [resolveStarts, resolveStart, ok, bind, Except.bind]
  | @input k v raw specs starts at_k item _ ih =>
    obtain ⟨⟨dim, at_dim⟩, ⟨span, at_span⟩, ranked⟩ := ranked
    obtain ⟨id, at_id, value⟩ := values k v at_k
    by_cases full : dim ≤ span
    · obtain ⟨specs', new, rewritten, can, resolved⟩ := @ih (axis + 1) ranked uses
      refine ⟨.static 0 :: specs', new, by simp [rewriteStarts, at_dim, at_span, full, rewritten],
        can, ?_⟩
      intro total bound early bounds
      obtain ⟨starts', ok, same⟩ := resolved total bound early bounds
      refine ⟨.static 0 :: starts', ?_, Rewritten.pinned raw at_dim at_span full same⟩
      simp [resolveStarts, resolveStart, ok, bind, Except.bind]
    · obtain ⟨specs', new, rewritten, can, resolved⟩ :=
        @ih (axis + 1) ranked (uses ++ [⟨id, dim - span⟩])
      refine ⟨.symbolic uses.length :: specs', ⟨id, dim - span⟩ :: new,
        by simp [rewriteStarts, at_dim, at_span, full, at_id, rewritten], ?_, ?_⟩
      · intro use mem
        rcases List.mem_cons.mp mem with same | later
        · subst same
          exact ⟨v, raw, value, item⟩
        · exact can use later
      · intro total bound early bounds
        obtain ⟨starts', ok, same⟩ := resolved total bound (by simpa using early) bounds
        have here : total[uses.length]? = some ⟨id, dim - span⟩ := by
          obtain ⟨more, rfl⟩ := early
          simp
        obtain ⟨v', raw', value', item', at_bound⟩ := bounds uses.length _ here
        cases value.symm.trans value'
        cases item.symm.trans item'
        refine ⟨.bound (clamp raw ((dim - span : Nat) : Int)).toNat :: starts', ?_,
          Rewritten.bound raw at_dim at_span (by omega) same⟩
        simp [resolveStarts, resolveStart, at_bound, orFault, ok, bind, Except.bind]

theorem resolve_any {S : Sem V} {dyn : List V} {specs : List StartSpec} {starts : List Start}
    (resolves : Resolves S dyn specs starts) (sym : List Nat) :
    resolveStarts S dyn sym specs = .ok starts := by
  induction resolves with
  | nil => rfl
  | static n _ ih => simp [resolveStarts, resolveStart, ih, bind, Except.bind]
  | input at_k item _ ih =>
    simp [resolveStarts, resolveStart, at_k, item, orFault, ih, bind, Except.bind]

theorem applyOp_any {S : Sem V} {op : NodeOp} {vs : List V} {shape : List Nat} {dtype : Dtype} {v : V}
    (h : applyOp S [] op vs shape dtype = .ok v) (sym : List Nat) :
    applyOp S sym op vs shape dtype = .ok v := by
  cases op with
  | prim op attrs => exact h
  | slice starts lengths strides =>
    cases vs with
    | nil => cases h
    | cons t dyn =>
      obtain ⟨resolved, ok, rest⟩ := except_bind_ok.mp h
      exact except_bind_ok.mpr ⟨resolved, resolve_any (resolves_of_ok ok) sym, rest⟩
  | putSlice starts =>
    match vs with
    | [] => cases h
    | [_] => cases h
    | t :: sl :: dyn =>
      obtain ⟨resolved, ok, rest⟩ := except_bind_ok.mp h
      exact except_bind_ok.mpr ⟨resolved, resolve_any (resolves_of_ok ok) sym, rest⟩

theorem runNode_any {S : Sem V} {blobs : List Blob} {fuel : Nat} {node : Node} {vs outs : List V}
    (h : runNode S blobs fuel [] node vs = .ok outs) (sym : List Nat) :
    runNode S blobs fuel sym node vs = .ok outs := by
  cases node with
  | op id op inputs shape dtype =>
    simp only [runNode] at h ⊢
    obtain ⟨v, applied, same⟩ := except_bind_ok.mp h
    exact except_bind_ok.mpr ⟨v, applyOp_any applied sym, same⟩
  | fold id op fn inputs shape dtype =>
    simp only [runNode] at h ⊢
    exact h
  | loop inputs cond body outputs =>
    simp only [runNode] at h ⊢
    exact h

/-- Every tensor in an env has the shape that `shapes` knows for its id. -/
def Shaped (shapes : List (Nat × List Nat)) (env : Env (Tensor α)) : Prop :=
  ∀ id t, env id = some t → shapes.lookup id = some t.shape

def SliceFits (shapes : List (Nat × List Nat)) (node : Node) : Prop :=
  match node with
  | .op _ (.slice starts lengths strides) (operand :: _ :: _) _ _ =>
      ∀ dims, shapes.lookup operand = some dims → SpecsFit dims starts lengths strides
  | _ => True

/-- Rewriting a node that ran goes through, and the new node returns the same once the
    Variables are bound. -/
def NodeAgrees (P : Prims α) (blobs : List Blob) (fuel : Nat) (shapes : List (Nat × List Nat))
    (final : Env (Tensor α)) (node : Node) (vs outs : List (Tensor α)) : Prop :=
  ∀ uses, ∃ node' new, rewriteNode shapes node uses = some (node', uses ++ new) ∧
    (∀ use ∈ new, CanRead P.sem final use) ∧ nodeReads node' = nodeReads node ∧
    node'.definedIds = node.definedIds ∧
    ∀ total bound, uses ++ new <+: total → Bounds P.sem final total bound →
      runNode P.sem blobs fuel bound node' vs = .ok outs

variable {P : Prims α} {blobs : List Blob} {fuel : Nat} {shapes : List (Nat × List Nat)}
  {final env : Env (Tensor α)}

theorem kept_agrees {node : Node} {vs outs : List (Tensor α)} (static : dynStartCount node = 0)
    (h : runNode P.sem blobs fuel [] node vs = .ok outs) :
    NodeAgrees P blobs fuel shapes final node vs outs := by
  intro uses
  refine ⟨node, [], by simp [rewriteNode, static], ?_, rfl, rfl, ?_⟩
  · intro use mem
    cases mem
  · intro total bound _ _
    exact runNode_any h bound

theorem slice_agrees {id : Nat} {starts : List StartSpec} {lengths strides inputs shape : List Nat}
    {dtype : Dtype} {vs outs : List (Tensor α)}
    (reads : fetch EvalError.missing env inputs = .ok vs)
    (stays : ∀ id v, env id = some v → final id = some v) (shaped : Shaped shapes env)
    (fits : SliceFits shapes (.op id (.slice starts lengths strides) inputs shape dtype))
    (h : runNode P.sem blobs fuel [] (.op id (.slice starts lengths strides) inputs shape dtype) vs =
      .ok outs) :
    NodeAgrees P blobs fuel shapes final (.op id (.slice starts lengths strides) inputs shape dtype)
      vs outs := by
  by_cases static : dynStartCount (.op id (.slice starts lengths strides) inputs shape dtype) = 0
  · exact kept_agrees static h
  · simp only [runNode] at h
    obtain ⟨v, applied, same⟩ := except_bind_ok.mp h
    cases vs with
    | nil => cases applied
    | cons t dyn =>
      obtain ⟨resolved, ok, sliced⟩ := except_bind_ok.mp applied
      have resolves := resolves_of_ok ok
      obtain ⟨out, out_eq, cast⟩ := Option.bind_eq_some_iff.mp (orFault_ok.mp sliced)
      obtain ⟨operand, at_operand, value⟩ := fetch_getElem reads (k := 0) rfl
      have dims := shaped operand t value
      have windows : SpecsFit t.shape starts lengths strides := by
        match inputs, at_operand with
        | _ :: _ :: _, rfl => exact fits t.shape dims
        | [_], rfl => simp [dynStartCount, dynFirst] at static
      have offsets := out_eq
      simp only [sliceOp, Option.bind_eq_bind, Option.bind_eq_some_iff] at offsets
      obtain ⟨os, clamped, _⟩ := offsets
      intro uses
      have values : ∀ (k : Nat) (v : Tensor α), dyn[k]? = some v →
          ∃ id : Nat, (inputs.drop 1)[k]? = some id ∧ final id = some v := by
        intro k v at_k
        obtain ⟨id, at_id, value⟩ := fetch_getElem reads (k := k + 1) at_k
        exact ⟨id, by simpa [List.getElem?_drop, Nat.add_comm] using at_id, stays id v value⟩
      obtain ⟨starts', new, rewritten, can, resolved'⟩ :=
        rewriteStarts_spec values resolves (ranked_of_slice clamped) uses
      refine ⟨.op id (.slice starts' lengths strides) inputs shape dtype, new, ?_, can, rfl, rfl, ?_⟩
      · simp only [rewriteNode, static, if_false, at_operand, Option.bind_eq_bind,
          Option.bind_some, dims, rewritten]
      · intro total bound early bounds
        obtain ⟨r', ok', same'⟩ := resolved' total bound early bounds
        simp only [runNode]
        refine except_bind_ok.mpr ⟨v, except_bind_ok.mpr ⟨r', ok', ?_⟩, same⟩
        refine orFault_ok.mpr (Option.bind_eq_some_iff.mpr ⟨out, ?_, cast⟩)
        exact sliceOp_rewritten same' resolves windows out_eq

theorem putSlice_agrees {id : Nat} {starts : List StartSpec} {inputs shape : List Nat} {dtype : Dtype}
    {vs outs : List (Tensor α)} (reads : fetch EvalError.missing env inputs = .ok vs)
    (stays : ∀ id v, env id = some v → final id = some v) (shaped : Shaped shapes env)
    (h : runNode P.sem blobs fuel [] (.op id (.putSlice starts) inputs shape dtype) vs = .ok outs) :
    NodeAgrees P blobs fuel shapes final (.op id (.putSlice starts) inputs shape dtype) vs outs := by
  by_cases static : dynStartCount (.op id (.putSlice starts) inputs shape dtype) = 0
  · exact kept_agrees static h
  · simp only [runNode] at h
    obtain ⟨v, applied, same⟩ := except_bind_ok.mp h
    match vs with
    | [] => cases applied
    | [_] => cases applied
    | target :: sl :: dyn =>
      obtain ⟨resolved, ok, put⟩ := except_bind_ok.mp applied
      have resolves := resolves_of_ok ok
      obtain ⟨out, out_eq, cast⟩ := Option.bind_eq_some_iff.mp (orFault_ok.mp put)
      obtain ⟨first, at_first, target_value⟩ := fetch_getElem reads (k := 0) rfl
      obtain ⟨second, at_second, sl_value⟩ := fetch_getElem reads (k := 1) rfl
      have dims := shaped first target target_value
      have spans := shaped second sl sl_value
      have offsets := out_eq
      simp only [putSliceOp, Option.bind_eq_bind, Option.bind_eq_some_iff] at offsets
      obtain ⟨config, clamped, _⟩ := offsets
      intro uses
      have values : ∀ (k : Nat) (v : Tensor α), dyn[k]? = some v →
          ∃ id : Nat, (inputs.drop 2)[k]? = some id ∧ final id = some v := by
        intro k v at_k
        obtain ⟨id, at_id, value⟩ := fetch_getElem reads (k := k + 2) at_k
        exact ⟨id, by simpa [List.getElem?_drop, Nat.add_comm] using at_id, stays id v value⟩
      obtain ⟨starts', new, rewritten, can, resolved'⟩ :=
        rewriteStarts_spec values resolves (ranked_of_put clamped) uses
      refine ⟨.op id (.putSlice starts') inputs shape dtype, new, ?_, can, rfl, rfl, ?_⟩
      · simp only [rewriteNode, static, if_false, at_first, at_second, Option.bind_eq_bind,
          Option.bind_some, dims, spans, rewritten]
      · intro total bound early bounds
        obtain ⟨r', ok', same'⟩ := resolved' total bound early bounds
        simp only [runNode]
        refine except_bind_ok.mpr ⟨v, except_bind_ok.mpr ⟨r', ok', ?_⟩, same⟩
        refine orFault_ok.mpr (Option.bind_eq_some_iff.mpr ⟨out, ?_, cast⟩)
        rw [putSliceOp_rewritten P same']
        exact out_eq

theorem node_agrees {node : Node} {vs outs : List (Tensor α)}
    (reads : fetch EvalError.missing env (nodeReads node) = .ok vs)
    (stays : ∀ id v, env id = some v → final id = some v) (shaped : Shaped shapes env)
    (fits : SliceFits shapes node) (h : runNode P.sem blobs fuel [] node vs = .ok outs) :
    NodeAgrees P blobs fuel shapes final node vs outs := by
  cases node with
  | op id op inputs shape dtype =>
    cases op with
    | prim op attrs => exact kept_agrees rfl h
    | slice starts lengths strides => exact slice_agrees reads stays shaped fits h
    | putSlice starts => exact putSlice_agrees reads stays shaped h
  | fold id op fn inputs shape dtype => exact kept_agrees rfl h
  | loop inputs cond body outputs => exact kept_agrees rfl h

theorem evalNodes_other {S : Sem V} {sym : List Nat} {nodes : List Node} {env out : Env V}
    (h : evalNodes S blobs fuel sym nodes env = .ok out) {id : Nat}
    (other : id ∉ nodes.flatMap Node.definedIds) : out id = env id := by
  rw [evalNodes_eq_execAll] at h
  refine execAll_other h ?_
  rintro ⟨i, mem, writes⟩
  obtain ⟨n, here, rfl⟩ := List.mem_map.mp mem
  exact other (List.mem_flatMap.mpr ⟨n, here, writes⟩)

def ShapeTrue (P : Prims α) (blobs : List Blob) (fuel : Nat) (shapes : List (Nat × List Nat))
    (node : Node) : Prop :=
  ∀ vs outs, vs.map (fun t => some t.shape) = (nodeReads node).map (fun i => shapes.lookup i) →
    runNode P.sem blobs fuel [] node vs = .ok outs →
      outs.map (fun t => some t.shape) = node.definedIds.map fun i => shapes.lookup i

theorem shaped_reads (shaped : Shaped shapes env) {reads : List Nat} {vs : List (Tensor α)}
    (h : fetch EvalError.missing env reads = .ok vs) :
    vs.map (fun t => some t.shape) = reads.map fun i => shapes.lookup i := by
  have values := fetch_ok_iff.mp h
  clear h
  induction reads generalizing vs with
  | nil =>
    cases vs with
    | nil => rfl
    | cons v vs => simp at values
  | cons id rest ih =>
    cases vs with
    | nil => simp at values
    | cons v vs =>
      simp only [List.map_cons, List.cons.injEq] at values
      simp only [List.map_cons, ih values.2, shaped id v values.1]

theorem shaped_pairs (shaped : Shaped shapes env) {ids : List Nat} {vs : List (Tensor α)}
    (pairs : ∀ pair ∈ ids.zip vs, shapes.lookup pair.1 = some pair.2.shape) :
    Shaped shapes (assign env ids vs) :=
  fun _ _ value => assign_forall shaped pairs value

theorem shaped_assign (shaped : Shaped shapes env) {ids : List Nat} {vs : List (Tensor α)}
    (same : vs.map (fun t => some t.shape) = ids.map fun i => shapes.lookup i) :
    Shaped shapes (assign env ids vs) := by
  refine shaped_pairs shaped ?_
  induction ids generalizing vs with
  | nil =>
    intro pair mem
    cases mem
  | cons x rest ih =>
    cases vs with
    | nil =>
      intro pair mem
      cases mem
    | cons v vs =>
      simp only [List.map_cons, List.cons.injEq] at same
      intro pair mem
      rcases List.mem_cons.mp mem with here | later
      · subst here
        exact same.1.symm
      · exact ih same.2 pair later

theorem nodes_agree {nodes : List Node} (h : evalNodes P.sem blobs fuel [] nodes env = .ok final)
    (fresh : ∀ id ∈ nodes.flatMap Node.definedIds, env id = none)
    (distinct : (nodes.flatMap Node.definedIds).Nodup) (shaped : Shaped shapes env)
    (truthful : ∀ n ∈ nodes, ShapeTrue P blobs fuel shapes n)
    (fits : ∀ n ∈ nodes, SliceFits shapes n) (uses : List Use) :
    ∃ nodes' new, rewriteNodes shapes nodes uses = some (nodes', uses ++ new) ∧
      (∀ use ∈ new, CanRead P.sem final use) ∧
      ∀ total bound, uses ++ new <+: total → Bounds P.sem final total bound →
        evalNodes P.sem blobs fuel bound nodes' env = .ok final := by
  induction nodes generalizing env uses with
  | nil =>
    refine ⟨[], [], by simp [rewriteNodes], ?_, ?_⟩
    · intro use mem
      cases mem
    · intro total bound _ _
      simpa [evalNodes] using h
  | cons node rest ih =>
    have stays : ∀ id v, env id = some v → final id = some v := by
      intro id v value
      rw [evalNodes_other h fun mem => ?_, value]
      rw [fresh id mem] at value
      cases value
    obtain ⟨vs, outs, reads, ran, tail⟩ := evalNodes_cons.mp h
    obtain ⟨node', new, rewritten, can, reads_eq, writes_eq, again⟩ :=
      node_agrees reads stays shaped (fits node (List.mem_cons_self ..)) ran uses
    have shapes_eq := truthful node (List.mem_cons_self ..) vs outs (shaped_reads shaped reads) ran
    simp only [List.flatMap_cons] at fresh distinct
    obtain ⟨_, distinct', apart⟩ := List.nodup_append.mp distinct
    have fresh' : ∀ id ∈ rest.flatMap Node.definedIds, assign env node.definedIds outs id = none := by
      intro id mem
      rw [assign_other fun here => apart id here id mem rfl]
      exact fresh id (List.mem_append_right _ mem)
    obtain ⟨rest', more, rewritten', can', again'⟩ := ih tail fresh' distinct'
      (shaped_assign shaped shapes_eq) (fun n mem => truthful n (List.mem_cons_of_mem _ mem))
      (fun n mem => fits n (List.mem_cons_of_mem _ mem)) (uses ++ new)
    refine ⟨node' :: rest', new ++ more, by simp [rewriteNodes, rewritten, rewritten'], ?_, ?_⟩
    · intro use mem
      rcases List.mem_append.mp mem with here | later
      · exact can use here
      · exact can' use later
    · intro total bound early bounds
      rw [← List.append_assoc] at early
      refine evalNodes_cons.mpr ⟨vs, outs, by rw [reads_eq, reads], ?_, ?_⟩
      · exact again total bound ((List.prefix_append _ _).trans early) bounds
      · rw [writes_eq]
        exact again' total bound early bounds

def isLoop : Node → Bool
  | .loop _ _ _ _ => true
  | _ => false

theorem single_result {S : Sem V} {sym : List Nat} {node : Node} (plain : isLoop node = false)
    {vs outs : List V} (h : runNode S blobs fuel sym node vs = .ok outs) :
    node.definedIds = [Node.id node] ∧ outs.length = 1 := by
  cases node with
  | loop => cases plain
  | op id op inputs shape dtype =>
    simp only [runNode] at h
    obtain ⟨v, _, same⟩ := except_bind_ok.mp h
    cases same
    exact ⟨rfl, rfl⟩
  | fold id op fn inputs shape dtype =>
    simp only [runNode, except_bind_ok] at h
    obtain ⟨_, _, _, _, _, _, _, _, _, _, v, _, same⟩ := h
    cases same
    exact ⟨rfl, rfl⟩

theorem ancestors_agree {S : Sem V} {sym : List Nat} {nodes : List Node} {env env' out : Env V}
    (plain : ∀ n ∈ nodes, isLoop n = false) {needed : List Nat}
    (h : evalNodes S blobs fuel sym nodes env = .ok out)
    (agree : AgreeOn (· ∈ (ancestors nodes needed).2) env env') :
    ∃ out', evalNodes S blobs fuel sym (ancestors nodes needed).1 env' = .ok out' ∧
      AgreeOn (· ∈ needed) out out' := by
  induction nodes generalizing env env' with
  | nil =>
    simp only [evalNodes, Except.ok.injEq] at h
    subst h
    exact ⟨env', by simp [ancestors, evalNodes], agree⟩
  | cons node rest ih =>
    obtain ⟨vs, outs, reads, ran, tail⟩ := evalNodes_cons.mp h
    obtain ⟨single, len⟩ := single_result (plain node (List.mem_cons_self ..)) ran
    have plain' : ∀ n ∈ rest, isLoop n = false := fun n mem => plain n (List.mem_cons_of_mem _ mem)
    simp only [ancestors] at agree ⊢
    split
    · rename_i wanted
      simp only [wanted, if_true, List.mem_append] at agree
      have reads' : fetch EvalError.missing env' (nodeReads node) = .ok vs := by
        rw [← reads]
        refine (fetch_agree agree ?_).symm
        intro id mem
        exact Or.inr (nodeReads_sub mem)
      have later : AgreeOn (· ∈ (ancestors rest needed).2) (assign env node.definedIds outs)
          (assign env' node.definedIds outs) := by
        intro id mem
        exact assign_agree agree id (Or.inl mem)
      obtain ⟨out', ran', final⟩ := ih plain' tail later
      exact ⟨out', evalNodes_cons.mpr ⟨vs, outs, reads', ran, ran'⟩, final⟩
    · rename_i unwanted
      simp only [unwanted, if_false] at agree
      refine ih plain' tail ?_
      intro id mem
      rw [← agree id mem, single]
      refine assign_other fun same => unwanted ?_
      exact List.mem_singleton.mp same ▸ mem

theorem constants_filter {S : Sem V} {needed : List Nat} {constants : List Constant} {values : List V}
    {env env' : Env V} (h : constants.mapM (makeConstant S blobs) = .ok values)
    (agree : AgreeOn (· ∈ needed) env env') : ∃ values',
      (constants.filter fun c => c.id ∈ needed).mapM (makeConstant S blobs) = .ok values' ∧
        AgreeOn (· ∈ needed) (assign env (constants.map (·.id)) values)
          (assign env' ((constants.filter fun c => c.id ∈ needed).map (·.id)) values') := by
  induction constants generalizing values env env' with
  | nil =>
    cases h
    exact ⟨[], rfl, agree⟩
  | cons c rest ih =>
    simp only [List.mapM_cons, except_bind_ok, pure, Except.pure, Except.ok.injEq] at h
    obtain ⟨v, made, vs, tail, rfl⟩ := h
    by_cases wanted : c.id ∈ needed
    · have next : AgreeOn (· ∈ needed) (Function.update env c.id (some v))
          (Function.update env' c.id (some v)) := by
        intro id mem
        by_cases same : id = c.id
        · subst same
          simp
        · simp only [Function.update_of_ne same, agree id mem]
      obtain ⟨values', made', final⟩ := ih tail next
      refine ⟨v :: values', ?_, ?_⟩
      · simp [wanted, List.mapM_cons, made, made', bind, Except.bind, pure, Except.pure]
      · simpa [wanted, assign] using final
    · have next : AgreeOn (· ∈ needed) (Function.update env c.id (some v)) env' := by
        intro id mem
        have apart : id ≠ c.id := by
          intro same
          subst same
          exact wanted mem
        rw [Function.update_of_ne apart, agree id mem]
      obtain ⟨values', made', final⟩ := ih tail next
      exact ⟨values', by simpa [wanted] using made', by simpa [wanted, assign] using final⟩

theorem bound_uses {S : Sem V} {final scratch : Env V} {uses : List Use}
    (can : ∀ use ∈ uses, CanRead S final use)
    (agree : AgreeOn (· ∈ uses.map (·.id)) final scratch) :
    ∃ bound, uses.mapM (boundOf S scratch) = .ok bound ∧ Bounds S final uses bound := by
  induction uses with
  | nil =>
    refine ⟨[], rfl, ?_⟩
    intro u use at_u
    simp at at_u
  | cons use rest ih =>
    obtain ⟨v, raw, value, item⟩ := can use (List.mem_cons_self ..)
    have value' : scratch use.id = some v := by
      rw [← agree use.id (List.mem_cons_self ..)]
      exact value
    obtain ⟨bound, mapped, bounds⟩ := ih (fun use mem => can use (List.mem_cons_of_mem _ mem))
      fun id mem => agree id (List.mem_cons_of_mem _ mem)
    have here : boundOf S scratch use = .ok (clamp raw use.hi).toNat := by
      simp [boundOf, value', item, orFault, bind, Except.bind]
    refine ⟨(clamp raw use.hi).toNat :: bound, ?_, ?_⟩
    · simp [List.mapM_cons, here, mapped, bind, Except.bind, pure, Except.pure]
    · intro u use' at_u
      cases u with
      | zero =>
        cases Option.some.inj at_u
        exact ⟨v, raw, value, item, rfl⟩
      | succ u => exact bounds u use' at_u

theorem bindUses_ok {S : Sem V} {body : SubGraph} {plan : Plan} {state : List V} {env final : Env V}
    {needed : List Nat} (plain : ∀ n ∈ body.nodes, isLoop n = false)
    (bound : bindParams S blobs state body.inputs body.constants = .ok env)
    (ran : evalNodes S blobs fuel [] body.nodes env = .ok final)
    (nodes : ancestors body.nodes (plan.uses.map (·.id)) = (plan.ancNodes, needed))
    (constants : plan.ancConsts = body.constants.filter fun c => c.id ∈ needed)
    (can : ∀ use ∈ plan.uses, CanRead S final use) :
    ∃ values, bindUses S blobs fuel body plan state = .ok values ∧ Bounds S final plan.uses values := by
  unfold bindUses
  split
  · rename_i empty
    refine ⟨[], rfl, ?_⟩
    intro u use at_u
    simp [List.isEmpty_iff.mp empty] at at_u
  · obtain ⟨values, args, made, given, rfl⟩ := bindParams_ok.mp bound
    have blank : AgreeOn (· ∈ needed) (fun _ => none) (fun _ => (none : Option V)) := fun _ _ => rfl
    obtain ⟨values', made', agree⟩ := constants_filter made blank
    have start : AgreeOn (· ∈ (ancestors body.nodes (plan.uses.map (·.id))).2)
        (assign (assign (fun _ => none) (body.constants.map (·.id)) values)
        (body.inputs.map (·.id)) args)
        (assign (assign (fun _ => none) (plan.ancConsts.map (·.id)) values') (body.inputs.map (·.id))
          args) := by
      rw [nodes, constants]
      exact assign_agree agree
    obtain ⟨scratch, ran', final'⟩ := ancestors_agree plain ran start
    obtain ⟨bound, mapped, bounds⟩ := bound_uses can final'
    rw [nodes] at ran'
    refine ⟨bound, ?_, bounds⟩
    refine except_bind_ok.mpr ⟨_, bindParams_ok.mpr ⟨values', args, ?_, given, rfl⟩, ?_⟩
    · rw [constants]
      exact made'
    · exact except_bind_ok.mpr ⟨scratch, ran', mapped⟩

theorem plain_of_eager {nodes : List Node} (h : nodesRequireEager nodes = false) :
    ∀ n ∈ nodes, isLoop n = false := by
  induction nodes with
  | nil =>
    intro n mem
    cases mem
  | cons node rest ih =>
    intro n mem
    cases node with
    | loop inputs cond body outputs => simp [nodesRequireEager] at h
    | op id op inputs shape dtype =>
      rcases List.mem_cons.mp mem with same | later
      · subst same
        rfl
      · exact ih (by simpa [nodesRequireEager] using h) n later
    | fold id op fn inputs shape dtype =>
      rcases List.mem_cons.mp mem with same | later
      · subst same
        rfl
      · simp only [nodesRequireEager, Bool.or_eq_false_iff] at h
        exact ih h.2 n later

theorem merge_drop {inv : Nat → Bool} {state outs : List V} {j : Nat} (len : outs.length = state.length)
    (same : ∀ k, inv (j + k) = true → outs[k]? = state[k]?) :
    mergeState inv j state (dropInvariant inv j outs) = .ok outs := by
  induction outs generalizing state j with
  | nil =>
    cases state with
    | nil => rfl
    | cons s state => simp at len
  | cons out rest ih =>
    cases state with
    | nil => simp at len
    | cons s state =>
      have tail : mergeState inv (j + 1) state (dropInvariant inv (j + 1) rest) = .ok rest := by
        refine ih (by simpa using len) ?_
        intro k kept
        have at_k := same (k + 1) (by rwa [Nat.add_comm k 1, ← Nat.add_assoc])
        simpa using at_k
      cases kept : inv j with
      | true =>
        have here : out = s := by simpa using same 0 kept
        simp [mergeState, dropInvariant, kept, tail, here, bind, Except.bind]
      | false => simp [mergeState, dropInvariant, kept, tail, bind, Except.bind]

def bodyIds (body : SubGraph) : List Nat :=
  body.inputs.map (·.id) ++ body.constants.map (·.id) ++ body.nodes.flatMap Node.definedIds

def shapesOf (body : SubGraph) : List (Nat × List Nat) := (shapeTable body).getD []

def shapeEntry : Node → Nat × List Nat
  | .op id _ _ shape _ => (id, shape)
  | .fold id _ _ _ shape _ => (id, shape)
  | .loop _ _ _ outputs => ((outputs.map (·.id)).headD 0, [])

theorem shapeTable_plain {body : SubGraph} (plain : ∀ n ∈ body.nodes, isLoop n = false) :
    shapeTable body = some ((body.nodes.map shapeEntry).reverse ++
      (body.inputs.map (fun i => (i.id, i.shape)) ++
        body.constants.map fun c => (c.id, c.shape)).reverse) := by
  simp only [shapeTable]
  revert plain
  generalize (body.inputs.map (fun i => (i.id, i.shape)) ++
    body.constants.map fun c => (c.id, c.shape)).reverse = known
  generalize body.nodes = nodes
  intro plain
  induction nodes generalizing known with
  | nil => rfl
  | cons node rest ih =>
    have tail := fun known => ih known fun n mem => plain n (List.mem_cons_of_mem _ mem)
    have here := plain node (List.mem_cons_self ..)
    cases node with
    | loop => cases here
    | op id op inputs shape dtype =>
      simp only [List.foldlM_cons, Option.bind_eq_bind, Option.bind_some, tail]
      simp [shapeEntry]
    | fold id op fn inputs shape dtype =>
      simp only [List.foldlM_cons, Option.bind_eq_bind, Option.bind_some, tail]
      simp [shapeEntry]

theorem shapes_lookup {body : SubGraph} (plain : ∀ n ∈ body.nodes, isLoop n = false)
    (distinct : (bodyIds body).Nodup) {entry : Nat × List Nat}
    (mem : entry ∈ body.inputs.map (fun i => (i.id, i.shape)) ++
      body.constants.map fun c => (c.id, c.shape)) : (shapesOf body).lookup entry.1 = some entry.2 := by
  have node_keys : body.nodes.flatMap Node.definedIds = (body.nodes.map shapeEntry).map Prod.fst := by
    revert plain
    generalize body.nodes = nodes
    intro plain
    induction nodes with
    | nil => rfl
    | cons node rest ih =>
      have here := plain node (List.mem_cons_self ..)
      have tail := ih fun n mem => plain n (List.mem_cons_of_mem _ mem)
      cases node with
      | loop => cases here
      | op => simp [tail, shapeEntry, Node.definedIds]
      | fold => simp [tail, shapeEntry, Node.definedIds]
  rw [shapesOf, shapeTable_plain plain, Option.getD_some]
  refine lookup_of_mem ?_ (List.mem_append_right _ (List.mem_reverse.mpr mem))
  have keys : ((body.nodes.map shapeEntry).reverse ++ (body.inputs.map (fun i => (i.id, i.shape)) ++
      body.constants.map fun c => (c.id, c.shape)).reverse).map Prod.fst = (bodyIds body).reverse := by
    simp only [List.map_append, List.map_reverse, ← node_keys, bodyIds, List.reverse_append,
      List.map_map, Function.comp_def]
  rw [keys]
  exact List.nodup_reverse.mpr distinct

/-- What the step relies on in a body and its state: distinct ids, one output for each loop
    variable, true shapes, and slice windows inside their operands. -/
structure WellFormed (P : Prims α) (blobs : List Blob) (fuel : Nat) (body : SubGraph)
    (state : List (Tensor α)) : Prop where
  distinct : (bodyIds body).Nodup
  count : body.outputs.length = state.length
  inputs : ∀ i ∈ body.inputs, ∀ t, state[i.index]? = some t → t.shape = i.shape
  constants : ∀ c ∈ body.constants, ∀ t, makeConstant P.sem blobs c = .ok t → t.shape = c.shape
  nodes : ∀ n ∈ body.nodes, ShapeTrue P blobs fuel (shapesOf body) n
  fits : ∀ n ∈ body.nodes, SliceFits (shapesOf body) n

theorem mapM_zip {β γ : Type} {f : β → Except EvalError γ} {xs : List β} {ys : List γ}
    (h : xs.mapM f = .ok ys) : ys.length = xs.length ∧ ∀ pair ∈ xs.zip ys, f pair.1 = .ok pair.2 := by
  induction xs generalizing ys with
  | nil =>
    cases h
    refine ⟨rfl, ?_⟩
    intro pair mem
    cases mem
  | cons x rest ih =>
    simp only [List.mapM_cons, except_bind_ok, pure, Except.pure, Except.ok.injEq] at h
    obtain ⟨y, here, ys, tail, rfl⟩ := h
    obtain ⟨len, each⟩ := ih tail
    refine ⟨by simp [len], ?_⟩
    intro pair mem
    rcases List.mem_cons.mp mem with same | later
    · subst same
      exact here
    · exact each pair later

theorem start_shaped {body : SubGraph} {state : List (Tensor α)}
    (plain : ∀ n ∈ body.nodes, isLoop n = false) (wf : WellFormed P blobs fuel body state)
    (bound : bindParams P.sem blobs state body.inputs body.constants = .ok env) :
    Shaped (shapesOf body) env := by
  obtain ⟨values, args, made, given, rfl⟩ := bindParams_ok.mp bound
  have blank : Shaped (shapesOf body) (fun _ => (none : Option (Tensor α))) := by
    intro id t nothing
    cases nothing
  refine shaped_pairs (shaped_pairs blank ?_) ?_
  · intro pair mem
    rw [List.zip_map_left] at mem
    obtain ⟨⟨c, v⟩, here, rfl⟩ := List.mem_map.mp mem
    have listed := (List.of_mem_zip here).1
    have shape := wf.constants c listed v ((mapM_zip made).2 _ here)
    have entry : (c.id, c.shape) ∈ body.inputs.map (fun i => (i.id, i.shape)) ++
        body.constants.map fun c => (c.id, c.shape) :=
      List.mem_append_right _ (List.mem_map.mpr ⟨c, listed, rfl⟩)
    simpa [shape] using shapes_lookup plain wf.distinct entry
  · intro pair mem
    rw [List.zip_map_left] at mem
    obtain ⟨⟨i, v⟩, here, rfl⟩ := List.mem_map.mp mem
    have listed := (List.of_mem_zip here).1
    have shape := wf.inputs i listed v (orFault_ok.mp ((mapM_zip given).2 _ here))
    have entry : (i.id, i.shape) ∈ body.inputs.map (fun i => (i.id, i.shape)) ++
        body.constants.map fun c => (c.id, c.shape) :=
      List.mem_append_left _ (List.mem_map.mpr ⟨i, listed, rfl⟩)
    simpa [shape] using shapes_lookup plain wf.distinct entry

theorem invariant_same {S : Sem V} {body : SubGraph} {state outs : List V} {env final : Env V}
    (distinct : (bodyIds body).Nodup)
    (bound : bindParams S blobs state body.inputs body.constants = .ok env)
    (ran : evalNodes S blobs fuel [] body.nodes env = .ok final)
    (read : fetch EvalError.missing final (body.outputs.map (·.node)) = .ok outs) {j : Nat}
    (inv : invariant body j = true) : outs[j]? = state[j]? := by
  unfold invariant at inv
  cases at_out : body.outputs[j]? with
  | none => simp [at_out] at inv
  | some out =>
    simp only [at_out, inputIdAt, decide_eq_true_eq, Option.map_eq_some_iff] at inv
    obtain ⟨i, found, same⟩ := inv
    have index : i.index = j := by simpa using List.find?_some found
    have listed : i ∈ body.inputs := List.mem_reverse.mp (List.mem_of_find?_eq_some found)
    obtain ⟨values, args, made, given, start⟩ := bindParams_ok.mp bound
    obtain ⟨len, each⟩ := mapM_zip given
    obtain ⟨front, _, apart⟩ := List.nodup_append.mp distinct
    obtain ⟨inputs, _, _⟩ := List.nodup_append.mp front
    obtain ⟨k, inside, at_k⟩ := List.getElem_of_mem listed
    obtain ⟨arg, at_arg⟩ : ∃ arg, args[k]? = some arg :=
      ⟨args.get ⟨k, by omega⟩, List.getElem?_eq_getElem _⟩
    have pair : (i, arg) ∈ body.inputs.zip args := by
      refine List.mem_of_getElem? (i := k) ?_
      rw [List.getElem?_zip_eq_some]
      exact ⟨List.getElem?_eq_some_iff.mpr ⟨inside, at_k⟩, at_arg⟩
    have given_value : state[j]? = some arg := by
      rw [← index]
      exact orFault_ok.mp (each _ pair)
    have at_id : (body.inputs.map (·.id))[k]? = some i.id := by
      simp [List.getElem?_map, List.getElem?_eq_some_iff.mpr ⟨inside, at_k⟩]
    have at_start : env i.id = some arg := by
      rw [← start]
      exact assign_getElem inputs at_id at_arg
    have kept : final i.id = env i.id := by
      refine evalNodes_other ran fun defined => ?_
      refine apart i.id (List.mem_append_left _ ?_) i.id defined rfl
      exact List.mem_map.mpr ⟨i, listed, rfl⟩
    have values_eq := congrArg (fun l => l[j]?) (fetch_ok_iff.mp read)
    simp only [List.getElem?_map, at_out, Option.map_some, ← same, kept, at_start] at values_eq
    rw [given_value]
    cases at_j : outs[j]? with
    | none => simp [at_j] at values_eq
    | some v => simpa [at_j, eq_comm] using values_eq

theorem plan_ok {body : SubGraph} {nodes : List Node} {uses : List Use}
    (plain : ∀ n ∈ body.nodes, isLoop n = false)
    (rewritten : rewriteNodes (shapesOf body) body.nodes [] = some (nodes, uses)) :
    ∃ plan needed, symbolicWhilePlan body = some plan ∧
      plan.symBody = .mk body.inputs body.constants nodes body.outputs ∧ plan.uses = uses ∧
      ancestors body.nodes (plan.uses.map (·.id)) = (plan.ancNodes, needed) ∧
      plan.ancConsts = body.constants.filter fun c => c.id ∈ needed := by
  have table : shapeTable body = some (shapesOf body) := by
    rw [shapesOf, shapeTable_plain plain, Option.getD_some]
  obtain ⟨⟨ancNodes, needed⟩, anc⟩ : ∃ a, ancestors body.nodes (uses.map (·.id)) = a := ⟨_, rfl⟩
  refine ⟨⟨.mk body.inputs body.constants nodes body.outputs, uses, ancNodes,
    body.constants.filter fun c => c.id ∈ needed⟩, needed, ?_, rfl, rfl, anc, rfl⟩
  simp [symbolicWhilePlan, table, rewritten, anc]

theorem symbolicStep_agrees {body : SubGraph} {state outs : List (Tensor α)}
    (plain : ∀ n ∈ body.nodes, isLoop n = false) (wf : WellFormed P blobs fuel body state)
    (h : interpret P.sem blobs fuel body [] state = .ok outs) :
    symbolicStep P.sem blobs fuel body state = .ok outs := by
  obtain ⟨env, final, bound, ran, read⟩ := interpret_ok.mp h
  obtain ⟨_, distinct, apart⟩ := List.nodup_append.mp wf.distinct
  have fresh : ∀ id ∈ body.nodes.flatMap Node.definedIds, env id = none := by
    intro id mem
    obtain ⟨values, args, _, _, rfl⟩ := bindParams_ok.mp bound
    rw [assign_other fun input => apart id (List.mem_append_left _ input) id mem rfl]
    exact assign_other fun constant => apart id (List.mem_append_right _ constant) id mem rfl
  obtain ⟨nodes', uses, rewritten, can, again⟩ := nodes_agree ran fresh distinct
    (start_shaped plain wf bound) wf.nodes wf.fits []
  rw [List.nil_append] at rewritten again
  obtain ⟨plan, needed, planned, sym, rfl, anc, constants⟩ := plan_ok plain rewritten
  obtain ⟨values, bound_ok, bounds⟩ := bindUses_ok plain bound ran anc constants can
  have outs_ok : interpret P.sem blobs fuel plan.symBody values state = .ok outs := by
    rw [sym]
    exact interpret_ok.mpr ⟨env, final, bound, again _ values (List.prefix_refl _) bounds, read⟩
  have merged : mergeState (invariant body) 0 state (dropInvariant (invariant body) 0 outs) =
      .ok outs := by
    refine merge_drop ?_ fun k inv => ?_
    · rw [← wf.count]
      simpa using fetch_length read
    · rw [Nat.zero_add] at inv
      exact invariant_same wf.distinct bound ran read inv
  simp only [symbolicStep, planned]
  exact except_bind_ok.mpr ⟨values, bound_ok, except_bind_ok.mpr ⟨outs, outs_ok, merged⟩⟩

/-- One call of the step returns what interpreting the body returns. -/
theorem while_step_agrees {body : SubGraph} {state outs : List (Tensor α)}
    (captured : subRequiresEager body = false) (wf : WellFormed P blobs fuel body state)
    (h : interpret P.sem blobs fuel body [] state = .ok outs) :
    whileStep P.sem blobs fuel body state = .ok outs := by
  have plain : ∀ n ∈ body.nodes, isLoop n = false := by
    cases body with
    | mk inputs constants nodes outputs =>
      exact plain_of_eager (by simpa [subRequiresEager, SubGraph.nodes] using captured)
  simp only [whileStep, captured, Bool.false_eq_true, if_false]
  exact symbolicStep_agrees plain wf h

/-! Bodies that slice a row out of a loop variable, at a start that is one as well. -/

theorem sliceOp_shape {S : Sem V} {dyn : List V} {t out : Tensor α} {specs : List StartSpec}
    {starts : List Start} {lengths strides : List Nat} (resolves : Resolves S dyn specs starts)
    (fits : SpecsFit t.shape specs lengths strides) (h : sliceOp t starts lengths strides = some out) :
    out.shape = List.zipWith (fun length step => (length + step - 1) / step) lengths strides := by
  simp only [sliceOp, resolves_not_bound resolves, Bool.false_eq_true, if_false, Option.bind_eq_bind,
    Option.bind_eq_some_iff] at h
  obtain ⟨offsets, clamped, sliced⟩ := h
  obtain ⟨axes, at_axes, rfl⟩ := Option.map_eq_some_iff.mp sliced
  have fit := fit_of_specs resolves fits clamped at_axes
  cases (sliceAxes_fit fit).symm.trans at_axes
  simp only [Tensor.view, ← strided_counts fit, strideAxes, List.map_zipWith]

/-- Numbers as scalars, and no operation but slicing. -/
def scalars : Prims Int where
  number _ _ _ := none
  literal _ _ _ := none
  prim _ _ _ _ _ := none
  cast t _ := some t
  pad _ _ := none
  ones t := t
  whereNonzero _ _ _ := none
  item t := if t.shape = [] then some (t.get []) else none
  truthy _ := none
  foldAcc _ _ _ := none
  foldParts _ _ := none
  foldFinish _ _ _ := none

def rowBody (id : Nat) (dims : List Nat) (starts : List StartSpec) (lengths strides : List Nat)
    (outputs : List OutputSpec) : SubGraph :=
  .mk [⟨0, 0, dims, .f32⟩, ⟨1, 1, [], .s32⟩] []
    [.op id (.slice starts lengths strides) [0, 1] lengths .f32] outputs

/-- The entry number `i` of a row is `i`; a scalar is a row of rank 0. -/
def counting (shape : List Nat) (first : Int) : Tensor Int :=
  ⟨shape, fun idx => first + (idx.sum : Nat)⟩

def peek (r : Except EvalError (List (Tensor Int))) : Except EvalError (List (List Nat × Int)) :=
  r.map fun ts => ts.map fun t => (t.shape, t.get (t.shape.map fun _ => 0))

/-- A declared shape that is not the real one, a static start outside its axis, an output
    too few, an id used twice. -/
theorem careless_bodies :
    (let body := rowBody 2 [2] [.input 0] [1] [1] [⟨2, [1], .f32⟩, ⟨1, [], .s32⟩]
      let state := [counting [4] 0, counting [] 3]
      subRequiresEager body = false ∧
        peek (interpret scalars.sem [] 0 body [] state) = .ok [([1], 3), ([], 3)] ∧
        peek (whileStep scalars.sem [] 0 body state) = .ok [([1], 1), ([], 3)]) ∧
    (let body := rowBody 2 [3, 3] [.static 2, .input 0] [2, 1] [1, 1] [⟨2, [2, 1], .f32⟩, ⟨1, [], .s32⟩]
      let state := [counting [3, 3] 0, counting [] 0]
      peek (interpret scalars.sem [] 0 body [] state) = .ok [([1, 1], 2), ([], 0)] ∧
        peek (whileStep scalars.sem [] 0 body state) = .error .fault) ∧
    (let body := rowBody 2 [4] [.input 0] [1] [1] [⟨2, [1], .f32⟩]
      let state := [counting [4] 0, counting [] 3]
      peek (interpret scalars.sem [] 0 body [] state) = .ok [([1], 3)] ∧
        peek (whileStep scalars.sem [] 0 body state) = .error .fault) ∧
    (let body := rowBody 0 [4] [.input 0] [1] [1] [⟨0, [1], .f32⟩, ⟨1, [], .s32⟩]
      let state := [counting [4] 0, counting [] 3]
      peek (interpret scalars.sem [] 0 body [] state) = .ok [([1], 3), ([], 3)] ∧
        peek (whileStep scalars.sem [] 0 body state) = .ok [([4], 0), ([], 3)]) :=
  ⟨⟨rfl, rfl, rfl⟩, ⟨rfl, rfl⟩, ⟨rfl, rfl⟩, rfl, rfl⟩

def pickRow : SubGraph := rowBody 2 [4] [.input 0] [1] [1] [⟨2, [1], .f32⟩, ⟨1, [], .s32⟩]

theorem pickRow_fits : SpecsFit [4] [.input 0] [1] [1] := by
  refine ⟨by decide, ?_, trivial⟩
  intro n none_yet
  cases none_yet

theorem pickRow_shapeTrue : ∀ n ∈ pickRow.nodes, ShapeTrue scalars [] 0 (shapesOf pickRow) n := by
  intro n mem
  cases List.mem_singleton.mp mem
  intro vs outs shapes h
  simp only [runNode] at h
  obtain ⟨v, applied, same⟩ := except_bind_ok.mp h
  cases same
  have known : (nodeReads (.op 2 (.slice [.input 0] [1] [1]) [0, 1] [1] .f32)).map
      (fun i => (shapesOf pickRow).lookup i) = [some [4], some []] := by rfl
  rw [known] at shapes
  cases vs with
  | nil => simp at shapes
  | cons t dyn =>
    have row : t.shape = [4] := by simpa using (List.cons.inj shapes).1
    obtain ⟨starts, ok, sliced⟩ := except_bind_ok.mp applied
    obtain ⟨out, out_eq, cast⟩ := Option.bind_eq_some_iff.mp (orFault_ok.mp sliced)
    cases cast
    have shape := sliceOp_shape (resolves_of_ok ok) (row.symm ▸ pickRow_fits) out_eq
    simp only [List.map_cons, List.map_nil, shape]
    rfl

theorem pickRow_wellFormed : WellFormed scalars [] 0 pickRow [counting [4] 0, counting [] 7] where
  distinct := by decide
  count := rfl
  inputs := by
    intro i mem t at_i
    rcases List.mem_cons.mp mem with same | mem
    · subst same
      cases at_i
      rfl
    · cases List.mem_singleton.mp mem
      cases at_i
      rfl
  constants := by
    intro c mem
    cases mem
  nodes := pickRow_shapeTrue
  fits := by
    intro n mem
    cases List.mem_singleton.mp mem
    intro dims found
    cases found
    exact pickRow_fits

theorem while_step_picks_row : ∃ outs, peek (.ok outs) = .ok [([1], 3), ([], 7)] ∧
    whileStep scalars.sem [] 0 pickRow [counting [4] 0, counting [] 7] = .ok outs :=
  ⟨_, rfl, while_step_agrees rfl pickRow_wellFormed rfl⟩

end NxTinygrad.SymbolicStep
