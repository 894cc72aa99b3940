import NxTinygrad.Reductions

/- Traced functions made of elementwise operations, whose one evaluation for all kept positions
   together is one for each of them exactly when they use a parameter. -/
namespace NxTinygrad.Reductions
open IR Interpreter StraightLine NDArray
variable {α : Type}

def entryAt (b : List Nat) (t : NDArray α) : Option α := t.get? (if t.shape = [] then [] else b)

/-- On tensors of one shape and scalars the operation is `f` at every position. -/
def Elementwise (S : Sem (Value α)) (op : PrimOp) (attrs : List (String × Json)) (shape : List Nat)
    (dtype : Dtype) (count : Nat) (f : List α → α) : Prop :=
  ∀ (batch : List Nat) (ts : List (NDArray α)), ts.length = count →
    (∀ t ∈ ts, t.shape = [] ∨ t.shape = batch) →
    ∃ r, S.prim op attrs (ts.map .real) shape dtype = some (.real r) ∧
      (r.shape = batch ∧ (∃ t ∈ ts, t.shape = batch) ∨ r.shape = [] ∧ ∀ t ∈ ts, t.shape = []) ∧
      ∀ b, Inside batch b → ∀ xs, ts.map (entryAt b) = xs.map some → entryAt b r = some (f xs)

def InScope : (Nat → Prop) → List Node → Prop
  | _, [] => True
  | ids, n :: rest => (∀ id ∈ n.inputs, ids id) ∧ InScope (fun id => ids id ∨ id ∈ n.definedIds) rest

/-- A body of elementwise operations, in scope, with two parameters at most. -/
structure Plain (S : Sem (Value α)) (blobs : List Blob) (fn : SubGraph) : Prop where
  inputs : ∀ i ∈ fn.inputs, i.index < 2
  constants : ∀ c ∈ fn.constants, ∃ a, makeConstant S blobs c = .ok (.real (scalar a))
  nodes : ∀ n ∈ fn.nodes, ∃ id op attrs inputs shape dtype f,
    n = .op id (.prim op attrs) inputs shape dtype ∧ Elementwise S op attrs shape dtype inputs.length f
  scope : InScope (fun id => id ∈ fn.constants.map (·.id) ∨ id ∈ fn.inputs.map (·.id)) fn.nodes
  outputs : ∀ o ∈ fn.outputs, o.node ∈ fn.constants.map (·.id) ∨ o.node ∈ fn.inputs.map (·.id) ∨
    ∃ n ∈ fn.nodes, o.node ∈ n.definedIds
  result : fn.outputs ≠ []

def usesAfter : List Node → (Nat → Bool) → Nat → Bool
  | [], uses => uses
  | n :: rest, uses => usesAfter rest fun id => if id ∈ n.definedIds then n.inputs.any uses else uses id

def UsesParameter (fn : SubGraph) : Prop := ∃ o, fn.outputs.head? = some o ∧
  usesAfter fn.nodes (fun id => decide (id ∈ fn.inputs.map (·.id))) o.node = true

/-- What an id stands for: whether a parameter is used, and the value at a position. -/
abbrev Lane (α : Type) := Bool × (α → α → α)

def Carries (acc part : NDArray α) (v : Value α) (w : Lane α) : Prop :=
  ∃ t, v = .real t ∧ t.shape = (if w.1 then acc.shape else []) ∧ ∀ b, Inside acc.shape b →
    ∀ x y, acc.get? b = some x → part.get? b = some y → entryAt b t = some (w.2 x y)

section carries
variable {acc part : NDArray α}

theorem entryAt_inside {t : NDArray α} {b : List Nat} (inside : Inside t.shape b) :
    entryAt b t = t.get? b := by
  unfold entryAt
  split
  · rename_i none
    rw [none] at inside
    cases b with
    | nil => rfl
    | cons => cases inside
  · rfl

theorem carries_tensor {t : NDArray α} (same : t.shape = acc.shape) {f : α → α → α}
    (entries : ∀ b x y, acc.get? b = some x → part.get? b = some y → t.get? b = some (f x y)) :
    Carries acc part (.real t) (true, f) :=
  ⟨t, rfl, same, fun b inside x y first second => by
    rw [entryAt_inside (same ▸ inside), entries b x y first second]⟩

theorem carries_scalar (a : α) : Carries acc part (.real (scalar a)) (false, fun _ _ => a) :=
  ⟨scalar a, rfl, rfl, fun _ _ _ _ _ _ => rfl⟩

theorem carries_all {vs : List (Value α)} {ws : List (Lane α)}
    (all : List.Forall₂ (Carries acc part) vs ws) : ∃ ts : List (NDArray α), vs = ts.map .real ∧
      ts.length = ws.length ∧ (∀ t ∈ ts, t.shape = [] ∨ t.shape = acc.shape) ∧
      (ws.any (·.1) = true → ∃ t ∈ ts, t.shape = acc.shape) ∧
      (ws.any (·.1) = false → ∀ t ∈ ts, t.shape = []) ∧
      ∀ b, Inside acc.shape b → ∀ x y, acc.get? b = some x → part.get? b = some y →
        ts.map (entryAt b) = (ws.map fun w => w.2 x y).map some := by
  induction all with
  | nil => exact ⟨[], rfl, rfl, by simp, by simp, by simp, fun _ _ _ _ _ _ => rfl⟩
  | @cons v w vs ws here _ ih =>
    obtain ⟨t, rfl, shape, entries⟩ := here
    obtain ⟨ts, rfl, count, shapes, some_used, none_used, rest⟩ := ih
    refine ⟨t :: ts, rfl, by simp [count], ?_, ?_, ?_, fun b inside x y first second => ?_⟩
    · refine List.forall_mem_cons.mpr ⟨?_, shapes⟩
      cases used : w.1 <;> simp [shape, used]
    · intro any
      cases used : w.1 with
      | true => exact ⟨t, List.mem_cons_self .., by simp [shape, used]⟩
      | false =>
        obtain ⟨s, mem, same⟩ := some_used (by simpa [used] using any)
        exact ⟨s, List.mem_cons_of_mem _ mem, same⟩
    · intro none
      rw [List.any_cons, Bool.or_eq_false_iff] at none
      exact List.forall_mem_cons.mpr ⟨by simp [shape, none.1], none_used none.2⟩
    · rw [List.map_cons, entries b inside x y first second, rest b inside x y first second]
      rfl

end carries

section run
variable {S : Sem (Value α)} {blobs : List Blob} {fuel : Nat} {fn : SubGraph}

def applyLane (f : List α → α) (ws : List (Lane α)) : Lane α :=
  (ws.any (·.1), fun x y => f (ws.map fun w => w.2 x y))

theorem elementwise_carries {op : PrimOp} {attrs : List (String × Json)} {shape : List Nat} {dtype : Dtype}
    {count : Nat} {f : List α → α} (elementwise : Elementwise S op attrs shape dtype count f)
    {acc part : NDArray α} {vs : List (Value α)} {ws : List (Lane α)} (len : ws.length = count)
    (all : List.Forall₂ (Carries acc part) vs ws) :
    ∃ v, S.prim op attrs vs shape dtype = some v ∧ Carries acc part v (applyLane f ws) := by
  obtain ⟨ts, rfl, same, shapes, some_used, none_used, entries⟩ := carries_all all
  obtain ⟨r, made, shape, value⟩ := elementwise acc.shape ts (same.trans len) shapes
  refine ⟨_, made, r, rfl, ?_, fun b inside x y first second => ?_⟩
  · cases used : ws.any (·.1) with
    | true =>
      obtain ⟨t, mem, batch⟩ := some_used used
      rcases shape with ⟨whole, _⟩ | ⟨none, all⟩
      · simp [applyLane, used, whole]
      · simp [applyLane, used, none, ← batch, all t mem]
    | false =>
      rcases shape with ⟨whole, t, mem, batch⟩ | ⟨none, _⟩
      · simp [applyLane, used, whole, ← batch, none_used used t mem]
      · simp [applyLane, used, none]
  · exact value b inside _ (entries b inside x y first second)

theorem any_marked {L : Env (Lane α)} {uses : Nat → Bool} {reads : List Nat} {ws : List (Lane α)}
    (read : reads.map L = ws.map some) (marks : ∀ id w, L id = some w → w.1 = uses id) :
    ws.any (·.1) = reads.any uses := by
  induction reads generalizing ws with
  | nil =>
    cases ws with
    | nil => rfl
    | cons => cases read
  | cons x rest ih =>
    cases ws with
    | nil => cases read
    | cons w ws =>
      rw [List.map_cons, List.map_cons, List.cons.injEq] at read
      rw [List.any_cons, List.any_cons, ih read.2, marks x w read.1]

theorem nodes_carry {nodes : List Node} (plain : ∀ n ∈ nodes, ∃ id op attrs inputs shape dtype f,
      n = .op id (.prim op attrs) inputs shape dtype ∧ Elementwise S op attrs shape dtype inputs.length f)
    {L : Env (Lane α)} {ids : Nat → Prop} (known : ∀ id, ids id → (L id).isSome)
    (scope : InScope ids nodes) {uses : Nat → Bool}
    (marks : ∀ id w, L id = some w → w.1 = uses id) :
    ∃ L' : Env (Lane α), (∀ id, (ids id ∨ ∃ n ∈ nodes, id ∈ n.definedIds) → (L' id).isSome) ∧
      (∀ id w, L' id = some w → w.1 = usesAfter nodes uses id) ∧
      ∀ acc part E, Related (Carries acc part) (fun _ => True) E L →
        ∃ E', evalNodes S blobs fuel [] nodes E = .ok E' ∧
          Related (Carries acc part) (fun _ => True) E' L' := by
  induction nodes generalizing L ids uses with
  | nil =>
    refine ⟨L, fun id there => known id ?_, marks, fun acc part E related => ⟨E, rfl, related⟩⟩
    exact there.resolve_right fun ⟨n, mem, _⟩ => by cases mem
  | cons n rest ih =>
    obtain ⟨id, op, attrs, inputs, shape, dtype, f, rfl, elementwise⟩ := plain n (List.mem_cons_self ..)
    obtain ⟨reads, scope⟩ := scope
    obtain ⟨ws, fetched⟩ : ∃ ws, fetch EvalError.missing L inputs = .ok ws :=
      fetch_present fun id mem => known id (reads id mem)
    have used := any_marked (fetch_ok_iff.mp fetched) marks
    have known₁ : ∀ i, ids i ∨ i ∈ [id] → (assign L [id] [applyLane f ws] i).isSome := by
      rintro i (old | new)
      · exact assign_keeps (known i old)
      · have one : [applyLane f ws].length = [id].length := rfl
        exact assign_present one new
    have marks₁ : ∀ i w, assign L [id] [applyLane f ws] i = some w →
        w.1 = if i ∈ [id] then inputs.any uses else uses i := by
      intro i w value
      by_cases same : i = id
      · subst same
        simp only [StraightLine.assign, Function.update_self, Option.some.injEq] at value
        rw [← value, if_pos (List.mem_singleton_self i)]
        exact used
      · rw [if_neg (by simpa using same)]
        exact marks i w (by simpa [StraightLine.assign, Function.update_of_ne same] using value)
    obtain ⟨L', known', marks', runs⟩ :=
      ih (fun m mem => plain m (List.mem_cons_of_mem _ mem)) known₁ scope marks₁
    refine ⟨L', fun i there => known' i ?_, marks', fun acc part E related => ?_⟩
    · rcases there with old | ⟨m, mem, defines⟩
      · exact .inl (.inl old)
      · rcases List.mem_cons.mp mem with rfl | later
        · exact .inl (.inr defines)
        · exact .inr ⟨m, later, defines⟩
    · obtain ⟨vs, read, all⟩ := fetch_related EvalError.missing
        (related_mono related (fun _ _ => trivial) fun _ _ _ _ _ r => r) fetched
      obtain ⟨v, made, carries⟩ := elementwise_carries elementwise (fetch_length fetched) all
      obtain ⟨E', ran, final⟩ := runs acc part (assign E [id] [v])
        (assign_related [id] related (.cons carries .nil))
      refine ⟨E', evalNodes_cons.mpr ⟨vs, [v], read, ?_, ran⟩, final⟩
      simp [runNode, applyOp, made, orFault, bind, Except.bind]

theorem constants_carry {constants : List Constant}
    (made : ∀ c ∈ constants, ∃ a, makeConstant S blobs c = .ok (.real (scalar a))) :
    ∃ vs : List (Value α), constants.mapM (makeConstant S blobs) = .ok vs ∧ ∃ ws : List (Lane α),
      ws.length = constants.length ∧ (∀ w ∈ ws, w.1 = false) ∧
        ∀ acc part, List.Forall₂ (Carries acc part) vs ws := by
  induction constants with
  | nil => exact ⟨[], rfl, [], rfl, by simp, fun _ _ => .nil⟩
  | cons c rest ih =>
    obtain ⟨a, here⟩ := made c (List.mem_cons_self ..)
    obtain ⟨vs, all, ws, count, unused, carries⟩ := ih fun x mem => made x (List.mem_cons_of_mem _ mem)
    refine ⟨.real (scalar a) :: vs, ?_, (false, fun _ _ => a) :: ws, by simp [count], ?_, ?_⟩
    · simp [List.mapM_cons, here, all, bind, Except.bind, pure, Except.pure]
    · exact List.forall_mem_cons.mpr ⟨rfl, unused⟩
    · exact fun acc part => .cons (carries_scalar a) (carries acc part)

def parameterLane (index : Nat) : Lane α := (true, fun x y => if index = 0 then x else y)

theorem parameters_carry {acc part : NDArray α} (same : part.shape = acc.shape) {inputs : List InputSpec}
    (two : ∀ i ∈ inputs, i.index < 2) : ∃ vs : List (Value α),
      inputs.mapM (fun i => orFault ([Value.real acc, .real part][i.index]?)) = .ok vs ∧
        List.Forall₂ (Carries acc part) vs (inputs.map fun i => parameterLane i.index) := by
  induction inputs with
  | nil => exact ⟨[], rfl, .nil⟩
  | cons i rest ih =>
    obtain ⟨vs, all, carries⟩ := ih fun x mem => two x (List.mem_cons_of_mem _ mem)
    have low := two i (List.mem_cons_self ..)
    obtain ⟨v, here, first⟩ : ∃ v, [Value.real acc, .real part][i.index]? = some v ∧
        Carries acc part v (parameterLane i.index) := by
      obtain zero | one : i.index = 0 ∨ i.index = 1 := by omega
      · rw [zero]
        exact ⟨_, rfl, carries_tensor rfl fun _ _ _ first _ => first⟩
      · rw [one]
        exact ⟨_, rfl, carries_tensor same fun _ _ _ _ second => second⟩
    refine ⟨v :: vs, ?_, .cons first carries⟩
    rw [List.mapM_cons, all, here]
    rfl

theorem related_none {R : Value α → Lane α → Prop} :
    Related R (fun _ => True) (fun _ => none) (fun _ => none) := fun _ _ => .none

theorem plain_carries (plain : Plain S blobs fn) : ∃ w : Lane α,
    (w.1 = true ↔ UsesParameter fn) ∧ ∀ acc part, part.shape = acc.shape →
      ∃ v, applied S blobs fuel fn (.real acc) (.real part) = some v ∧ Carries acc part v w := by
  obtain ⟨vs, made, ws, count, unused, carries⟩ := constants_carry plain.constants
  generalize base : assign (assign (fun _ => none) (fn.constants.map (·.id)) ws)
    (fn.inputs.map (·.id)) (fn.inputs.map fun i => parameterLane i.index) = L
  have known : ∀ id, id ∈ fn.constants.map (·.id) ∨ id ∈ fn.inputs.map (·.id) → (L id).isSome := by
    rintro id (constant | input)
    · rw [← base]
      exact assign_keeps (assign_present (by simp [count]) constant)
    · rw [← base]
      exact assign_present (by simp) input
  have marks : ∀ id w, L id = some w → w.1 = decide (id ∈ fn.inputs.map (·.id)) := by
    intro id w value
    rw [← base] at value
    by_cases input : id ∈ fn.inputs.map (·.id)
    · have lanes : ∀ pair ∈ (fn.inputs.map (·.id)).zip (fn.inputs.map fun i => parameterLane i.index),
          (pair : Nat × Lane α).2.1 = true := by
        intro pair mem
        obtain ⟨i, _, lane⟩ := List.mem_map.mp (List.of_mem_zip mem).2
        rw [← lane]
        rfl
      have alone : assign (fun _ => none) (fn.inputs.map (·.id))
          (fn.inputs.map fun i => parameterLane i.index) id = some w :=
        (assign_written (by simp) input).symm.trans value
      rw [decide_eq_true input]
      exact @assign_forall _ _ (fun _ w => w.1 = true) _ _ (fun _ _ none => by cases none) lanes _ _ alone
    · rw [StraightLine.assign_other input] at value
      rw [decide_eq_false input]
      exact @assign_forall _ _ (fun _ w => w.1 = false) _ _ (fun _ _ none => by cases none)
        (fun pair mem => unused _ (List.of_mem_zip mem).2) _ _ value
  obtain ⟨L', known', marks', runs⟩ :=
    @nodes_carry _ (withFolds S) blobs fuel _ plain.nodes _ _ known plain.scope _ marks
  obtain ⟨o, rest, outputs⟩ : ∃ o rest, fn.outputs = o :: rest := List.exists_cons_of_ne_nil plain.result
  have there : ∀ x ∈ fn.outputs.map (·.node), (L' x).isSome := by
    intro x mem
    obtain ⟨o, listed, rfl⟩ := List.mem_map.mp mem
    refine known' _ ?_
    rw [or_assoc]
    exact plain.outputs o listed
  obtain ⟨lanes, fetched⟩ : ∃ lanes, fetch EvalError.missing L' (fn.outputs.map (·.node)) = .ok lanes :=
    fetch_present there
  have read := fetch_ok_iff.mp fetched
  rw [outputs, List.map_cons, List.map_cons] at read
  cases lanes with
  | nil => cases read
  | cons w lanes =>
    have first : L' o.node = some w := (List.cons.inj read).1
    refine ⟨w, ?_, fun acc part same => ?_⟩
    · rw [marks' _ _ first]
      constructor
      · exact fun used => ⟨o, by rw [outputs]; rfl, used⟩
      · rintro ⟨o', head, used⟩
        rw [outputs] at head
        cases head
        exact used
    · obtain ⟨args, given, params⟩ := parameters_carry same plain.inputs
      have related : Related (Carries acc part) (fun _ => True) (assign (assign (fun _ => none)
          (fn.constants.map (·.id)) vs) (fn.inputs.map (·.id)) args) L := by
        rw [← base]
        exact assign_related _ (assign_related _ related_none (carries acc part)) params
      obtain ⟨E', ran, final⟩ := runs acc part _ related
      obtain ⟨outs, out, all⟩ := fetch_related EvalError.missing
        (related_mono final (fun _ _ => trivial) fun _ _ _ _ _ r => r) fetched
      cases all with
      | @cons v _ outs _ here later =>
        refine ⟨v, ?_, here⟩
        have bound : bindParams (withFolds S) blobs [.real acc, .real part] fn.inputs fn.constants =
            .ok (assign (assign (fun _ => none) (fn.constants.map (·.id)) vs) (fn.inputs.map (·.id)) args) :=
          bindParams_ok.mpr ⟨vs, args, made, given, rfl⟩
        have whole : interpret (withFolds S) blobs fuel fn [] [.real acc, .real part] = .ok (v :: outs) :=
          interpret_ok.mpr ⟨_, E', bound, ran, out⟩
        rw [applied, whole]
        rfl

theorem carries_step {w : Lane α} {x y : α} {v : Value α}
    (ran : applied S blobs fuel fn (.real (scalar x)) (.real (scalar y)) = some v)
    (carries : Carries (scalar x) (scalar y) v w) : scalarStep S blobs fuel fn x y = some (w.2 x y) := by
  obtain ⟨t, rfl, shape, entries⟩ := carries
  have none : t.shape = [] := by rw [shape]; split <;> rfl
  have here := entries [] trivial x y rfl rfl
  rw [entryAt, if_pos none] at here
  rw [scalarStep, ran]
  exact here

theorem plain_folds_iff (plain : Plain S blobs fn) : FoldsEach S blobs fuel fn ↔ UsesParameter fn := by
  obtain ⟨w, used, runs⟩ := @plain_carries _ S blobs fuel _ plain
  have step (x y : α) : scalarStep S blobs fuel fn x y = some (w.2 x y) := by
    obtain ⟨v, ran, carries⟩ := runs (scalar x) (scalar y) rfl
    exact carries_step ran carries
  rw [← used]
  constructor
  · intro each
    by_contra unused
    rw [Bool.not_eq_true] at unused
    -- the result is a scalar whatever the positions are, so it is wrong for two of them
    have scalar_shape (acc part : NDArray α) (same : part.shape = acc.shape) : ∃ t,
        applied S blobs fuel fn (.real acc) (.real part) = some (.real t) ∧ t.shape = [] := by
      obtain ⟨v, ran, t, rfl, shape, _⟩ := runs acc part same
      exact ⟨t, ran, by rw [shape, unused]; rfl⟩
    obtain ⟨a⟩ : Nonempty α := by
      let empty : NDArray α := ⟨[0], [], rfl⟩
      obtain ⟨t, _, shape⟩ := scalar_shape empty empty rfl
      obtain ⟨a, _⟩ := Option.isSome_iff_exists.mp (get?_isSome.mpr (by rw [shape]; trivial : Inside t.shape []))
      exact ⟨a⟩
    obtain ⟨next, made⟩ : ∃ next, lanes (scalarStep S blobs fuel fn) (filled [2] a) (filled [2] a) =
        some next := by
      obtain ⟨next, made⟩ : ∃ next, build [2] (fun b => ((filled [2] a).get? b).bind fun x =>
          ((filled [2] a).get? b).bind (scalarStep S blobs fuel fn x)) = some next :=
        build_ok fun b inside => by simp [filled, get?_tabulate inside, step]
      exact ⟨next, lanes_eq.mpr ⟨rfl, build_eq.mp made⟩⟩
    have whole := lane_wise each [2] a [] (filled [2] a) (filled [2] a) next rfl made
    obtain ⟨t, ran, shape⟩ := scalar_shape (filled [2] a) (filled [2] a) rfl
    cases whole.symm.trans ran
    have two : next.shape = [2] := (lanes_eq.mp made).2.1
    rw [shape] at two
    cases two
  · intro uses
    refine folds_each fun batch a ps acc part next _ made => ?_
    obtain ⟨same, dims, gets⟩ := lanes_eq.mp made
    obtain ⟨v, ran, t, rfl, shape, entries⟩ := runs acc part same
    rw [uses, if_pos rfl] at shape
    refine ran.trans (congrArg (some ∘ Value.real) (ext_get (shape.trans dims.symm) fun b inside => ?_))
    rw [shape] at inside
    obtain ⟨x, first⟩ := Option.isSome_iff_exists.mp (get?_isSome.mpr inside)
    obtain ⟨y, second⟩ := Option.isSome_iff_exists.mp (get?_isSome.mpr (same.symm ▸ inside))
    rw [gets b inside, first, second, Option.bind_some, Option.bind_some, step,
      ← entryAt_inside (shape.symm ▸ inside), entries b inside x y first second]

/-- The folds of the worker are right for a traced function exactly when a step of it, on tensors,
    is a step at each position; for elementwise operations this says that a parameter is used. No fold
    of a complex tensor returns, nor one that starts from a complex scalar and keeps an axis, nor a
    window fold of a scalar. -/
theorem folds_each_iff (S : Sem (Value α)) (blobs : List Blob) (fuel : Nat) (fn : SubGraph) :
    (FoldsEach S blobs fuel fn ↔ LaneWise S blobs fuel fn) ∧
    (Plain S blobs fn → (FoldsEach S blobs fuel fn ↔ UsesParameter fn)) ∧
    (∀ (id : Nat) (op : FoldOp) (sym inputs shape : List Nat) (dtype : Dtype) (t : NDArray α)
      (acc : Value α), ∃ e,
        runNode (withFolds S) blobs fuel sym (.fold id op fn inputs shape dtype)
        [.cx t, acc] = .error e) ∧
    (∀ (id : Nat) (sym inputs shape : List Nat) (dtype : Dtype) (axes : List Nat) (keep : Bool)
      (t acc : NDArray α), onKept axes t.shape ≠ [] → ∃ e, runNode (withFolds S) blobs fuel sym
        (.fold id (.reduce (axes.map Int.ofNat) keep) fn inputs shape dtype) [.real t, .cx acc] =
          .error e) ∧
    ∀ (id : Nat) (sym inputs shape : List Nat) (dtype : Dtype) (window strides dilations : List Nat)
      (padding : List (Nat × Nat)) (t : NDArray α) (acc : Value α), t.shape = [] →
      ∃ e, runNode (withFolds S) blobs fuel sym
        (.fold id (.windowReduce window strides padding dilations) fn inputs shape dtype) [.real t, acc] =
          .error e :=
  ⟨⟨lane_wise, folds_each⟩, plain_folds_iff, complex_operand_raises, complex_start_raises,
    scalar_window_raises⟩

end run

def lift (f : α → α → α) (s t : NDArray α) : Option (NDArray α) :=
  build (if s.shape = [] then t.shape else s.shape) fun b => do
    some (f (← entryAt b s) (← entryAt b t))

theorem entryAt_some {batch b : List Nat} {t : NDArray α} (shape : t.shape = [] ∨ t.shape = batch)
    (inside : Inside batch b) : ∃ x, entryAt b t = some x := by
  refine Option.isSome_iff_exists.mp (get?_isSome.mpr ?_)
  split
  · rename_i none
    rw [none]
    trivial
  · rename_i some_axis
    rwa [shape.resolve_left some_axis]

theorem lift_entries {f : α → α → α} {batch : List Nat} {s t : NDArray α}
    (first : s.shape = [] ∨ s.shape = batch) (second : t.shape = [] ∨ t.shape = batch) :
    ∃ r, lift f s t = some r ∧ (r.shape = batch ∧ (s.shape = batch ∨ t.shape = batch) ∨
        r.shape = [] ∧ s.shape = [] ∧ t.shape = []) ∧
      ∀ b, Inside batch b → ∀ x y, entryAt b s = some x → entryAt b t = some y →
        entryAt b r = some (f x y) := by
  obtain ⟨shape, dims⟩ : ∃ shape, shape = if s.shape = [] then t.shape else s.shape := ⟨_, rfl⟩
  have kind : shape = batch ∧ (s.shape = batch ∨ t.shape = batch) ∨
      shape = [] ∧ s.shape = [] ∧ t.shape = [] := by
    rw [dims]
    split
    · rename_i none
      rcases second with also | whole
      · exact .inr ⟨also, none, also⟩
      · exact .inl ⟨whole, .inr whole⟩
    · rename_i some_axis
      exact .inl ⟨first.resolve_left some_axis, .inl (first.resolve_left some_axis)⟩
  have parts : (s.shape = [] ∨ s.shape = shape) ∧ (t.shape = [] ∨ t.shape = shape) := by
    rcases kind with ⟨same, _⟩ | ⟨_, none, also⟩
    · exact ⟨same ▸ first, same ▸ second⟩
    · exact ⟨.inl none, .inl also⟩
  obtain ⟨r, made⟩ : ∃ r, lift f s t = some r := by
    rw [lift, ← dims]
    refine build_ok fun b inside => ?_
    obtain ⟨x, one⟩ := entryAt_some parts.1 inside
    obtain ⟨y, two⟩ := entryAt_some parts.2 inside
    simp [one, two]
  have built := made
  rw [lift, ← dims, build_eq] at built
  refine ⟨r, made, built.1 ▸ kind, fun b inside x y one two => ?_⟩
  have place : Inside shape (if r.shape = [] then [] else b) := by
    rw [built.1]
    split
    · rename_i none
      rw [none]
      trivial
    · rename_i some_axis
      rcases kind with ⟨same, _⟩ | ⟨none, _⟩
      · rwa [same]
      · exact absurd none some_axis
  have moved {u : NDArray α} (kind : u.shape = [] ∨ u.shape = shape) :
      entryAt (if r.shape = [] then [] else b) u = entryAt b u := by
    unfold entryAt
    by_cases none : u.shape = []
    · rw [if_pos none, if_pos none]
    · have some_axis : r.shape ≠ [] := by
        rw [built.1, ← kind.resolve_left none]
        exact none
      rw [if_neg none, if_neg none, if_neg some_axis]
  rw [entryAt, built.2 _ place, moved parts.1, moved parts.2, one, two]
  rfl

def naturals : Sem (Value Nat) where
  number v shape _ := match v with
    | .int n => some (.real (filled shape n.toNat))
    | _ => none
  literal _ _ _ := none
  prim op _ vs _ _ := match op, vs with
    | .binary .add, [.real s, .real t] => (lift (· + ·) s t).map .real
    | _, _ => none
  slice _ _ _ _ _ _ := none
  putSlice _ _ _ _ _ := none
  isTensor _ := true
  item _ := none
  truthy _ := none
  foldAcc _ _ _ := none
  foldParts _ _ := none
  foldFinish _ _ _ := none

theorem add_elementwise (shape : List Nat) (dtype : Dtype) :
    Elementwise naturals (.binary .add) [] shape dtype 2 List.sum := by
  intro batch ts len shapes
  obtain ⟨s, t, rfl⟩ := List.length_eq_two.mp len
  obtain ⟨r, made, kind, entries⟩ := lift_entries (f := (· + ·)) (shapes s (List.mem_cons_self ..))
    (shapes t (List.mem_cons_of_mem _ (List.mem_singleton_self t)))
  refine ⟨r, ?_, by simpa using kind, fun b inside xs same => ?_⟩
  · have same : naturals.prim (.binary .add) [] [.real s, .real t] shape dtype =
      (lift (· + ·) s t).map .real := rfl
    rw [List.map_cons, List.map_singleton, same, made, Option.map_some]
  · obtain ⟨x, y, rfl⟩ : ∃ x y, xs = [x, y] := by
      have count := congrArg List.length same
      simp only [List.length_map, List.length_cons, List.length_nil] at count
      exact List.length_eq_two.mp count.symm
    simp only [List.map_cons, List.map_nil, List.cons.injEq, and_true] at same
    simpa using entries b inside x y same.1 same.2

def doubling : SubGraph := .mk [⟨0, 0, [], .s32⟩, ⟨1, 1, [], .s32⟩] []
  [.op 2 (.prim (.binary .add) []) [0, 0] [] .s32, .op 3 (.prim (.binary .add) []) [2, 1] [] .s32]
  [⟨3, [], .s32⟩]

theorem doubling_plain : Plain naturals [] doubling where
  inputs := by decide
  constants := by
    intro c mem
    cases mem
  nodes := by
    intro n mem
    simp only [doubling, SubGraph.nodes, List.mem_cons, List.not_mem_nil, or_false] at mem
    rcases mem with rfl | rfl <;> exact ⟨_, _, _, _, _, _, _, rfl, add_elementwise _ _⟩
  scope := by simp [doubling, InScope, SubGraph.nodes, SubGraph.inputs, SubGraph.constants, Node.inputs,
    Node.definedIds]
  outputs := by
    intro o mem
    simp only [doubling, SubGraph.outputs, List.mem_singleton] at mem
    rw [mem]
    exact .inr (.inr ⟨_, List.mem_cons_of_mem _ (List.mem_singleton_self _), by decide⟩)
  result := by decide

theorem doubling_folds : FoldsEach naturals [] 0 doubling :=
  ((folds_each_iff naturals [] 0 doubling).2.1 doubling_plain).mpr ⟨_, rfl, rfl⟩

def five : SubGraph := .mk [] [⟨0, .value (.int 5), [], .s32⟩] [] [⟨0, [], .s32⟩]

def square : NDArray Nat := ⟨[2, 2], [1, 2, 3, 4], rfl⟩

theorem five_steps (a : Nat) (l : List Nat) : (l.foldlM (scalarStep naturals [] 0 five) a).isSome := by
  induction l generalizing a with
  | nil => rfl
  | cons x rest ih => exact ih 5

theorem constant_function_folds_to_a_scalar : ¬ FoldsEach naturals [] 0 five := by
  intro each
  obtain ⟨r, ran, shape, -⟩ := each.reduce 0 [] [] [] .s32 [1] false square 0
    (List.pairwise_singleton ..) (by decide) fun b _ => five_steps 0 _
  have one : runNode (withFolds naturals) [] 0 [] (.fold 0 (.reduce [1] false) five [] [] .s32)
      [.real square, .real (scalar 0)] = .ok [.real (scalar 5)] := rfl
  have same : r = scalar 5 := by simpa using Except.ok.inj (ran.symm.trans one)
  rw [same] at shape
  exact absurd shape (by decide)

end NxTinygrad.Reductions
