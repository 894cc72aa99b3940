import NxTinygrad.LoweringRuns
import NxTinygrad.Placement

/- Every graph the lowering returns is well formed: the ids, references, literals and declared
   shapes of the top-level graph and of each sub-graph, and what `validate` says of it. -/
namespace NxTinygrad.Lowering
open IR

abbrev Spec := List Nat × Dtype

def Tag.spec (t : Tag) : Spec := (t.shape, t.dtype)

def Expr.spec (e : Expr) : Spec := e.tag.spec

def Expr.specs : Expr → List Spec
  | .tuple es => es.map Expr.spec
  | .metadata _ inner => inner.specs
  | .block _ _ (.tuple outputs) => outputs.map Expr.spec
  | .loop _ _ _ body => body.map Expr.spec
  | .cond _ _ (.tuple elems) => elems.map Expr.spec
  | _ => []

/-- The operands of an expression, all of one id space. Those of a block's default stand in a
    scope of their own, `inner`. -/
def Expr.operands {σ : Type} (s inner : σ) : Expr → List (σ × Expr)
  | .parameter _ _ | .constant _ _ | .tensor _ _ | .other _ _ => []
  | .metadata _ e | .elem _ e _ | .pad _ e _ _ => [(s, e)]
  | .tuple es | .op _ _ es | .loop _ es _ _ => es.map (s, ·)
  | .block _ es e => (inner, e) :: es.map (s, ·)
  | .cond _ clauses e => (s, e) :: clauses.flatMap fun c => [(s, c.1), (s, c.2)]
  | .reduce _ a acc _ _ _ | .windowReduce _ a acc _ _ _ _ _ => [(s, a), (s, acc)]
  | .slice _ a starts _ _ => (s, a) :: (dynamicStarts starts).map (s, ·)
  | .putSlice _ a starts part => (s, a) :: (s, part) :: starts.map (s, ·)
  | .windowScatter _ _ a source _ _ _ _ => [(s, a), (s, source)]

def Expr.subs : Expr → List (List Expr)
  | .loop _ _ test body => [[test], body]
  | .reduce _ _ _ _ _ body | .windowReduce _ _ _ _ _ _ _ body => [[body]]
  | _ => []

/-- In one id space, the expression behind each reference and the parameter of each
    position. -/
structure Names where
  table : Ref → Expr
  position : Nat → Ref

def Expr.inputSpecs : Expr → List Spec
  | .block _ inputs _ => inputs.map Expr.spec
  | _ => []

/-- An alias declares the shape and type of what it stands for, under the specs that an
    enclosing block binds its parameters to. -/
def Declares (names : Names) (bound : Option (List Spec)) : Expr → Prop
  | .parameter t pos => match bound.bind (·[pos]?) with
      | some spec => t.spec = spec
      | none => names.position pos = t.ref
  | .tensor t literal => literal.binary.length = t.shape.prod * t.dtype.itemsize
  | .metadata t inner => inner.isTuple = false → t.spec = inner.spec
  | .elem t src k => src.specs[k]? = some t.spec
  | .block t _ (.tuple outputs) => ∀ e ∈ outputs.head?, t.spec = e.spec
  | .block t _ default => t.spec = default.spec
  | .cond t _ default => default.isTuple = false → t.spec = default.spec
  | _ => True

/-- Well-typed expressions of one id space: every reference stands for one expression, every
    unbound position for one parameter, and no rank is above the limit. -/
inductive WellTyped : Names → Option (List Spec) → Expr → Prop where
  | mk {names bound e} (subNames : List Expr → Names) :
      (e.isTuple = false → names.table e.tag.ref = e) → Declares names bound e →
      e.tag.shape.length ≤ Validate.maxRank →
      (∀ c ∈ e.operands bound (some e.inputSpecs), WellTyped names c.1 c.2) →
      (∀ sub ∈ e.subs, ∀ x ∈ sub, WellTyped (subNames sub) none x) → WellTyped names bound e

namespace WellTyped
variable {names : Names} {bound : Option (List Spec)} {e : Expr}

theorem table (typed : WellTyped names bound e) (kind : e.isTuple = false) :
    names.table e.tag.ref = e := by
  cases typed with
  | mk _ named _ _ _ _ => exact named kind

theorem declares (typed : WellTyped names bound e) : Declares names bound e := by
  cases typed with
  | mk _ _ declared _ _ _ => exact declared

theorem rank (typed : WellTyped names bound e) : e.spec.1.length ≤ Validate.maxRank := by
  cases typed with
  | mk _ _ _ rank _ _ => exact rank

theorem operand (typed : WellTyped names bound e) {c : Option (List Spec) × Expr}
    (mem : c ∈ e.operands bound (some e.inputSpecs)) : WellTyped names c.1 c.2 := by
  cases typed with
  | mk _ _ _ _ operands _ => exact operands c mem

theorem sub (typed : WellTyped names bound e) : ∃ subNames : List Expr → Names,
    ∀ sub ∈ e.subs, ∀ x ∈ sub, WellTyped (subNames sub) none x := by
  cases typed with
  | mk subNames _ _ _ _ subs => exact ⟨subNames, subs⟩

theorem tuple {es : List Expr} (typed : WellTyped names bound (.tuple es)) :
    ∀ e ∈ es, WellTyped names bound e :=
  fun _ mem => typed.operand (List.mem_map_of_mem mem)

theorem strip (typed : WellTyped names bound e) : WellTyped names bound e.strip :=
  strip_of (fun _ _ outer => outer.operand (List.mem_singleton.mpr rfl)) typed

end WellTyped

theorem plan_operand {σ : Type} (s inner : σ) {e : Expr} {args : List Expr} {op : NodeOp}
    (plan : e.plan = some (args, op)) :
    ∀ a ∈ args, ∃ x, (s, x) ∈ e.operands s inner ∧ (a = x ∨ a = x.strip) := by
  intro a mem
  cases e with
  | op t o es =>
    simp only [Expr.plan, Option.ite_none_right_eq_some, Option.some.injEq, Prod.mk.injEq] at plan
    obtain ⟨_, rfl, _⟩ := plan
    exact ⟨a, List.mem_map_of_mem mem, .inl rfl⟩
  | slice t x starts lengths strides =>
    simp only [Expr.plan, Option.some.injEq, Prod.mk.injEq] at plan
    obtain ⟨rfl, _⟩ := plan
    refine ⟨a, ?_, .inl rfl⟩
    rcases List.mem_cons.mp mem with rfl | mem
    · exact List.mem_cons_self ..
    · exact List.mem_cons_of_mem _ (List.mem_map_of_mem mem)
  | putSlice t x starts part =>
    simp only [Expr.plan] at plan
    split at plan
    · simp only [Option.some.injEq, Prod.mk.injEq] at plan
      obtain ⟨rfl, _⟩ := plan
      rcases List.mem_cons.mp mem with rfl | mem
      · exact ⟨a, List.mem_cons_self .., .inl rfl⟩
      · rcases List.mem_cons.mp mem with rfl | mem
        · exact ⟨a, List.mem_cons_of_mem _ (List.mem_cons_self ..), .inl rfl⟩
        · obtain ⟨start, found, rfl⟩ := List.mem_map.mp mem
          exact ⟨start, List.mem_cons_of_mem _ (List.mem_cons_of_mem _
            (List.mem_map_of_mem (List.mem_of_mem_filter found))), .inr rfl⟩
    · cases plan
  | pad t x value config =>
    simp only [Expr.plan] at plan
    split at plan
    · simp only [Option.some.injEq, Prod.mk.injEq] at plan
      obtain ⟨rfl, _⟩ := plan
      rw [List.mem_singleton.mp mem]
      exact ⟨x, List.mem_singleton.mpr rfl, .inl rfl⟩
    · cases plan
  | windowScatter t o x source init window strides padding =>
    simp only [Expr.plan] at plan
    split at plan
    · simp only [Option.some.injEq, Prod.mk.injEq] at plan
      obtain ⟨rfl, _⟩ := plan
      exact ⟨a, List.mem_map_of_mem (f := (s, ·)) mem, .inl rfl⟩
    · cases plan
  | _ => cases plan

theorem fold_operand {σ : Type} (s inner : σ) {e a acc body : Expr} {op : FoldOp}
    (fold : e.fold = some (a, acc, op, body)) :
    (∀ x ∈ [a, acc], (s, x) ∈ e.operands s inner) ∧ [body] ∈ e.subs := by
  cases e with
  | reduce t x y axes keepAxes z =>
    simp only [Expr.fold, Option.some.injEq, Prod.mk.injEq] at fold
    obtain ⟨rfl, rfl, _, rfl⟩ := fold
    exact ⟨fun _ mem => List.mem_map_of_mem (f := (s, ·)) mem, List.mem_singleton.mpr rfl⟩
  | windowReduce t x y window strides padding dilations z =>
    simp only [Expr.fold, Option.some.injEq, Prod.mk.injEq] at fold
    obtain ⟨rfl, rfl, _, rfl⟩ := fold
    exact ⟨fun _ mem => List.mem_map_of_mem (f := (s, ·)) mem, List.mem_singleton.mpr rfl⟩
  | _ => cases fold

theorem plan_typed {names : Names} {bound : Option (List Spec)} {e : Expr} {args : List Expr}
    {op : NodeOp} (typed : WellTyped names bound e) (plan : e.plan = some (args, op)) :
    ∀ a ∈ args, WellTyped names bound a := by
  intro a mem
  obtain ⟨x, inside, rfl | rfl⟩ := plan_operand bound (some e.inputSpecs) plan a mem
  · exact typed.operand inside
  · exact (typed.operand inside : WellTyped names bound x).strip

theorem fold_typed {names : Names} {bound : Option (List Spec)} {e a acc body : Expr}
    {op : FoldOp} (typed : WellTyped names bound e) (fold : e.fold = some (a, acc, op, body)) :
    (∀ x ∈ [a, acc], WellTyped names bound x) ∧ ∃ subNames, ∀ x ∈ [body],
    WellTyped subNames none x := by
  obtain ⟨subNames, subs⟩ := typed.sub
  obtain ⟨operands, sub⟩ := fold_operand bound (some e.inputSpecs) fold
  exact ⟨fun x mem => typed.operand (operands x mem), _, subs _ sub⟩

def nodeEntries : Node → List (Nat × Spec)
  | .op id _ _ shape dtype => [(id, (shape, dtype))]
  | .fold id _ _ _ shape dtype => [(id, (shape, dtype))]
  | .loop _ _ _ outputs => outputs.map fun o => (o.id, (o.shape, o.dtype))

def entries (inputs : List InputSpec) (constants : List Constant) (nodes : List Node) :
    List (Nat × Spec) :=
  inputs.map (fun i => (i.id, (i.shape, i.dtype))) ++
    constants.map (fun c => (c.id, (c.shape, c.dtype))) ++ nodes.flatMap nodeEntries

def State.entries (st : State) : List (Nat × Spec) :=
  Lowering.entries st.inputs st.constants st.nodes

abbrev State.Entry (st : State) (id : Nat) (spec : Spec) : Prop := (id, spec) ∈ st.entries

def nodeSubs : Node → List SubGraph
  | .op _ _ _ _ _ => []
  | .fold _ _ fn _ _ _ => [fn]
  | .loop _ cond body _ => [cond, body]

/-- The ids of an id space fill `0 .. counter - 1`, later nodes have larger ids, every node
    refers to smaller ids, and a constant with data is the literal that was lowered to its id. -/
structure Level (names : Names) (blobs : List Blob) (st : State) : Prop where
  fill : (st.entries.map Prod.fst).Perm (List.range st.counter)
  order : st.nodes.Pairwise fun later earlier =>
    ∀ i ∈ later.definedIds, ∀ j ∈ earlier.definedIds, j < i
  reads : ∀ n ∈ st.nodes, ∀ r ∈ n.inputs, ∀ d ∈ n.definedIds, r < d
  data : ∀ c ∈ st.constants, ∀ i, c.body = .data i → ∃ t literal,
    names.table t.ref = .tensor t literal ∧ st.ids t.ref = some c.id ∧ (c.shape, c.dtype) = t.spec ∧
      blobs[i]? = some literal.binary ∧ literal.binary.length = c.shape.prod * c.dtype.itemsize

/-- A sub-graph at any depth, lowered from `roots` in an id space of its own. -/
inductive Sound (blobs : List Blob) : List Expr → SubGraph → Prop where
  | mk {names roots before n ids st} (rootsOf : SubGraph → List Expr) :
      roots ≠ [] → (∀ e ∈ roots, WellTyped names none e) →
      ListRun roots (.start before n) ids st → Level names blobs st →
      (∀ o ∈ outputSpecs roots ids, (o.node, (o.shape, o.dtype)) ∈ st.entries) →
      (∀ node ∈ st.nodes, ∀ sub ∈ nodeSubs node, Sound blobs (rootsOf sub) sub) →
      Sound blobs roots (st.graph (outputSpecs roots ids))

structure Inv (names : Names) (blobs : List Blob) (bound : Option (List Spec)) (st : State) : Prop
    extends Level names blobs st where
  count : st.blobCount = st.blobs.length
  defines : ∀ n ∈ st.nodes, n.definedIds ≠ []
  ranks : ∀ x ∈ st.entries, x.2.1.length ≤ Validate.maxRank
  known : ∀ ref id, st.ids ref = some id → (id, (names.table ref).spec) ∈ st.entries
  tuples : ∀ ref ids, st.tuples ref = some ids →
    List.Forall₂ st.Entry ids (names.table ref).specs
  scope : match bound with
    | none => st.paramBind = none
    | some specs => ∃ ids, st.paramBind = some ids ∧
        List.Forall₂ st.Entry ids specs
  index : ∀ i ∈ st.inputs, ∃ t, names.table t.ref = .parameter t i.index ∧
    names.position i.index = t.ref ∧ st.ids t.ref = some i.id
  subs : ∀ node ∈ st.nodes, ∀ sub ∈ nodeSubs node, ∃ roots, Sound blobs roots sub

theorem nodeEntries_ids (n : Node) : (nodeEntries n).map Prod.fst = n.definedIds := by
  cases n <;> simp [nodeEntries, Node.definedIds]

theorem entries_mono {st st' : State} (grows : Grows st st') {x : Nat × Spec}
    (mem : x ∈ st.entries) : x ∈ st'.entries := by
  simp only [State.entries, Lowering.entries, List.mem_append, List.mem_map, List.mem_flatMap] at mem ⊢
  rcases mem with (⟨i, there, rfl⟩ | ⟨c, there, rfl⟩) | ⟨n, there, inside⟩
  · exact .inl (.inl ⟨i, grows.inputs.subset there, rfl⟩)
  · exact .inl (.inr ⟨c, grows.constants.subset there, rfl⟩)
  · exact .inr ⟨n, grows.nodes.subset there, inside⟩

namespace Level
variable {names : Names} {blobs : List Blob} {st : State}

theorem below (level : Level names blobs st) {id : Nat} {spec : Spec}
    (mem : (id, spec) ∈ st.entries) : id < st.counter :=
  List.mem_range.mp (level.fill.subset (List.mem_map_of_mem (f := Prod.fst) mem))

theorem defined_below (level : Level names blobs st) {n : Node} (mem : n ∈ st.nodes) {id : Nat}
    (defined : id ∈ n.definedIds) : id < st.counter := by
  rw [← nodeEntries_ids] at defined
  obtain ⟨x, inside, rfl⟩ := List.mem_map.mp defined
  exact level.below (List.mem_append_right _ (List.mem_flatMap.mpr ⟨n, mem, inside⟩))

end Level

theorem entries_addConstant (st : State) (t : Tag) (body : ConstBody) :
    (st.addConstant t body).entries.Perm ([(st.counter, t.spec)] ++ st.entries) := by
  simp only [State.entries, Lowering.entries, State.addConstant, State.alloc, State.put, List.map_cons,
    List.append_assoc]
  exact List.perm_middle

/-- A state with one node more, which defines the next `k` ids. -/
def State.emit (st : State) (k : Nat) (n : Node) : State :=
  { st with counter := st.counter + k, nodes := n :: st.nodes }

theorem entries_emit (st : State) (k : Nat) (n : Node) :
    (st.emit k n).entries.Perm (nodeEntries n ++ st.entries) := by
  simp only [State.entries, Lowering.entries, State.emit, List.flatMap_cons]
  rw [← List.append_assoc, ← List.append_assoc]
  exact List.Perm.append_right _ List.perm_append_comm

def Expr.isSource : Expr → Bool
  | .parameter _ _ | .tensor _ _ => true
  | _ => false

namespace Inv
variable {names : Names} {blobs : List Blob} {bound : Option (List Spec)} {st : State}

theorem put (inv : Inv names blobs bound st) {ref : Ref} {id : Nat}
    (entry : (id, (names.table ref).spec) ∈ st.entries)
    (free : st.ids ref = none ∨ (names.table ref).isSource = false) :
    Inv names blobs bound (st.put ref id) := by
  have kept {ref' : Ref} {id' : Nat} (source : (names.table ref').isSource = true)
      (known : st.ids ref' = some id') : (st.put ref id).ids ref' = some id' := by
    refine (Function.update_of_ne ?_ _ _).trans known
    rintro rfl
    rcases free with free | free
    · rw [free] at known
      cases known
    · rw [free] at source
      cases source
  exact { inv with
    data := by
      intro c mem i body
      obtain ⟨t, literal, found, known, rest⟩ := inv.data c mem i body
      exact ⟨t, literal, found, kept (by rw [found]; rfl) known, rest⟩
    index := by
      intro i mem
      obtain ⟨t, found, position, known⟩ := inv.index i mem
      exact ⟨t, found, position, kept (by rw [found]; rfl) known⟩
    known := by
      intro ref' id' known
      by_cases same : ref' = ref
      · subst same
        have eq : id' = id := by simpa [State.put] using known.symm
        exact eq ▸ entry
      · exact inv.known ref' id' (by simpa [State.put, Function.update_of_ne same] using known) }

theorem putTuple (inv : Inv names blobs bound st) {ref : Ref} {ids : List Nat}
    (entry : List.Forall₂ st.Entry ids (names.table ref).specs) :
    Inv names blobs bound (st.putTuple ref ids) :=
  { inv with
    tuples := by
      intro ref' ids' known
      by_cases same : ref' = ref
      · subst same
        have eq : ids' = ids := by simpa [State.putTuple] using known.symm
        exact eq ▸ entry
      · exact inv.tuples ref' ids' (by simpa [State.putTuple, Function.update_of_ne same] using known) }

theorem enter (inv : Inv names blobs bound st) {ids : List Nat} {specs : List Spec}
    (entry : List.Forall₂ st.Entry ids specs) :
    Inv names blobs (some specs) (st.bind (some ids)) :=
  { inv with scope := ⟨ids, rfl, entry⟩ }

theorem scope_grows (inv : Inv names blobs bound st) {st' : State} (grows : Grows st st') :
    match (motive := Option (List Spec) → Prop) bound with
    | none => st'.paramBind = none
    | some specs => ∃ ids, st'.paramBind = some ids ∧
        List.Forall₂ st'.Entry ids specs := by
  have scope := inv.scope
  cases bound with
  | none => exact grows.paramBind.trans scope
  | some specs =>
    obtain ⟨ids, same, entry⟩ := scope
    exact ⟨ids, grows.paramBind.trans same, entry.imp fun _ _ mem => entries_mono grows mem⟩

theorem leave {before : State} {specs : Option (List Spec)} {ids : Option (List Nat)}
    (inv : Inv names blobs bound before) (after : Inv names blobs specs st)
    (grows : Grows (before.bind ids) st) : Inv names blobs bound (st.bind before.paramBind) :=
  { after with scope := inv.scope_grows (.bind grows) }

theorem emit (inv : Inv names blobs bound st) {k : Nat} {n : Node}
    (ids : n.definedIds = nextIds st.counter k) (some : k ≠ 0) (reads : ∀ r ∈ n.inputs, r < st.counter)
    (ranks : ∀ x ∈ nodeEntries n, x.2.1.length ≤ Validate.maxRank)
    (subs : ∀ sub ∈ nodeSubs n, ∃ roots, Sound blobs roots sub) :
    Inv names blobs bound (st.emit k n) := by
  have grows : Grows st (st.emit k n) :=
    { Grows.refl st with
      nodes := List.suffix_cons ..
      counter := Nat.le_add_right _ _
      fill := fun fill => filled_emit fill rfl rfl rfl rfl ids }
  have low {d : Nat} (mem : d ∈ n.definedIds) : st.counter ≤ d := by
    rw [ids] at mem
    exact (mem_nextIds.mp mem).1
  exact { inv with
    fill := by
      refine ((entries_emit st k n).map Prod.fst).trans ?_
      rw [List.map_append, nodeEntries_ids]
      exact fill_next inv.fill (ids ▸ List.Perm.refl _)
    order := List.pairwise_cons.mpr ⟨fun m mem i new j old =>
      Nat.lt_of_lt_of_le (inv.defined_below mem old) (low new), inv.order⟩
    reads := by
      intro m mem r read d defined
      rcases List.mem_cons.mp mem with rfl | mem
      · exact Nat.lt_of_lt_of_le (reads r read) (low defined)
      · exact inv.reads m mem r read d defined
    defines := by
      intro m mem
      rcases List.mem_cons.mp mem with rfl | mem
      · rw [ids, ne_eq, nextIds, List.map_eq_nil_iff, List.range_eq_nil]
        exact some
      · exact inv.defines m mem
    ranks := by
      intro x mem
      rcases List.mem_append.mp ((entries_emit st k n).subset mem) with new | old
      · exact ranks x new
      · exact inv.ranks x old
    known := fun ref id known => entries_mono grows (inv.known ref id known)
    tuples := fun ref ids known => (inv.tuples ref ids known).imp fun _ _ mem => entries_mono grows mem
    scope := inv.scope_grows grows
    subs := by
      intro m mem
      rcases List.mem_cons.mp mem with rfl | mem
      · exact subs
      · exact inv.subs m mem }

theorem emitted {k : Nat} {n : Node} {x : Nat × Spec} (mem : x ∈ nodeEntries n) :
    x ∈ (st.emit k n).entries :=
  (entries_emit st k n).symm.subset (List.mem_append_left _ mem)

theorem addInput (inv : Inv names blobs bound st) {t : Tag} {pos : Nat} (new : st.ids t.ref = none)
    (table : names.table t.ref = .parameter t pos) (position : names.position pos = t.ref)
    (rank : t.shape.length ≤ Validate.maxRank) : Inv names blobs bound (st.addInput t pos) := by
  have grows := Grows.addInput st t pos
  have kept {ref : Ref} {id : Nat} (known : st.ids ref = some id) :
      (st.addInput t pos).ids ref = some id := by
    refine (Function.update_of_ne ?_ _ _).trans known
    rintro rfl
    rw [new] at known
    cases known
  exact { inv with
    fill := @fill_next _ [st.counter] _ 1 inv.fill (by simp [nextIds])
    data := by
      intro c mem i body
      obtain ⟨t', literal, found, known, rest⟩ := inv.data c mem i body
      exact ⟨t', literal, found, kept known, rest⟩
    ranks := by
      intro x mem
      rcases List.mem_cons.mp mem with rfl | mem
      · exact rank
      · exact inv.ranks x mem
    known := by
      intro ref id known
      by_cases same : ref = t.ref
      · subst same
        have eq : id = st.counter := by simpa [State.addInput, State.alloc, State.put] using known.symm
        rw [eq, table]
        exact List.mem_cons_self ..
      · refine entries_mono grows (inv.known ref id ?_)
        simpa [State.addInput, State.alloc, State.put, Function.update_of_ne same] using known
    tuples := fun ref ids known => (inv.tuples ref ids known).imp fun _ _ mem => entries_mono grows mem
    scope := inv.scope_grows grows
    index := by
      intro i mem
      rcases List.mem_cons.mp mem with rfl | mem
      · exact ⟨t, table, position, by simp [State.addInput, State.alloc, State.put]⟩
      · obtain ⟨t', found, position, known⟩ := inv.index i mem
        exact ⟨t', found, position, kept known⟩ }

theorem addConstant (inv : Inv names blobs bound st) {t : Tag} {body : ConstBody}
    (new : st.ids t.ref = none) (spec : (names.table t.ref).spec = t.spec)
    (rank : t.shape.length ≤ Validate.maxRank)
    (data : ∀ i, body = .data i → ∃ literal, names.table t.ref = .tensor t literal ∧
      blobs[i]? = some literal.binary ∧
      literal.binary.length = t.shape.prod * t.dtype.itemsize) :
    Inv names blobs bound (st.addConstant t body) := by
  have grows := Grows.addConstant st t body
  have added := entries_addConstant st t body
  have here : (st.addConstant t body).ids t.ref = some st.counter := by
    simp [State.addConstant, State.alloc, State.put]
  have kept {ref : Ref} {id : Nat} (known : st.ids ref = some id) :
      (st.addConstant t body).ids ref = some id := by
    refine (Function.update_of_ne ?_ _ _).trans known
    rintro rfl
    rw [new] at known
    cases known
  exact { inv with
    fill := by
      refine (added.map Prod.fst).trans ?_
      exact @fill_next _ [st.counter] _ 1 inv.fill (by simp [nextIds])
    data := by
      intro c mem i is_data
      rcases List.mem_cons.mp mem with rfl | mem
      · obtain ⟨literal, table, found, size⟩ := data i is_data
        exact ⟨t, literal, table, here, rfl, found, size⟩
      · obtain ⟨t', literal, found, known, rest⟩ := inv.data c mem i is_data
        exact ⟨t', literal, found, kept known, rest⟩
    ranks := by
      intro x mem
      rcases List.mem_append.mp (added.subset mem) with new | old
      · exact List.mem_singleton.mp new ▸ rank
      · exact inv.ranks x old
    known := by
      intro ref id known
      by_cases same : ref = t.ref
      · subst same
        have eq : id = st.counter := Option.some.inj (known.symm.trans here)
        rw [eq, spec]
        exact added.symm.subset (List.mem_append_left _ (List.mem_singleton.mpr rfl))
      · refine entries_mono grows (inv.known ref id ?_)
        simpa [State.addConstant, State.alloc, State.put, Function.update_of_ne same] using known
    tuples := fun ref ids known => (inv.tuples ref ids known).imp fun _ _ mem => entries_mono grows mem
    scope := inv.scope_grows grows
    index := by
      intro i mem
      obtain ⟨t', found, position, known⟩ := inv.index i mem
      exact ⟨t', found, position, kept known⟩ }

theorem addBlob (inv : Inv names blobs bound st) (blob : Blob) :
    Inv names blobs bound (st.addBlob blob) :=
  { inv with count := congrArg Nat.succ inv.count }

theorem start {before : List Blob} {n : Nat} (count : n = before.length) :
    Inv names blobs none (.start before n) where
  fill := List.Perm.refl _
  order := List.Pairwise.nil
  reads _ mem := nomatch mem
  defines _ mem := nomatch mem
  data _ mem := nomatch mem
  count := count
  ranks _ mem := nomatch mem
  known _ _ known := nomatch known
  tuples _ _ known := nomatch known
  scope := rfl
  index _ mem := nomatch mem
  subs _ mem := nomatch mem

theorem adopt (inv : Inv names blobs bound st) {sub : State}
    (count : sub.blobCount = sub.blobs.length) :
    Inv names blobs bound (st.adopt sub) :=
  { inv with count := count }

theorem addNode (inv : Inv names blobs bound st) {t : Tag} {op : NodeOp} {ids : List Nat}
    (free : (names.table t.ref).isSource = false) (spec : (names.table t.ref).spec = t.spec)
    (rank : t.shape.length ≤ Validate.maxRank) (reads : ∀ r ∈ ids, r < st.counter) :
    Inv names blobs bound (st.addNode t op ids).2 ∧
      (st.counter, t.spec) ∈ (st.addNode t op ids).2.entries := by
  have after : Inv names blobs bound (st.emit 1 (.op st.counter op ids t.shape t.dtype)) :=
    inv.emit (by simp [Node.definedIds, nextIds]) Nat.one_ne_zero reads
      (fun x mem => List.mem_singleton.mp mem ▸ rank) (fun sub mem => nomatch mem)
  have entry : (st.counter, t.spec) ∈ (st.emit 1 (.op st.counter op ids t.shape t.dtype)).entries :=
    emitted (List.mem_singleton.mpr rfl)
  exact ⟨after.put (spec ▸ entry) (.inr free), entry⟩

theorem addRawNode (inv : Inv names blobs bound st) {op : NodeOp} {ids shape : List Nat}
    {dtype : Dtype} (rank : shape.length ≤ Validate.maxRank) (reads : ∀ r ∈ ids, r < st.counter) :
    Inv names blobs bound (st.addRawNode op ids shape dtype).2 ∧
      (st.counter, (shape, dtype)) ∈ (st.addRawNode op ids shape dtype).2.entries :=
  ⟨inv.emit (k := 1) (n := .op st.counter op ids shape dtype)
    (by simp [Node.definedIds, nextIds]) Nat.one_ne_zero reads
    (fun x mem => List.mem_singleton.mp mem ▸ rank) (fun sub mem => nomatch mem),
    emitted (k := 1) (n := .op st.counter op ids shape dtype) (List.mem_singleton.mpr rfl)⟩

theorem addFold (inv : Inv names blobs bound st) {t : Tag} {op : FoldOp} {fn : SubGraph}
    {ids : List Nat} (free : (names.table t.ref).isSource = false)
    (spec : (names.table t.ref).spec = t.spec) (rank : t.shape.length ≤ Validate.maxRank)
    (reads : ∀ r ∈ ids, r < st.counter)
    (sound : ∃ roots, Sound blobs roots fn) :
    Inv names blobs bound (st.addFold t op fn ids).2 ∧
      (st.counter, t.spec) ∈ (st.addFold t op fn ids).2.entries := by
  have after : Inv names blobs bound (st.emit 1 (.fold st.counter op fn ids t.shape t.dtype)) :=
    inv.emit (by simp [Node.definedIds, nextIds]) Nat.one_ne_zero reads
      (fun x mem => List.mem_singleton.mp mem ▸ rank) (fun sub mem => List.mem_singleton.mp mem ▸ sound)
  have entry : (st.counter, t.spec) ∈
      (st.emit 1 (.fold st.counter op fn ids t.shape t.dtype)).entries :=
    emitted (List.mem_singleton.mpr rfl)
  exact ⟨after.put (spec ▸ entry) (.inr free), entry⟩

theorem whileOutputs_entries (c : Nat) (exprs : List Expr) :
    List.Forall₂ (fun id spec => (id, spec) ∈ (whileOutputs c exprs).map fun o =>
    (o.id, (o.shape, o.dtype)))
      ((whileOutputs c exprs).map (·.id)) (exprs.map Expr.spec) := by
  induction exprs generalizing c with
  | nil => exact .nil
  | cons e rest ih =>
    refine .cons (List.mem_cons_self ..) ((ih (c + 1)).imp fun _ _ mem => List.mem_cons_of_mem _ mem)

theorem whileOutputs_specs (c : Nat) (exprs : List Expr) :
    (whileOutputs c exprs).map (fun o => (o.shape, o.dtype)) = exprs.map Expr.spec := by
  induction exprs generalizing c with
  | nil => rfl
  | cons e rest ih => exact congrArg (e.spec :: ·) (ih (c + 1))

theorem addLoop (inv : Inv names blobs bound st) {ids : List Nat} {cond body : SubGraph}
    {exprs : List Expr} (some : exprs ≠ []) (reads : ∀ r ∈ ids, r < st.counter)
    (ranks : ∀ e ∈ exprs, e.spec.1.length ≤ Validate.maxRank)
    (sound : (∃ roots, Sound blobs roots cond) ∧ ∃ roots, Sound blobs roots body) :
    Inv names blobs bound (st.addLoop ids cond body exprs) ∧
      List.Forall₂ (st.addLoop ids cond body exprs).Entry
        ((whileOutputs st.counter exprs).map (·.id)) (exprs.map Expr.spec) := by
  constructor
  · refine inv.emit (whileOutputs_ids st.counter exprs)
      (List.length_eq_zero_iff.not.mpr some) reads ?_ ?_
    · intro x mem
      have spec : x.2 ∈ exprs.map Expr.spec := by
        rw [← whileOutputs_specs st.counter exprs]
        obtain ⟨o, there, rfl⟩ := List.mem_map.mp mem
        exact List.mem_map_of_mem (f := fun o : WhileOutput => (o.shape, o.dtype)) there
      obtain ⟨e, there, same⟩ := List.mem_map.mp spec
      exact same ▸ ranks e there
    · intro sub mem
      rcases List.mem_cons.mp mem with rfl | mem
      · exact sound.1
      · exact List.mem_singleton.mp mem ▸ sound.2
  · exact (whileOutputs_entries st.counter exprs).imp fun _ _ mem => emitted mem

end Inv
theorem prefix_before {st st' : State} {blobs : List Blob} (grows : Grows st st')
    (later : st'.blobs.reverse <+: blobs) : st.blobs.reverse <+: blobs :=
  (List.reverse_prefix.mpr grows.blobs).trans later

theorem Run.not_tuple {e : Expr} {st st' : State} {id : Nat} (run : Run e st id st') :
    e.isTuple = false := by
  cases run with
  | hit kind _ => exact kind
  | plain _ plan _ => cases e <;> first | rfl | cases plan
  | fold _ fold _ _ => cases e <;> first | rfl | cases fold
  | _ => rfl

theorem plan_source {e : Expr} {args : List Expr} {op : NodeOp} (plan : e.plan = some (args, op)) :
    e.isSource = false := by
  cases e <;> first | rfl | cases plan

theorem fold_source {e a acc body : Expr} {op : FoldOp} (fold : e.fold = some (a, acc, op, body)) :
    e.isSource = false := by
  cases e <;> first | rfl | cases fold

theorem forall₂_at {R : Nat → Spec → Prop} {ids : List Nat} {specs : List Spec} {k id : Nat}
    (all : List.Forall₂ R ids specs) (found : ids[k]? = some id) :
    ∃ spec, specs[k]? = some spec ∧ R id spec := by
  induction all generalizing k with
  | nil => cases found
  | cons here _ ih =>
    cases k with
    | zero =>
      simp only [List.getElem?_cons_zero, Option.some.injEq] at found
      exact ⟨_, rfl, found ▸ here⟩
    | succ k => exact ih (by simpa using found)

theorem declares_block {names : Names} {bound : Option (List Spec)} {t : Tag} {inputs : List Expr}
    {default : Expr} (kind : default.isTuple = false)
    (declared : Declares names bound (.block t inputs default)) : t.spec = default.spec := by
  cases default with
  | tuple es => cases kind
  | _ => exact declared

namespace Inv
variable {names : Names} {blobs : List Blob} {bound : Option (List Spec)} {st : State}

theorem scope_at (inv : Inv names blobs bound st) {pos id : Nat} (found : st.bound pos = some id) :
    ∃ spec, bound.bind (·[pos]?) = some spec ∧ st.Entry id spec := by
  have scope := inv.scope
  cases bound with
  | none =>
    dsimp only at scope
    simp [State.bound, scope] at found
  | some specs =>
    obtain ⟨ids, same, entry⟩ := scope
    simp only [State.bound, same, Option.bind_some] at found
    exact forall₂_at entry found

theorem scope_none (inv : Inv names blobs bound st) {pos : Nat} (missing : st.bound pos = none) :
    bound.bind (·[pos]?) = none := by
  have scope := inv.scope
  cases bound with
  | none => rfl
  | some specs =>
    obtain ⟨ids, same, entry⟩ := scope
    simp only [State.bound, same, Option.bind_some, List.getElem?_eq_none_iff] at missing
    simpa [← entry.length_eq] using missing

theorem selectChain {t : Tag} {i : Nat} (rank : t.shape.length ≤ Validate.maxRank) :
    ∀ {clauses : List (Nat × List Nat)} {elseId : Nat} {st st' : State} {id : Nat},
    Lowering.selectChain t i clauses elseId st = .ok (id, st') → Inv names blobs bound st →
    (∀ c ∈ clauses, c.1 < st.counter ∧ ∀ r ∈ c.2, r < st.counter) → st.Entry elseId t.spec →
    Inv names blobs bound st' ∧ st'.Entry id t.spec
  | [], elseId, st, st', id, h, inv, _, entry => by
    cases h
    exact ⟨inv, entry⟩
  | (predId, exprIds) :: rest, elseId, st, st', id, h, inv, small, entry => by
    simp only [Lowering.selectChain, bind_ok, Prod.exists] at h
    obtain ⟨mid, st₁, first, h⟩ := h
    have grows := selectChain_grows first
    obtain ⟨inv₁, entry₁⟩ := selectChain rank first inv
      (fun c mem => small c (List.mem_cons_of_mem _ mem)) entry
    split at h
    · cases h
    · rename_i exprId found
      cases h
      obtain ⟨pred, exprs⟩ := small _ (List.mem_cons_self ..)
      refine inv₁.addRawNode rank ?_
      intro r mem
      rcases List.mem_cons.mp mem with rfl | mem
      · exact Nat.lt_of_lt_of_le pred grows.counter
      · rcases List.mem_cons.mp mem with rfl | mem
        · exact Nat.lt_of_lt_of_le (exprs _ (List.mem_of_getElem? found)) grows.counter
        · exact List.mem_singleton.mp mem ▸ inv₁.below entry₁

theorem selectChains {clauses : List (Nat × List Nat)} : ∀ {i : Nat} {elems : List (Expr × Nat)}
    {st st' : State} {ids : List Nat},
    Lowering.selectChains clauses i elems st = .ok (ids, st') → Inv names blobs bound st →
    (∀ c ∈ clauses, c.1 < st.counter ∧ ∀ r ∈ c.2, r < st.counter) →
    (∀ x ∈ elems, x.1.spec.1.length ≤ Validate.maxRank ∧ st.Entry x.2 x.1.spec) →
    Inv names blobs bound st' ∧ List.Forall₂ st'.Entry ids (elems.map (·.1.spec))
  | _, [], st, st', ids, h, inv, _, _ => by
    cases h
    exact ⟨inv, .nil⟩
  | i, (e, defaultId) :: rest, st, st', ids, h, inv, small, entries => by
    simp only [Lowering.selectChains, bind_ok, Prod.exists, Except.ok.injEq, Prod.mk.injEq] at h
    obtain ⟨id, st₁, first, restIds, st₂, second, rfl, rfl⟩ := h
    have grows := selectChain_grows first
    obtain ⟨rank, entry⟩ := entries _ (List.mem_cons_self ..)
    obtain ⟨inv₁, entry₁⟩ := selectChain rank first inv small entry
    obtain ⟨inv₂, entries₂⟩ := selectChains second inv₁
      (fun c mem => ⟨Nat.lt_of_lt_of_le (small c mem).1 grows.counter,
        fun r read => Nat.lt_of_lt_of_le ((small c mem).2 r read) grows.counter⟩)
      (fun x mem => ⟨(entries x (List.mem_cons_of_mem _ mem)).1,
        entries_mono grows (entries x (List.mem_cons_of_mem _ mem)).2⟩)
    exact ⟨inv₂, .cons (entries_mono (selectChains_grows second) entry₁) entries₂⟩

end Inv

theorem operand_clause {names : Names} {bound : Option (List Spec)} {t : Tag}
    {clauses : List (Expr × Expr)} {default : Expr}
    (typed : WellTyped names bound (.cond t clauses default)) :
    WellTyped names bound default ∧
      ∀ c ∈ clauses, WellTyped names bound c.1 ∧ WellTyped names bound c.2 := by
  have inside {x : Expr} (c : Expr × Expr) (mem : c ∈ clauses) (side : x = c.1 ∨ x = c.2) :
      WellTyped names bound x := by
    refine typed.operand (c := (bound, x)) (List.mem_cons_of_mem _ (List.mem_flatMap.mpr ⟨c, mem, ?_⟩))
    rcases side with rfl | rfl <;> simp
  exact ⟨typed.operand (List.mem_cons_self ..),
    fun c mem => ⟨inside c mem (.inl rfl), inside c mem (.inr rfl)⟩⟩

variable {blobs : List Blob}

theorem newest_blob {blob : Blob} {before : List Blob} (fits : (blob :: before).reverse <+: blobs) :
    blobs[before.length]? = some blob := by
  obtain ⟨rest, rfl⟩ := fits
  simp

theorem sound_choice {nodes : List Node}
    (subs : ∀ node ∈ nodes, ∀ sub ∈ nodeSubs node, ∃ roots, Sound blobs roots sub) :
    ∃ rootsOf : SubGraph → List Expr,
      ∀ node ∈ nodes, ∀ sub ∈ nodeSubs node, Sound blobs (rootsOf sub) sub := by
  have each (sub : SubGraph) : ∃ roots, (∃ node ∈ nodes, sub ∈ nodeSubs node) →
      Sound blobs roots sub := by
    by_cases there : ∃ node ∈ nodes, sub ∈ nodeSubs node
    · obtain ⟨node, mem, inside⟩ := there
      obtain ⟨roots, sound⟩ := subs node mem sub inside
      exact ⟨roots, fun _ => sound⟩
    · exact ⟨[], fun some => absurd some there⟩
  choose rootsOf sound using each
  exact ⟨rootsOf, fun node mem sub inside => sound sub ⟨node, mem, inside⟩⟩

theorem outputs_entries {st : State} {roots : List Expr} {ids : List Nat}
    (entries : List.Forall₂ st.Entry ids (roots.map Expr.spec)) :
    ∀ o ∈ outputSpecs roots ids, st.Entry o.node (o.shape, o.dtype) := by
  induction roots generalizing ids with
  | nil => intro o mem; simp [outputSpecs] at mem
  | cons e rest ih =>
    cases entries with
    | cons here tail =>
      intro o mem
      rcases List.mem_cons.mp mem with rfl | mem
      · exact here
      · exact ih tail o mem

theorem entries_below {names : Names} {st : State} {ids : List Nat} {specs : List Spec}
    (level : Level names blobs st) (entries : List.Forall₂ st.Entry ids specs) :
    ∀ r ∈ ids, r < st.counter := by
  induction entries with
  | nil => intro r mem; cases mem
  | cons here _ ih =>
    intro r mem
    rcases List.mem_cons.mp mem with rfl | mem
    · exact level.below here
    · exact ih r mem

theorem zip_entries {st : State} {es : List Expr} {ids : List Nat}
    (entries : List.Forall₂ st.Entry ids (es.map Expr.spec))
    (ranks : ∀ e ∈ es, e.spec.1.length ≤ Validate.maxRank) :
    ∀ x ∈ es.zip ids, x.1.spec.1.length ≤ Validate.maxRank ∧ st.Entry x.2 x.1.spec := by
  induction es generalizing ids with
  | nil => intro x mem; cases mem
  | cons e rest ih =>
    cases entries with
    | cons here tail =>
      intro x mem
      rcases List.mem_cons.mp mem with rfl | mem
      · exact ⟨ranks _ (List.mem_cons_self ..), here⟩
      · exact ih tail (fun e mem => ranks e (List.mem_cons_of_mem _ mem)) x mem

theorem zip_specs {st : State} {es : List Expr} {ids : List Nat}
    (entries : List.Forall₂ st.Entry ids (es.map Expr.spec)) :
    (es.zip ids).map (·.1.spec) = es.map Expr.spec := by
  have len : es.length ≤ ids.length := by
    rw [entries.length_eq, List.length_map]
  calc (es.zip ids).map (·.1.spec) = ((es.zip ids).map Prod.fst).map Expr.spec := by
        rw [List.map_map]; rfl
    _ = es.map Expr.spec := by rw [List.map_fst_zip len]

mutual
theorem Run.inv : ∀ {e : Expr} {st st' : State} {id : Nat}, Run e st id st' →
    ∀ {names : Names} {bound : Option (List Spec)}, WellTyped names bound e →
    Inv names blobs bound st → st'.blobs.reverse <+: blobs →
    Inv names blobs bound st' ∧ st'.Entry id e.spec
  | _, _, _, _, .hit kind known, _, _, typed, inv, _ =>
    ⟨inv, typed.table kind ▸ inv.known _ _ known⟩
  | _, _, _, _, .bound new found, _, _, typed, inv, _ => by
    obtain ⟨spec, at_pos, entry⟩ := inv.scope_at found
    have declared := typed.declares
    simp only [Declares, at_pos] at declared
    have entry := declared ▸ entry
    exact ⟨inv.put (typed.table rfl ▸ entry) (.inl new), entry⟩
  | _, _, _, _, .input new missing, _, _, typed, inv, _ => by
    have declared := typed.declares
    simp only [Declares, inv.scope_none missing] at declared
    exact ⟨inv.addInput new (typed.table rfl) declared typed.rank, List.mem_cons_self ..⟩
  | _, _, _, _, .constant new, _, _, typed, inv, _ => by
    refine ⟨inv.addConstant new (congrArg Expr.spec (typed.table rfl)) typed.rank
      (fun i same => nomatch same), ?_⟩
    exact (entries_addConstant ..).symm.subset
      (List.mem_append_left _ (List.mem_singleton.mpr rfl))
  | .tensor t literal, st, _, _, .tensor new, _, _, typed, inv, fits => by
    refine ⟨Inv.addBlob (inv.addConstant new (congrArg Expr.spec (typed.table rfl)) typed.rank ?_)
      _, ?_⟩
    · intro i same
      cases same
      exact ⟨literal, typed.table rfl, inv.count ▸ newest_blob fits, typed.declares⟩
    · exact (entries_addConstant ..).symm.subset
        (List.mem_append_left _ (List.mem_singleton.mpr rfl))
  | _, _, _, _, .metadata new inner, _, _, typed, inv, fits => by
    obtain ⟨inv, entry⟩ := inner.inv (typed.operand (List.mem_singleton.mpr rfl)) inv fits
    have entry := (typed.declares inner.not_tuple).symm ▸ entry
    exact ⟨inv.put (typed.table rfl ▸ entry) (.inr (typed.table rfl ▸ rfl)), entry⟩
  | _, _, _, _, .elem new src at_k, _, _, typed, inv, fits => by
    obtain ⟨inv, entries⟩ := src.inv (typed.operand (List.mem_singleton.mpr rfl)) inv fits
    obtain ⟨spec, found, entry⟩ := forall₂_at entries at_k
    have same : spec = _ := Option.some.inj (found.symm.trans typed.declares)
    have entry := same ▸ entry
    exact ⟨inv.put (typed.table rfl ▸ entry) (.inr (typed.table rfl ▸ rfl)), entry⟩
  | .block t inputs default, _, _, _, .block new kind ins out, names, bound, typed, inv, fits => by
    have ins_typed : ∀ e ∈ inputs, WellTyped names bound e := fun e mem =>
      typed.operand (List.mem_cons_of_mem _ (List.mem_map_of_mem mem))
    have out_typed : WellTyped names (some (inputs.map Expr.spec)) default :=
      typed.operand (List.mem_cons_self ..)
    obtain ⟨inv₁, entries⟩ := ins.inv ins_typed inv (prefix_before (Grows.bind out.grows) fits)
    obtain ⟨inv₂, entry⟩ := out.inv out_typed (inv₁.enter entries) fits
    have entry := (declares_block kind typed.declares).symm ▸ entry
    exact ⟨(inv₁.leave inv₂ out.grows).put (typed.table rfl ▸ entry) (.inr (typed.table rfl ▸ rfl)),
      entry⟩
  | .block t inputs (.tuple outputs), _, _, _, .first new tuple, _, _, typed, inv, fits => by
    obtain ⟨inv, entries⟩ := tuple.inv typed inv fits
    cases outputs with
    | nil => cases entries
    | cons e rest =>
      cases entries with
      | cons here _ =>
        have same : t.spec = e.spec := typed.declares e rfl
        exact ⟨inv, show State.Entry _ _ t.spec from same ▸ here⟩
  | .cond t clauses default, _, _, _, .cond new out ran, names, bound, typed, inv, fits => by
    obtain ⟨default_typed, clauses_typed⟩ := operand_clause typed
    obtain ⟨inv₁, entry⟩ := out.inv default_typed inv (prefix_before ran.grows fits)
    have entry := (typed.declares out.not_tuple).symm ▸ entry
    obtain ⟨inv₂, entry⟩ := ran.inv clauses_typed typed.rank inv₁ fits entry
    exact ⟨inv₂.put (typed.table rfl ▸ entry) (.inr (typed.table rfl ▸ rfl)), entry⟩
  | e, _, _, _, .plain new plan args, _, _, typed, inv, fits => by
    obtain ⟨inv, entries⟩ := args.inv (plan_typed typed plan) inv fits
    have table := typed.table (Run.not_tuple (.plain new plan args))
    exact inv.addNode (table.symm ▸ plan_source plan) (congrArg Expr.spec table) typed.rank
      (entries_below inv.toLevel entries)
  | e, _, _, _, .fold new fold args fn, _, _, typed, inv, fits => by
    obtain ⟨args_typed, subNames, fn_typed⟩ := fold_typed typed fold
    obtain ⟨inv, entries⟩ := args.inv args_typed inv (prefix_before fn.grows fits)
    have below := entries_below inv.toLevel entries
    have table := typed.table (Run.not_tuple (.fold new fold args fn))
    obtain ⟨inv, sound⟩ := fn.inv fn_typed (by simp) inv fits
    exact inv.addFold (table.symm ▸ fold_source fold) (congrArg Expr.spec table) typed.rank
      (fun r mem => Nat.lt_of_lt_of_le (below r mem) fn.grows.counter) sound

theorem TupleRun.inv : ∀ {e : Expr} {st st' : State} {ids : List Nat}, TupleRun e st ids st' →
    ∀ {names : Names} {bound : Option (List Spec)}, WellTyped names bound e →
    Inv names blobs bound st → st'.blobs.reverse <+: blobs →
    Inv names blobs bound st' ∧ List.Forall₂ st'.Entry ids e.specs
  | _, _, _, _, .tuple es, _, _, typed, inv, fits => es.inv typed.tuple inv fits
  | _, _, _, _, .metadata inner, _, _, typed, inv, fits =>
    inner.inv (typed.operand (List.mem_singleton.mpr rfl)) inv fits
  | .block t _ (.tuple _), _, _, _, .hitBlock known, names, _, typed, inv, _ => by
    have entries := inv.tuples _ _ known
    rw [show names.table t.ref = _ from typed.table rfl] at entries
    exact ⟨inv, entries⟩
  | .loop t _ _ _, _, _, _, .hitLoop known, names, _, typed, inv, _ => by
    have entries := inv.tuples _ _ known
    rw [show names.table t.ref = _ from typed.table rfl] at entries
    exact ⟨inv, entries⟩
  | .block t inputs (.tuple outputs), _, _, _, .block new ins outs, names, bound, typed, inv, fits => by
    have ins_typed : ∀ e ∈ inputs, WellTyped names bound e := fun e mem =>
      typed.operand (List.mem_cons_of_mem _ (List.mem_map_of_mem mem))
    have outs_typed : WellTyped names (some (inputs.map Expr.spec)) (.tuple outputs) :=
      typed.operand (List.mem_cons_self ..)
    obtain ⟨inv₁, entries⟩ := ins.inv ins_typed inv (prefix_before (Grows.bind outs.grows) fits)
    obtain ⟨inv₂, entries⟩ := outs.inv outs_typed.tuple (inv₁.enter entries) fits
    refine ⟨(inv₁.leave inv₂ outs.grows).putTuple ?_, entries⟩
    rw [show names.table t.ref = _ from typed.table rfl]
    exact entries
  | .loop t init test body, _, _, _, .loop new ran cond stepped nonempty, names, bound, typed,
      inv, fits => by
    obtain ⟨subNames, subs⟩ := typed.sub
    have body_typed := subs body (List.mem_cons_of_mem _ (List.mem_singleton.mpr rfl))
    have init_typed : ∀ e ∈ init, WellTyped names bound e :=
      fun e mem => typed.operand (List.mem_map_of_mem mem)
    obtain ⟨inv₁, entries⟩ := ran.inv init_typed inv
      (prefix_before (cond.grows.trans stepped.grows) fits)
    have below := entries_below inv₁.toLevel entries
    obtain ⟨inv₂, cond_sound⟩ := cond.inv (subs [test] (List.mem_cons_self ..)) (by simp) inv₁
      (prefix_before stepped.grows fits)
    obtain ⟨inv₃, body_sound⟩ := stepped.inv body_typed nonempty inv₂ fits
    obtain ⟨inv₄, entries⟩ := inv₃.addLoop nonempty
      (fun r mem => Nat.lt_of_lt_of_le (below r mem) (cond.grows.trans stepped.grows).counter)
      (fun e mem => (body_typed e mem).rank) ⟨cond_sound, body_sound⟩
    refine ⟨inv₄.putTuple ?_, entries⟩
    rw [show names.table t.ref = _ from typed.table rfl]
    exact entries
  | .cond t clauses (.tuple elems), _, _, _, .cond out ran chains, names, bound, typed, inv, fits => by
    obtain ⟨default_typed, clauses_typed⟩ := operand_clause typed
    have chains_grows := selectChains_grows chains
    obtain ⟨inv₁, entries⟩ := out.inv default_typed.tuple inv
      (prefix_before (ran.grows.trans chains_grows) fits)
    obtain ⟨inv₂, below⟩ := ran.inv clauses_typed inv₁ (prefix_before chains_grows fits)
    have entries := entries.imp fun _ _ mem => entries_mono ran.grows mem
    obtain ⟨inv₃, entries₃⟩ := Inv.selectChains chains inv₂ below
      (zip_entries entries fun e mem => (default_typed.tuple e mem).rank)
    rw [zip_specs entries] at entries₃
    exact ⟨inv₃, entries₃⟩

theorem ListRun.inv : ∀ {es : List Expr} {st st' : State} {ids : List Nat}, ListRun es st ids st' →
    ∀ {names : Names} {bound : Option (List Spec)}, (∀ e ∈ es, WellTyped names bound e) →
    Inv names blobs bound st → st'.blobs.reverse <+: blobs →
    Inv names blobs bound st' ∧ List.Forall₂ st'.Entry ids (es.map Expr.spec)
  | _, _, _, _, .nil, _, _, _, inv, _ => ⟨inv, .nil⟩
  | _, _, _, _, .cons first rest, _, _, typed, inv, fits => by
    obtain ⟨inv, entry⟩ := first.inv (typed _ (List.mem_cons_self ..)) inv
      (prefix_before rest.grows fits)
    obtain ⟨inv, entries⟩ := rest.inv (fun e mem => typed e (List.mem_cons_of_mem _ mem)) inv fits
    exact ⟨inv, .cons (entries_mono rest.grows entry) entries⟩

theorem SubRun.inv : ∀ {roots : List Expr} {st st' : State} {sub : SubGraph},
    SubRun roots st sub st' → ∀ {names subNames : Names} {bound : Option (List Spec)},
    (∀ e ∈ roots, WellTyped subNames none e) → roots ≠ [] → Inv names blobs bound st →
    st'.blobs.reverse <+: blobs →
    Inv names blobs bound st' ∧ ∃ roots, Sound blobs roots sub
  | roots, _, _, _, .mk run, _, subNames, _, typed, nonempty, inv, fits => by
    obtain ⟨inner, entries⟩ := run.inv typed (Inv.start inv.count) fits
    obtain ⟨rootsOf, subs⟩ := sound_choice inner.subs
    exact ⟨inv.adopt inner.count, roots,
      .mk rootsOf nonempty typed run inner.toLevel (outputs_entries entries) subs⟩

theorem ClauseRun.inv : ∀ {t : Tag} {clauses : List (Expr × Expr)} {defaultId id : Nat}
    {st st' : State}, ClauseRun t clauses defaultId st id st' →
    ∀ {names : Names} {bound : Option (List Spec)},
    (∀ c ∈ clauses, WellTyped names bound c.1 ∧ WellTyped names bound c.2) →
    t.shape.length ≤ Validate.maxRank → Inv names blobs bound st → st'.blobs.reverse <+: blobs →
    st.Entry defaultId t.spec → Inv names blobs bound st' ∧ st'.Entry id t.spec
  | _, _, _, _, _, _, .nil, _, _, _, _, inv, _, entry => ⟨inv, entry⟩
  | _, _, _, _, _, _, .cons rest pred expr, _, _, typed, rank, inv, fits, entry => by
    obtain ⟨pred_typed, expr_typed⟩ := typed _ (List.mem_cons_self ..)
    obtain ⟨inv₁, entry⟩ := rest.inv (fun c mem => typed c (List.mem_cons_of_mem _ mem)) rank inv
      (prefix_before (pred.grows.trans expr.grows) fits) entry
    obtain ⟨inv₂, pred_entry⟩ := pred.inv pred_typed inv₁ (prefix_before expr.grows fits)
    obtain ⟨inv₃, expr_entry⟩ := expr.inv expr_typed inv₂ fits
    refine inv₃.addRawNode rank ?_
    intro r mem
    rcases List.mem_cons.mp mem with rfl | mem
    · exact inv₃.below (entries_mono expr.grows pred_entry)
    · rcases List.mem_cons.mp mem with rfl | mem
      · exact inv₃.below expr_entry
      · exact List.mem_singleton.mp mem ▸
          inv₃.below (entries_mono (pred.grows.trans expr.grows) entry)

theorem DataRun.inv : ∀ {clauses : List (Expr × Expr)} {st st' : State}
    {data : List (Nat × List Nat)}, DataRun clauses st data st' →
    ∀ {names : Names} {bound : Option (List Spec)},
    (∀ c ∈ clauses, WellTyped names bound c.1 ∧ WellTyped names bound c.2) →
    Inv names blobs bound st → st'.blobs.reverse <+: blobs →
    Inv names blobs bound st' ∧
      ∀ c ∈ data, c.1 < st'.counter ∧ ∀ r ∈ c.2, r < st'.counter
  | _, _, _, _, .nil, _, _, _, inv, _ => ⟨inv, fun _ mem => nomatch mem⟩
  | _, _, _, _, .cons pred es rest, _, _, typed, inv, fits => by
    obtain ⟨pred_typed, es_typed⟩ := typed _ (List.mem_cons_self ..)
    obtain ⟨inv₁, pred_entry⟩ := pred.inv pred_typed inv
      (prefix_before (es.grows.trans rest.grows) fits)
    obtain ⟨inv₂, entries⟩ := es.inv es_typed.tuple inv₁ (prefix_before rest.grows fits)
    obtain ⟨inv₃, below⟩ := rest.inv (fun c mem => typed c (List.mem_cons_of_mem _ mem)) inv₂ fits
    refine ⟨inv₃, ?_⟩
    intro c mem
    rcases List.mem_cons.mp mem with rfl | mem
    · have grows := es.grows.trans rest.grows
      exact ⟨Nat.lt_of_lt_of_le (inv₁.below pred_entry) grows.counter, fun r read =>
        Nat.lt_of_lt_of_le (entries_below inv₂.toLevel entries r read) rest.grows.counter⟩
    · exact below c mem
end

end NxTinygrad.Lowering
