import NxTinygrad.Lowered

/- The worker accepts what the lowering returns. -/
namespace NxTinygrad.Lowering
open IR Validate Wire

def tableOf : List (Nat × Spec) → Table
  | [] => ⟨[], []⟩
  | x :: rest => push (tableOf rest) x.1 x.2.1 x.2.2

theorem tableOf_defined (es : List (Nat × Spec)) : (tableOf es).defined = es.map Prod.fst := by
  induction es with
  | nil => rfl
  | cons x rest ih => simp [tableOf, push, ih]

theorem tableOf_lookup {es : List (Nat × Spec)} (distinct : (es.map Prod.fst).Nodup) {id : Nat}
    {spec : Spec} (mem : (id, spec) ∈ es) :
    (tableOf es).specs.lookup id = some (spec.1, spec.2.name) := by
  induction es with
  | nil => cases mem
  | cons x rest ih =>
    simp only [List.map_cons, List.nodup_cons] at distinct
    rcases List.mem_cons.mp mem with rfl | mem
    · simp [tableOf, push]
    · have other : (id == x.1) = false := by
        refine beq_false_of_ne fun same => distinct.1 ?_
        exact List.mem_map.mpr ⟨(id, spec), mem, same⟩
      simp only [tableOf, push, List.lookup_cons, other]
      exact ih distinct.2 mem

theorem chain_splits {α : Type} {step : Table → α → Table → Prop} (after : List α → Table)
    {xs : List α} (one : ∀ front x back, xs = front ++ x :: back →
      step (after front) x (after (front ++ [x]))) : Chain step (after []) xs (after xs) := by
  suffices ∀ front back, xs = front ++ back → Chain step (after front) back (after xs) from
    this [] xs rfl
  intro front back split
  induction back generalizing front with
  | nil =>
    rw [split, List.append_nil]
    rfl
  | cons x rest ih =>
    refine ⟨_, one front x rest split, ih (front ++ [x]) ?_⟩
    rw [split, List.append_assoc, List.singleton_append]

def inputEntry (i : InputSpec) : Nat × Spec := (i.id, (i.shape, i.dtype))

def constantEntry (c : Constant) : Nat × Spec := (c.id, (c.shape, c.dtype))

def outputEntry (o : WhileOutput) : Nat × Spec := (o.id, (o.shape, o.dtype))

theorem nodeEntries_loop (reads : List Nat) (cond body : SubGraph) (outs : List WhileOutput) :
    nodeEntries (.loop reads cond body outs) = outs.map outputEntry := rfl

/-- The entities of a graph in the order `validate` meets them, the latest first. -/
def seen (inputs : List InputSpec) (constants : List Constant) (nodes : List Node) :
    List (Nat × Spec) :=
  ((inputs.map inputEntry ++ constants.map constantEntry) ++ nodes.flatMap nodeEntries).reverse

theorem seen_perm (inputs : List InputSpec) (constants : List Constant) (nodes : List Node) :
    (seen inputs.reverse constants.reverse nodes.reverse).Perm (entries inputs constants nodes) := by
  refine (List.reverse_perm _).trans ?_
  refine List.Perm.append (List.Perm.append ?_ ?_) ?_
  · exact (List.reverse_perm inputs).map inputEntry
  · exact (List.reverse_perm constants).map constantEntry
  · exact (List.reverse_perm nodes).flatMap_right nodeEntries

theorem fresh_of_distinct {es front back : List (Nat × Spec)} {x : Nat × Spec}
    (distinct : (es.map Prod.fst).Nodup) (split : es = (front ++ x :: back).reverse) :
    x.1 ∉ (tableOf front.reverse).defined := by
  rw [tableOf_defined, List.map_reverse, List.mem_reverse]
  rw [split, List.map_reverse, List.nodup_reverse, List.map_append, List.map_cons] at distinct
  exact fun mem => (List.nodup_append.mp distinct).2.2 _ mem _ (List.mem_cons_self ..) rfl

theorem node_depth {nodes : List Node} {node : Node} {sub : SubGraph} (mem : node ∈ nodes)
    (inside : sub ∈ nodeSubs node) :
    sub.toWire.depth < Json.depthItems (nodes.map (·.toWire)) := by
  have le : node.toWire.depth ≤ Json.depthItems (nodes.map (·.toWire)) :=
    Json.depth_le_items (List.mem_map_of_mem mem)
  refine Nat.lt_of_lt_of_le ?_ le
  cases node with
  | op id op reads shape dtype => cases inside
  | fold id op fn reads shape dtype =>
    rw [List.mem_singleton.mp inside]
    simp only [Node.toWire, Json.depth, Json.depthFields]
    omega
  | loop reads cond body outs =>
    simp only [nodeSubs, List.mem_cons, List.not_mem_nil, or_false] at inside
    simp only [Node.toWire, Json.depth, Json.depthFields]
    rcases inside with rfl | rfl <;> omega

theorem graph_depth {g : Graph} {node : Node} {sub : SubGraph} (mem : node ∈ g.nodes)
    (inside : sub ∈ nodeSubs node) : sub.toWire.depth ≤ g.toWire.depth := by
  have lt := node_depth mem inside
  simp only [Graph.toWire, Json.depth, Json.depthFields, nodesToWire_eq]
  omega

theorem subGraph_depth {sub inner : SubGraph} {node : Node} (mem : node ∈ sub.nodes)
    (inside : inner ∈ nodeSubs node) : inner.toWire.depth < sub.toWire.depth := by
  obtain ⟨inputs, constants, nodes, outputs⟩ := sub
  have lt := node_depth mem inside
  simp only [SubGraph.toWire, SubGraph.nodes, Json.depth, Json.depthFields, nodesToWire_eq] at lt ⊢
  omega

theorem validateSubgraph_wire {room : Nat} {sub : SubGraph} (some : sub.outputs ≠ [])
    (loops : ∀ r c b o, Node.loop r c b o ∈ sub.nodes →
      ∀ inner ∈ [c, b], validateSubgraph room inner.toWire = .ok ()) :
    validateSubgraph (room + 1) sub.toWire = .ok () := by
  obtain ⟨inputs, constants, nodes, outputs⟩ := sub
  have at_outputs : getItem (SubGraph.mk inputs constants nodes outputs).toWire "outputs" =
    .ok (.arr (outputs.map (·.toWire))) := by simp only [SubGraph.toWire]; rfl
  have at_nodes : getItem (SubGraph.mk inputs constants nodes outputs).toWire "nodes" =
    .ok (.arr (nodes.map (·.toWire))) := by simp only [SubGraph.toWire, nodesToWire_eq]; rfl
  have positive : 1 ≤ outputs.length := List.length_pos_iff.mpr some
  unfold validateSubgraph
  refine bind_eq_ok.mpr ⟨(), by simp only [SubGraph.toWire]; rfl, ?_⟩
  refine bind_eq_ok.mpr ⟨(), by simp only [SubGraph.toWire]; rfl, ?_⟩
  refine bind_eq_ok.mpr ⟨_, at_outputs, bind_eq_ok.mpr ⟨(), by simpa [Json.items?] using positive, ?_⟩⟩
  refine bind_eq_ok.mpr ⟨_, at_nodes, forEach_ok.mpr ?_⟩
  intro x there
  obtain ⟨node, mem, rfl⟩ := List.mem_map.mp there
  cases node with
  | op id op reads shape dtype =>
    have at_op : getAttr (Node.op id op reads shape dtype).toWire "op" = .ok (.str op.name) := by
      simp only [Node.toWire]; rfl
    have not_while : op.name ≠ "while" := fun same => op_plain op (by simp [same])
    simp [at_op, bind_eq_ok, isIn, op_supported, Json.str?, not_while]
  | fold id op fn reads shape dtype =>
    have at_op : getAttr (Node.fold id op fn reads shape dtype).toWire "op" =
      .ok (.str op.name) := by simp only [Node.toWire]; rfl
    have not_while : op.name ≠ "while" := by cases op <;> simp [FoldOp.name]
    have supported : op.name ∈ supportedOps := by cases op <;> simp [FoldOp.name, supportedOps]
    simp [at_op, bind_eq_ok, isIn, supported, Json.str?, not_while]
  | loop reads cond body outs =>
    have at_op : getAttr (Node.loop reads cond body outs).toWire "op" = .ok (.str "while") := by
      simp only [Node.toWire]; rfl
    have at_attrs : getItem (Node.loop reads cond body outs).toWire "attrs" =
      .ok (.obj [("cond", cond.toWire), ("body", body.toWire)]) := by simp only [Node.toWire]; rfl
    have at_cond : getAttr (.obj [("cond", cond.toWire), ("body", body.toWire)]) "cond" =
      .ok cond.toWire := rfl
    have at_body : getAttr (.obj [("cond", cond.toWire), ("body", body.toWire)]) "body" =
      .ok body.toWire := rfl
    have supported : "while" ∈ supportedOps := by decide
    have inside := loops reads cond body outs mem
    simp [at_op, at_attrs, at_cond, at_body, bind_eq_ok, isIn, supported, Json.str?,
      inside cond (by simp), inside body (by simp)]

theorem outputSpecs_ne_nil {roots : List Expr} {before st : State} {ids : List Nat}
    (run : ListRun roots before ids st) (some : roots ≠ []) : outputSpecs roots ids ≠ [] := by
  cases run with
  | nil => exact absurd rfl some
  | cons _ _ => simp [outputSpecs]

theorem Sound.accepted {blobs : List Blob} {roots : List Expr} {sub : SubGraph}
    (sound : Sound blobs roots sub) {room : Nat} (deep : sub.toWire.depth ≤ room) :
    validateSubgraph room sub.toWire = .ok () := by
  induction room generalizing roots sub with
  | zero =>
    cases sub
    simp [SubGraph.toWire, Json.depth] at deep
  | succ room ih =>
    cases sound with
    | @mk names _ before n ids st rootsOf nonempty typed run level specs subs =>
      refine validateSubgraph_wire (outputSpecs_ne_nil run nonempty) ?_
      intro r c b o mem inner which
      refine ih (subs _ (List.mem_reverse.mp mem) inner which) ?_
      exact Nat.le_of_lt_succ (Nat.lt_of_lt_of_le (subGraph_depth mem which) deep)

section
variable {names : Names} {blobs : List Blob} {st : State}

theorem seen_distinct (level : Level names blobs st) :
    ((seen st.inputs.reverse st.constants.reverse st.nodes.reverse).map Prod.fst).Nodup := by
  have same := (seen_perm st.inputs st.constants st.nodes).map Prod.fst
  exact (same.trans level.fill).nodup_iff.mpr List.nodup_range

theorem mem_seen {inputs : List InputSpec} {constants : List Constant} {nodes : List Node} {r : Nat} :
    r ∈ (tableOf (seen inputs constants nodes)).defined ↔ r ∈ inputs.map (·.id) ∨
      r ∈ constants.map (·.id) ∨ ∃ n ∈ nodes, r ∈ n.definedIds := by
  simp only [tableOf_defined, seen, List.map_reverse, List.mem_reverse, List.map_append,
    List.mem_append, List.map_map, List.map_flatMap, nodeEntries_ids, List.mem_flatMap, or_assoc]
  rfl

theorem read_earlier (inv : Inv names blobs none st) {front back : List Node} {n : Node}
    (split : st.nodes.reverse = front ++ n :: back) {r : Nat} (read : r ∈ n.inputs) :
    r ∈ (tableOf (seen st.inputs.reverse st.constants.reverse front)).defined := by
  have mem : n ∈ st.nodes :=
    List.mem_reverse.mp (split ▸ List.mem_append_right _ (List.mem_cons_self ..))
  obtain ⟨d, defined⟩ := List.exists_mem_of_ne_nil _ (inv.defines n mem)
  have less := inv.reads n mem r read d defined
  have small : r ∈ List.range st.counter :=
    List.mem_range.mpr (Nat.lt_trans less (inv.defined_below mem defined))
  have known : r ∈ (tableOf
      (seen st.inputs.reverse st.constants.reverse st.nodes.reverse)).defined := by
    rw [tableOf_defined]
    exact (((seen_perm st.inputs st.constants st.nodes).map Prod.fst).trans inv.fill).symm.subset small
  rw [mem_seen] at known ⊢
  rcases known with input | constant | ⟨m, there, source⟩
  · exact .inl input
  · exact .inr (.inl constant)
  have ordered := List.pairwise_reverse.mpr inv.order
  rw [split] at there ordered
  refine .inr (.inr ?_)
  rcases List.mem_append.mp there with before | after
  · exact ⟨m, before, source⟩
  -- `n` itself and the nodes after it define larger ids than `n` reads
  exfalso
  rcases List.mem_cons.mp after with rfl | after
  · exact Nat.lt_irrefl _ (inv.reads m mem r read r source)
  · have later := (List.pairwise_cons.mp (List.pairwise_append.mp ordered).2.1).1 m after r
      source d defined
    omega

def State.listed (st : State) : List (Nat × Spec) :=
  st.inputs.reverse.map inputEntry ++ st.constants.reverse.map constantEntry ++
    st.nodes.reverse.flatMap nodeEntries

theorem place (inv : Inv names blobs none st) {front back : List (Nat × Spec)} {x : Nat × Spec}
    (split : st.listed = front ++ x :: back) :
    x.1 ∉ (tableOf front.reverse).defined ∧ x.2.1.length ≤ maxRank ∧
      tableOf (front ++ [x]).reverse = push (tableOf front.reverse) x.1 x.2.1 x.2.2 := by
  have all : seen st.inputs.reverse st.constants.reverse st.nodes.reverse =
    (front ++ x :: back).reverse := congrArg List.reverse split
  refine ⟨fresh_of_distinct (seen_distinct inv.toLevel) all, ?_, by simp [tableOf]⟩
  refine inv.ranks x ((seen_perm st.inputs st.constants st.nodes).subset ?_)
  simp [all]

theorem inputs_chain (inv : Inv names blobs none st) :
    Chain (fun t i t' => i.id ∉ t.defined ∧ i.shape.length ≤ maxRank ∧
      t' = push t i.id i.shape i.dtype) ⟨[], []⟩ st.inputs.reverse
      (tableOf (seen st.inputs.reverse [] [])) := by
  refine chain_splits (fun front => tableOf (seen front [] [])) ?_
  intro front i back split
  have here : st.listed = front.map inputEntry ++ inputEntry i :: (back.map inputEntry ++
      st.constants.reverse.map constantEntry ++ st.nodes.reverse.flatMap nodeEntries) := by
    simp [State.listed, split]
  simpa [seen, inputEntry] using place inv here

theorem constants_chain (inv : Inv names blobs none st) (sized : ∀ c ∈ st.constants, Sized blobs c) :
    Chain (fun t c t' => c.id ∉ t.defined ∧ c.shape.length ≤ maxRank ∧ Sized blobs c ∧
      t' = push t c.id c.shape c.dtype) (tableOf (seen st.inputs.reverse [] [])) st.constants.reverse
      (tableOf (seen st.inputs.reverse st.constants.reverse [])) := by
  refine chain_splits (fun front => tableOf (seen st.inputs.reverse front [])) ?_
  intro front c back split
  have here : st.listed = (st.inputs.reverse.map inputEntry ++ front.map constantEntry) ++
      constantEntry c :: (back.map constantEntry ++ st.nodes.reverse.flatMap nodeEntries) := by
    simp [State.listed, split]
  have mem : c ∈ st.constants := List.mem_reverse.mp (by simp [split])
  obtain ⟨fresh, rank, eq⟩ := place inv here
  exact ⟨by simpa [seen, constantEntry] using fresh, rank,
    sized c mem, by simpa [seen, constantEntry] using eq⟩

theorem nodes_chain (inv : Inv names blobs none st) {room : Nat}
    (nested : ∀ node ∈ st.nodes, ∀ sub ∈ nodeSubs node, validateSubgraph room sub.toWire = .ok ()) :
    Chain (acceptNode room) (tableOf (seen st.inputs.reverse st.constants.reverse []))
      st.nodes.reverse
      (tableOf (seen st.inputs.reverse st.constants.reverse st.nodes.reverse)) := by
  refine chain_splits
    (fun front => tableOf (seen st.inputs.reverse st.constants.reverse front)) ?_
  intro front node back split
  have here : st.listed = (st.inputs.reverse.map inputEntry ++
      st.constants.reverse.map constantEntry ++ front.flatMap nodeEntries) ++
      (nodeEntries node ++ back.flatMap nodeEntries) := by
    simp [State.listed, split]
  have mem : node ∈ st.nodes := List.mem_reverse.mp (by simp [split])
  refine ⟨fun r read => read_earlier inv split read, ?_⟩
  cases node with
  | op id op reads shape dtype =>
    obtain ⟨fresh, rank, eq⟩ := place inv here
    exact ⟨by simpa [seen] using fresh, rank, by simpa [seen, nodeEntries] using eq⟩
  | fold id op fn reads shape dtype =>
    obtain ⟨fresh, rank, eq⟩ := place inv here
    exact ⟨by simpa [seen] using fresh, rank, by simpa [seen, nodeEntries] using eq,
      nested _ mem fn (List.mem_singleton.mpr rfl)⟩
  | loop reads cond body outs =>
    refine ⟨?_, ?_, nested _ mem cond (by simp [nodeSubs]), nested _ mem body (by simp [nodeSubs])⟩
    · rintro rfl
      exact inv.defines _ mem rfl
    · have chain := @chain_splits _ acceptOutput
        (fun done => tableOf ((done.map outputEntry).reverse ++
          seen st.inputs.reverse st.constants.reverse front)) outs ?_
      · simpa [seen, nodeEntries_loop] using chain
      intro done o rest outs_split
      have inside : st.listed = (st.inputs.reverse.map inputEntry ++
          st.constants.reverse.map constantEntry ++ front.flatMap nodeEntries ++
          done.map outputEntry) ++ outputEntry o ::
          (rest.map outputEntry ++ back.flatMap nodeEntries) := by
        rw [here]
        simp [nodeEntries_loop, outs_split]
      obtain ⟨fresh, rank, eq⟩ := place inv inside
      exact ⟨by simpa [seen, outputEntry] using fresh, rank, by simpa [seen, outputEntry] using eq⟩

theorem Inv.sized (inv : Inv names blobs none st) : ∀ c ∈ st.constants, Sized blobs c := by
  intro c mem
  unfold Sized
  split
  · trivial
  · rename_i index same
    obtain ⟨_, literal, _, _, _, found, size⟩ := inv.data c mem index same
    exact ⟨literal.binary, found, size⟩

theorem Inv.indices (inv : Inv names blobs none st) : (st.inputs.map (·.index)).Nodup := by
  have ids : (st.inputs.map (·.id)).Nodup := by
    have all := inv.fill.nodup_iff.mpr List.nodup_range
    simp only [State.entries, entries, List.map_append, List.map_map] at all
    exact (List.nodup_append.mp (List.nodup_append.mp all).1).1
  refine List.Nodup.map_on ?_ ids.of_map
  intro i mem j there same
  obtain ⟨t, _, at_i, known⟩ := inv.index i mem
  obtain ⟨u, _, at_j, known'⟩ := inv.index j there
  have refs : t.ref = u.ref := at_i.symm.trans (same ▸ at_j)
  have eq : i.id = j.id := Option.some.inj (known.symm.trans (refs ▸ known'))
  exact List.inj_on_of_nodup_map ids mem there eq

end

/-- The graph of some outputs is sound at every depth, and the worker accepts it. -/
theorem toGraph_accepted {names : Names} {outputs : List Expr} {g : Graph} (some : outputs ≠ [])
    (typed : ∀ e ∈ outputs, WellTyped names none e) (lowered : toGraph outputs = .ok g)
    (few : g.nodes.length ≤ maxNodes) :
    Sound g.blobs outputs (.mk g.inputs g.constants g.nodes g.outputs) ∧
      validate g.toWire g.blobs maxNodes = .ok () := by
  obtain ⟨ids, st, run, rfl⟩ := toGraph_run lowered
  obtain ⟨inv, found⟩ := run.inv typed (Inv.start rfl) (List.prefix_refl st.blobs.reverse)
  have specs := outputs_entries found
  obtain ⟨rootsOf, subs⟩ := sound_choice inv.subs
  refine ⟨.mk rootsOf some typed run inv.toLevel specs subs, validate_wire.mpr ?_⟩
  refine ⟨few, ?_, outputSpecs_ne_nil run some, _, _, _, inputs_chain inv,
    constants_chain inv inv.sized, nodes_chain inv ?_, ?_⟩
  · simpa using inv.indices
  · intro node mem sub inside
    exact (subs node mem sub inside).accepted (graph_depth (List.mem_reverse.mpr mem) inside)
  · intro o mem
    have entry := (seen_perm st.inputs st.constants st.nodes).symm.subset (specs o mem)
    refine ⟨?_, inv.ranks _ (specs o mem), ?_⟩
    · rw [tableOf_defined]
      exact List.mem_map_of_mem (f := Prod.fst) entry
    · exact tableOf_lookup (seen_distinct inv.toLevel) entry

/-- A graph needs an output. -/
theorem empty_refused : toGraph [] = .ok ⟨[], [], [], [], []⟩ ∧
    validate (Graph.toWire ⟨[], [], [], [], []⟩) [] maxNodes = .error (.graphValidation .noOutputs) :=
  ⟨rfl, rfl⟩

def sample (ref : Ref) : Tag := ⟨ref, [2], .u8⟩

def scalar (ref : Ref) : Tag := ⟨ref, [], .u8⟩

def sampleSum : Expr :=
  .op (sample 2) (.binary .add) [.parameter (sample 0) 0, .tensor (sample 1) ⟨[1, 2], none⟩]

def addition : Expr :=
  .op (scalar 2) (.binary .add) [.parameter (scalar 0) 0, .parameter (scalar 1) 1]

def sampleTotal : Expr := .reduce (scalar 4) sampleSum (.constant (scalar 3) (.int 0)) none false addition

def belowFive : Expr :=
  .op (scalar 2) (.comparison .less) [.parameter (scalar 0) 0, .constant (scalar 1) (.int 5)]

def toFive : Expr :=
  .op (scalar 2) (.binary .max) [.parameter (scalar 0) 0, .constant (scalar 1) (.int 5)]

def sampleLoop : Expr := .loop (scalar 5) [sampleTotal] belowFive [toFive]

def sampleFive : Expr := .elem (scalar 6) sampleLoop 0

def namesOf (es : List Expr) : Names := ⟨fun ref => es[ref]?.getD (.tuple []), id⟩

def sampleNames : Names := namesOf [.parameter (sample 0) 0, .tensor (sample 1) ⟨[1, 2], none⟩, sampleSum,
  .constant (scalar 3) (.int 0), sampleTotal, sampleLoop, sampleFive]

theorem typed_leaf {names : Names} {e : Expr} (named : names.table e.tag.ref = e)
    (declared : Declares names none e) (rank : e.tag.shape.length ≤ maxRank)
    (operands : e.operands none (some e.inputSpecs) = []) (subs : e.subs = []) :
    WellTyped names none e :=
  .mk (fun _ => names) (fun _ => named) declared rank
    (fun c mem => by rw [operands] at mem; cases mem) (fun c mem => by rw [subs] at mem; cases mem)

theorem typed_pair {names : Names} {t : Tag} {op : Op} {a b : Expr}
    (named : names.table t.ref = .op t op [a, b]) (rank : t.shape.length ≤ maxRank)
    (left : WellTyped names none a) (right : WellTyped names none b) :
    WellTyped names none (.op t op [a, b]) := by
  refine .mk (fun _ => names) (fun _ => named) trivial rank ?_
    (fun c mem => absurd mem List.not_mem_nil)
  intro c mem
  rcases List.mem_cons.mp mem with rfl | mem
  · exact left
  · rw [List.mem_singleton.mp mem]
    exact right

theorem sampleTotal_typed : WellTyped sampleNames none sampleTotal := by
  refine .mk (fun sub => namesOf (.parameter (scalar 0) 0 :: .parameter (scalar 1) 1 :: sub))
    (fun _ => rfl) trivial (by decide) ?_ ?_
  · intro c mem
    rcases List.mem_cons.mp mem with rfl | mem
    · exact typed_pair rfl (by decide) (typed_leaf rfl rfl (by decide) rfl rfl)
        (typed_leaf rfl rfl (by decide) rfl rfl)
    · rw [List.mem_singleton.mp mem]
      exact typed_leaf rfl trivial (by decide) rfl rfl
  · intro sub mem x inside
    obtain rfl := List.mem_singleton.mp mem
    obtain rfl := List.mem_singleton.mp inside
    exact typed_pair rfl (by decide) (typed_leaf rfl rfl (by decide) rfl rfl)
      (typed_leaf rfl rfl (by decide) rfl rfl)

theorem sampleLoop_typed : WellTyped sampleNames none sampleLoop := by
  refine .mk (fun sub => namesOf (.parameter (scalar 0) 0 :: .constant (scalar 1) (.int 5) :: sub))
    (fun _ => rfl) trivial (by decide) ?_ ?_
  · intro c mem
    obtain rfl := List.mem_singleton.mp mem
    exact sampleTotal_typed
  · intro sub mem x inside
    rcases List.mem_cons.mp mem with rfl | mem
    · obtain rfl := List.mem_singleton.mp inside
      exact typed_pair rfl (by decide) (typed_leaf rfl rfl (by decide) rfl rfl)
        (typed_leaf rfl trivial (by decide) rfl rfl)
    · obtain rfl := List.mem_singleton.mp mem
      obtain rfl := List.mem_singleton.mp inside
      exact typed_pair rfl (by decide) (typed_leaf rfl rfl (by decide) rfl rfl)
        (typed_leaf rfl trivial (by decide) rfl rfl)

theorem sample_typed : ∀ e ∈ [sampleFive], WellTyped sampleNames none e := by
  intro e mem
  obtain rfl := List.mem_singleton.mp mem
  refine .mk (fun _ => sampleNames) (fun _ => rfl) rfl (by decide) ?_
    (fun c mem => absurd mem List.not_mem_nil)
  intro c mem
  obtain rfl := List.mem_singleton.mp mem
  exact sampleLoop_typed

theorem toGraph_accepted_sample : ∃ g, toGraph [sampleFive] = .ok g ∧
    Sound g.blobs [sampleFive] (.mk g.inputs g.constants g.nodes g.outputs) ∧
      validate g.toWire g.blobs maxNodes = .ok () :=
  ⟨_, rfl, toGraph_accepted (List.cons_ne_nil _ _) sample_typed rfl (by decide)⟩

end NxTinygrad.Lowering
