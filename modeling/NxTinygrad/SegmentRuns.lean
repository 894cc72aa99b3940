import Mathlib.Data.List.Dedup
import NxTinygrad.Segments
import NxTinygrad.Placement

/- Segmented execution against plain execution: the backward pass keeps every id that is
   read later, the forward pass finds every id a segment reads from outside. -/
namespace NxTinygrad.SegmentRuns
open IR StraightLine Interpreter Capture Segments Placement

variable {T : Type}

def Declared (S : Sem (Val T)) (set : Setting) (node : Node) : Prop :=
  ∀ vs outs, vs.length = (nodeReads node).length →
    runNode S set.blobs set.fuel [] node vs = .ok outs →
      outs.map Val.isCx = (nodeDtypes node).map Dtype.isComplex

def Tagged (g : Graph) (env : Env (Val T)) : Prop :=
  ∀ id v, env id = some v → ∃ d, idDtype g id = some d ∧ v.isCx = d.isComplex

theorem wrap_tensor {d : Dtype} {v : Val T} (h : v.isCx = d.isComplex) : wrap d v.tensor = v := by
  cases v with
  | plain t =>
    have real : d.isComplex = false := h.symm
    simp [wrap, Val.tensor, real]
  | cx t =>
    have complex : d.isComplex = true := h.symm
    simp [wrap, Val.tensor, complex]

theorem definedIds_length (node : Node) : (nodeDtypes node).length = node.definedIds.length := by
  cases node <;> simp [nodeDtypes, Node.definedIds]

theorem topInstr_ok {S : Sem (Val T)} {set : Setting} {node : Node} (declared : Declared S set node)
    {vs outs : List (Val T)} (len : vs.length = (nodeReads node).length)
    (ran : (topInstr S set node).run vs = .ok outs) :
    outs.map Val.isCx = (nodeDtypes node).map Dtype.isComplex := by
  simp only [topInstr] at ran
  cases inner : runNode S set.blobs set.fuel [] node vs with
  | error e => simp [inner, Except.mapError] at ran
  | ok outs' =>
    simp only [inner, Except.mapError, Except.ok.injEq] at ran
    exact ran ▸ declared vs outs' len inner

theorem full_of_declared {S : Sem (Val T)} {set : Setting} {node : Node}
    (declared : Declared S set node) : Full (topInstr S set node) := by
  intro vs outs len ran
  have same := congrArg List.length (topInstr_ok declared len ran)
  simpa [topInstr, definedIds_length] using same

theorem idDtypes_keys (g : Graph) : (idDtypes g).map Prod.fst = (allIds g).reverse := by
  have node_keys : ∀ n : Node, (n.definedIds.zip (nodeDtypes n)).map Prod.fst = n.definedIds := by
    intro n
    exact List.map_fst_zip (Nat.le_of_eq (definedIds_length n).symm)
  simp [idDtypes, allIds, List.map_flatMap, node_keys, Function.comp_def]

theorem idDtype_of_mem {g : Graph} (placed : WellPlaced g) {id : Nat} {d : Dtype}
    (mem : (id, d) ∈ idDtypes g) : idDtype g id = some d := by
  refine lookup_of_mem ?_ mem
  rw [idDtypes_keys]
  exact List.nodup_reverse.mpr placed.distinct

theorem idDtype_isSome {g : Graph} {id : Nat} (mem : id ∈ allIds g) : (idDtype g id).isSome := by
  have key : id ∈ (idDtypes g).map Prod.fst := by
    rw [idDtypes_keys]
    exact List.mem_reverse.mpr mem
  obtain ⟨⟨k, d⟩, here, rfl⟩ := List.mem_map.mp key
  exact List.lookup_isSome_iff.mpr ⟨(k, d), here, by simp⟩

theorem tagged_assign {g : Graph} (placed : WellPlaced g) {ids : List Nat} {dtypes : List Dtype}
    (distinct : ids.Nodup) (len : dtypes.length = ids.length)
    (typed : ∀ entry ∈ ids.zip dtypes, entry ∈ idDtypes g) {env : Env (Val T)}
    (tagged : Tagged g env) {vs : List (Val T)}
    (tags : vs.map Val.isCx = dtypes.map Dtype.isComplex) : Tagged g (assign env ids vs) := by
  intro id v value
  by_cases new : id ∈ ids
  · obtain ⟨k, bound, at_k⟩ := List.getElem_of_mem new
    have vs_len : vs.length = dtypes.length := by simpa using congrArg List.length tags
    have inside : k < dtypes.length := by omega
    have inside' : k < vs.length := by omega
    have written : assign env ids vs id = some vs[k] :=
      assign_getElem distinct (List.getElem?_eq_some_iff.mpr ⟨bound, at_k⟩)
        (List.getElem?_eq_getElem inside')
    have pair : (id, dtypes[k]) ∈ ids.zip dtypes := by
      refine List.mem_of_getElem? (i := k) ?_
      rw [List.getElem?_zip_eq_some]
      exact ⟨List.getElem?_eq_some_iff.mpr ⟨bound, at_k⟩, List.getElem?_eq_getElem inside⟩
    have tag : vs[k].isCx = dtypes[k].isComplex := by
      have at_tags := congrArg (fun l => l[k]?) tags
      simpa [inside, inside'] using at_tags
    rw [written] at value
    cases value
    exact ⟨dtypes[k], idDtype_of_mem placed (typed _ pair), tag⟩
  · rw [assign_other new] at value
    exact tagged id v value

theorem tagged_exec {S : Sem (Val T)} {set : Setting} {g : Graph} (placed : WellPlaced g)
    {node : Node} (mem : node ∈ g.nodes) (declared : Declared S set node)
    (distinct : node.definedIds.Nodup) {env out : Env (Val T)} (tagged : Tagged g env)
    (ran : exec .missing (topInstr S set node) env = .ok out) : Tagged g out := by
  obtain ⟨vs, outs, fetched, computed, rfl⟩ := exec_ok.mp ran
  refine tagged_assign placed distinct (definedIds_length node) ?_ tagged
    (topInstr_ok declared (fetch_length fetched) computed)
  intro entry here
  simp only [idDtypes, List.mem_reverse, List.mem_append, List.mem_flatMap]
  exact Or.inr ⟨node, mem, here⟩

theorem flush_nodes (current : List Node) : (flush current).flatMap Group.nodes = current := by
  cases current <;> simp [flush, Group.nodes]

theorem planGroups_nodes (nodes current : List Node) :
    (planGroups nodes current).flatMap Group.nodes = current ++ nodes := by
  induction nodes generalizing current with
  | nil => rw [planGroups, flush_nodes, List.append_nil]
  | cons node rest ih =>
    simp only [planGroups]
    split
    · rw [ih, List.append_assoc]
      rfl
    · rw [List.flatMap_append, flush_nodes, List.flatMap_cons, ih]
      rfl

theorem mem_collectRefs {defined constants refs inputs : List Nat} {r : Nat} :
    r ∈ collectRefs defined constants refs inputs ↔
      r ∈ inputs ∨ (r ∈ refs ∧ r ∉ defined ∧ r ∉ constants) := by
  induction refs generalizing inputs with
  | nil => simp [collectRefs]
  | cons ref rest ih =>
    simp only [collectRefs]
    split
    · rename_i seen
      rw [ih]
      constructor
      · rintro (old | ⟨later, new⟩)
        · exact Or.inl old
        · exact Or.inr ⟨List.mem_cons_of_mem _ later, new⟩
      · rintro (old | ⟨mem, undefined, varies⟩)
        · exact Or.inl old
        · rcases List.mem_cons.mp mem with same | later
          · subst same
            exact Or.inl ((seen.resolve_left undefined).resolve_left varies)
          · exact Or.inr ⟨later, undefined, varies⟩
    · rename_i unseen
      push Not at unseen
      rw [ih]
      constructor
      · rintro (old | ⟨later, new⟩)
        · rcases List.mem_append.mp old with old | same
          · exact Or.inl old
          · have eq := List.mem_singleton.mp same
            subst eq
            exact Or.inr ⟨List.mem_cons_self .., unseen.1, unseen.2.1⟩
        · exact Or.inr ⟨List.mem_cons_of_mem _ later, new⟩
      · rintro (old | ⟨mem, undefined, varies⟩)
        · exact Or.inl (List.mem_append_left _ old)
        · rcases List.mem_cons.mp mem with same | later
          · exact Or.inl (List.mem_append_right _ (List.mem_singleton.mpr same))
          · exact Or.inr ⟨later, undefined, varies⟩

theorem segmentInputs_keep {constants defined inputs : List Nat} {nodes : List Node} {r : Nat}
    (mem : r ∈ inputs) : r ∈ segmentInputs constants nodes defined inputs := by
  induction nodes generalizing defined inputs with
  | nil => exact mem
  | cons node rest ih => exact ih (mem_collectRefs.mpr (Or.inl mem))

theorem segment_closed {S : Sem (Val T)} {set : Setting} {constants defined inputs : List Nat}
    {nodes : List Node} :
    Closed (fun id => id ∈ segmentInputs constants nodes defined inputs ∨ id ∈ constants ∨
      id ∈ defined) (nodes.map (topInstr S set)) := by
  induction nodes generalizing defined inputs with
  | nil => trivial
  | cons node rest ih =>
    constructor
    · intro id read
      have ref : id ∈ node.inputs := nodeReads_sub read
      by_cases old : id ∈ defined
      · exact Or.inr (Or.inr old)
      · by_cases fixed : id ∈ constants
        · exact Or.inr (Or.inl fixed)
        · have asked : id ∈ collectRefs defined constants node.inputs inputs :=
            mem_collectRefs.mpr (Or.inr ⟨ref, old, fixed⟩)
          have kept : id ∈ segmentInputs constants rest (defined ++ node.definedIds) _ :=
            segmentInputs_keep asked
          exact Or.inl kept
    · refine closed_mono ?_ (@ih (defined ++ node.definedIds)
        (collectRefs defined constants node.inputs inputs))
      rintro id (asked | fixed | known)
      · exact Or.inl (Or.inl asked)
      · exact Or.inl (Or.inr (Or.inl fixed))
      · rcases List.mem_append.mp known with old | new
        · exact Or.inl (Or.inr (Or.inr old))
        · exact Or.inr new

theorem segmentInputs_known {ids : Nat → Prop} {constants defined inputs : List Nat}
    {nodes : List Node} (topo : Topo (fun id => ids id ∨ id ∈ defined) nodes) {r : Nat}
    (mem : r ∈ segmentInputs constants nodes defined inputs) :
    r ∈ inputs ∨ (ids r ∧ ∃ n ∈ nodes, r ∈ n.inputs) := by
  induction nodes generalizing defined inputs with
  | nil => exact Or.inl mem
  | cons node rest ih =>
    have tail : Topo (fun id => ids id ∨ id ∈ defined ++ node.definedIds) rest := by
      refine topo_congr ?_ topo.2.2.2
      intro id
      simp only [List.mem_append, or_assoc]
    rcases ih tail mem with here | ⟨known, n, later, ref⟩
    · rcases mem_collectRefs.mp here with old | ⟨ref, undefined, _⟩
      · exact Or.inl old
      · exact Or.inr ⟨(topo.1 r ref).resolve_right undefined, node, List.mem_cons_self .., ref⟩
    · exact Or.inr ⟨known, n, List.mem_cons_of_mem _ later, ref⟩

theorem mem_segmentOutputs {nodes : List Node} {after : List Nat} {id : Nat} :
    id ∈ segmentOutputs nodes after ↔ (∃ n ∈ nodes, id ∈ n.definedIds) ∧ id ∈ after := by
  simp only [segmentOutputs, List.mem_filter, List.mem_insertionSort, decide_eq_true_eq]
  rw [List.mem_dedup, List.mem_flatMap]

theorem neededFrom_cons {outputs : List Nat} {group : Group} {rest : List Group} {id : Nat} :
    id ∈ neededFrom outputs (group :: rest) ↔
      id ∈ neededFrom outputs rest ∨ ∃ n ∈ Group.nodes group, id ∈ n.inputs := by
  simp only [neededFrom, List.flatMap_cons, List.mem_append, List.mem_flatMap]
  rw [or_comm (a := ∃ n ∈ Group.nodes group, id ∈ n.inputs), or_assoc]

theorem topo_new {ids : Nat → Prop} {nodes : List Node} (topo : Topo ids nodes) {n : Node}
    (mem : n ∈ nodes) {id : Nat} (new : id ∈ n.definedIds) : ¬ ids id := by
  induction nodes generalizing ids with
  | nil => cases mem
  | cons node rest ih =>
    rcases List.mem_cons.mp mem with same | later
    · subst same
      exact topo.2.1 id new
    · intro known
      exact ih topo.2.2.2 later (Or.inl known)

theorem topo_closed {S : Sem (Val T)} {set : Setting} {ids wanted : Nat → Prop} {nodes : List Node}
    (topo : Topo ids nodes) (wants : ∀ n ∈ nodes, ∀ r ∈ n.inputs, wanted r) :
    Closed (fun id => wanted id ∧ ids id) (nodes.map (topInstr S set)) := by
  induction nodes generalizing ids with
  | nil => trivial
  | cons node rest ih =>
    constructor
    · intro id read
      have ref := nodeReads_sub read
      exact ⟨wants node (List.mem_cons_self ..) id ref, topo.1 id ref⟩
    · refine closed_mono ?_ (ih topo.2.2.2 fun n later => wants n (List.mem_cons_of_mem _ later))
      rintro id ⟨want, old | new⟩
      · exact Or.inl ⟨want, old⟩
      · exact Or.inr new

theorem writes_iff {S : Sem (Val T)} {set : Setting} {nodes : List Node} {id : Nat} :
    Writes (nodes.map (topInstr S set)) id ↔ ∃ n ∈ nodes, id ∈ n.definedIds := by
  simp [Writes, topInstr]

/-- `known` are the ids defined before the groups that are left. -/
structure Ready (g : Graph) (known : Nat → Prop) (groups : List Group) (env : Env (Val T)) :
    Prop where
  topo : Topo known (groups.flatMap Group.nodes)
  nodes : ∀ n ∈ groups.flatMap Group.nodes, n ∈ g.nodes
  inside : ∀ id, known id → id ∈ allIds g
  constants : ∀ id ∈ constantIds g, known id
  present : ∀ id ∈ neededFrom (outputIds g) groups, known id → (env id).isSome

def Known (known : Nat → Prop) (group : Group) (id : Nat) : Prop :=
  known id ∨ ∃ n ∈ Group.nodes group, id ∈ n.definedIds

variable {S : Sem (Val T)} {set : Setting} {g : Graph} {known : Nat → Prop} {group : Group}
  {rest : List Group} {env : Env (Val T)}

theorem ready_topo (ready : Ready g known (group :: rest) env) :
    Topo known (Group.nodes group) ∧ Topo (Known known group) (rest.flatMap Group.nodes) :=
  topo_append.mp (List.flatMap_cons (f := Group.nodes) ▸ ready.topo)

theorem ready_mem (ready : Ready g known (group :: rest) env) {n : Node}
    (mem : n ∈ Group.nodes group) : n ∈ g.nodes :=
  ready.nodes n (List.mem_flatMap.mpr ⟨group, List.mem_cons_self .., mem⟩)

theorem ready_next {out : Env (Val T)} (ready : Ready g known (group :: rest) env)
    (kept : ∀ id, (env id).isSome → (out id).isSome)
    (added : ∀ id ∈ neededFrom (outputIds g) rest, (∃ n ∈ Group.nodes group, id ∈ n.definedIds) →
      (out id).isSome) : Ready g (Known known group) rest out where
  topo := (ready_topo ready).2
  nodes n mem := ready.nodes n (List.flatMap_cons (f := Group.nodes) ▸ List.mem_append_right _ mem)
  inside := by
    rintro id (old | ⟨n, mem, defines⟩)
    · exact ready.inside id old
    · exact List.mem_append_right _ (List.mem_flatMap.mpr ⟨n, ready_mem ready mem, defines⟩)
  constants id mem := Or.inl (ready.constants id mem)
  present := by
    rintro id needed (old | new)
    · exact kept id (ready.present id (neededFrom_cons.mpr (Or.inl needed)) old)
    · exact added id needed new

def Failed (t : Trouble) : Prop := ∃ e, t = .failed e

theorem missed_failed {α : Type} {r : Except Trouble α} (failed : ∀ e, r = .error e → Failed e) :
    missed r = [] := by
  cases r with
  | ok a => rfl
  | error e =>
    obtain ⟨x, rfl⟩ := failed e rfl
    rfl

theorem topInstr_failed {node : Node} {vs : List (Val T)} {e : Trouble}
    (h : (topInstr S set node).run vs = .error e) : Failed e := by
  simp only [topInstr] at h
  cases inner : runNode S set.blobs set.fuel [] node vs with
  | ok outs => simp [inner, Except.mapError] at h
  | error x =>
    simp only [inner, Except.mapError, Except.error.injEq] at h
    exact ⟨x, h.symm⟩

theorem evalTop_full {nodes : List Node} (declared : ∀ n ∈ nodes, Declared S set n) :
    ∀ i ∈ nodes.map (topInstr S set), Full i := by
  intro i mem
  obtain ⟨n, here, rfl⟩ := List.mem_map.mp mem
  exact full_of_declared (declared n here)

theorem evalTop_failed {ids : Nat → Prop} {nodes : List Node}
    (declared : ∀ n ∈ nodes, Declared S set n) (closed : Closed ids (nodes.map (topInstr S set)))
    (present : ∀ id, ids id → (env id).isSome) {e : Trouble}
    (h : evalTop S set nodes env = .error e) : Failed e := by
  refine execAll_found (evalTop_full declared) ?_ closed present h
  intro i mem vs e ran
  obtain ⟨n, _, rfl⟩ := List.mem_map.mp mem
  exact topInstr_failed ran

theorem group_ready (declared : ∀ n ∈ g.nodes, Declared S set n)
    (ready : Ready g known (group :: rest) env) :
    missed (evalTop S set (Group.nodes group) env) = [] ∧
      ∀ out, evalTop S set (Group.nodes group) env = .ok out →
        Ready g (Known known group) rest out := by
  have shapes : ∀ n ∈ Group.nodes group, Declared S set n :=
    fun n mem => declared n (ready_mem ready mem)
  constructor
  · have closed : Closed (fun id => id ∈ neededFrom (outputIds g) (group :: rest) ∧ known id)
        ((Group.nodes group).map (topInstr S set)) := by
      refine topo_closed (ready_topo ready).1 ?_
      intro n mem r ref
      exact neededFrom_cons.mpr (Or.inr ⟨n, mem, ref⟩)
    refine missed_failed fun e h => evalTop_failed shapes closed ?_ h
    intro id here
    exact ready.present id here.1 here.2
  · intro out h
    refine ready_next ready (fun id there => ?_) (fun id _ new => ?_)
    · exact execAll_present (evalTop_full shapes) h (Or.inl there)
    · exact execAll_present (evalTop_full shapes) h (Or.inr (writes_iff.mpr new))

theorem mapM_isSome {α β : Type} {f : α → Option β} {xs : List α} (found : ∀ x ∈ xs, (f x).isSome) :
    ∃ ys, xs.mapM f = some ys ∧ List.Forall₂ (fun x y => f x = some y) xs ys := by
  induction xs with
  | nil => exact ⟨[], rfl, List.Forall₂.nil⟩
  | cons x rest ih =>
    obtain ⟨y, here⟩ := Option.isSome_iff_exists.mp (found x (List.mem_cons_self ..))
    obtain ⟨ys, tail, all⟩ := ih fun z mem => found z (List.mem_cons_of_mem _ mem)
    exact ⟨y :: ys, by simp [here, tail], List.Forall₂.cons here all⟩

theorem rewrap {ids : List Nat} {dtypes : List Dtype} {vs : List (Val T)} {env : Env (Val T)}
    (types : List.Forall₂ (fun id d => idDtype g id = some d) ids dtypes)
    (tagged : ∀ id ∈ ids, ∀ v, env id = some v → ∃ d, idDtype g id = some d ∧ v.isCx = d.isComplex)
    (fetched : fetch Trouble.missing env ids = .ok vs) :
    List.zipWith wrap dtypes (vs.map Val.tensor) = vs := by
  have values := fetch_ok_iff.mp fetched
  clear fetched
  induction types generalizing vs with
  | nil =>
    cases vs with
    | nil => rfl
    | cons v vs => simp at values
  | cons here _ ih =>
    cases vs with
    | nil => simp at values
    | cons v vs =>
      simp only [List.map_cons, List.cons.injEq] at values
      obtain ⟨d, declared, tag⟩ := tagged _ (List.mem_cons_self ..) v values.1
      cases here.symm.trans declared
      have tail := ih (fun id mem => tagged id (List.mem_cons_of_mem _ mem)) values.2
      simp only [List.map_cons, List.zipWith_cons_cons, wrap_tensor tag, tail]

theorem inputs_needed {nodes : List Node} {outputs constants : List Nat} {r : Nat}
    (topo : Topo known nodes) (mem : r ∈ segmentInputs constants nodes [] []) :
    known r ∧ r ∈ neededFrom outputs (.jit nodes :: rest) := by
  have start : Topo (fun id => known id ∨ id ∈ ([] : List Nat)) nodes :=
    topo_congr (fun id => by simp) topo
  rcases segmentInputs_known start mem with none_yet | ⟨old, n, here, ref⟩
  · cases none_yet
  · exact ⟨old, neededFrom_cons.mpr (Or.inr ⟨n, here, ref⟩)⟩

theorem segment_closed_start {constants : List Nat} {nodes : List Node} :
    Closed (fun id => id ∈ segmentInputs constants nodes [] [] ∨ id ∈ constants)
      (nodes.map (topInstr S set)) := by
  have whole : Closed (fun id => id ∈ segmentInputs constants nodes [] [] ∨ id ∈ constants ∨
      id ∈ ([] : List Nat)) (nodes.map (topInstr S set)) := segment_closed
  refine closed_mono ?_ whole
  rintro id (asked | fixed | nothing)
  · exact Or.inl asked
  · exact Or.inr fixed
  · cases nothing

theorem segment_found {constEnv : Env (Val T)} {nodes : List Node} {inDtypes : List Dtype}
    (raises : Bool) (after : List Nat) (declared : ∀ n ∈ g.nodes, Declared S set n)
    (ready : Ready g known (.jit nodes :: rest) env)
    (fixed : ∀ id ∈ constantIds g, (constEnv id).isSome)
    (len : inDtypes.length = (segmentInputs (constantIds g) nodes [] []).length) :
    let attempt := segmentStep S set constEnv raises nodes (segmentInputs (constantIds g) nodes [] [])
      (segmentOutputs nodes after) inDtypes env
    missed attempt = [] ∧
      ∀ results, attempt = .ok results → results.length = (segmentOutputs nodes after).length := by
  intro attempt
  have shapes : ∀ n ∈ nodes, Declared S set n := fun n mem => declared n (ready_mem ready mem)
  cases raises with
  | true =>
    refine ⟨rfl, fun results h => ?_⟩
    simp [attempt, segmentStep] at h
  | false =>
    have present : ∀ id ∈ segmentInputs (constantIds g) nodes [] [], (env id).isSome := by
      intro id mem
      obtain ⟨old, needed⟩ := inputs_needed (ready_topo ready).1 mem
      exact ready.present id needed old
    obtain ⟨vs, fetched⟩ : ∃ vs, fetch Trouble.missing env
        (segmentInputs (constantIds g) nodes [] []) = .ok vs := fetch_present present
    have start : ∀ id, id ∈ segmentInputs (constantIds g) nodes [] [] ∨ id ∈ constantIds g →
        (bindArgs constEnv (segmentInputs (constantIds g) nodes [] []) inDtypes
          (vs.map Val.tensor) id).isSome := by
      rintro id (asked | constant)
      · refine assign_present ?_ asked
        simp [len, fetch_length fetched]
      · exact assign_keeps (fixed id constant)
    simp only [attempt, segmentStep, Bool.false_eq_true, if_false, fetched, segmentFn]
    cases ran : evalTop S set nodes (bindArgs constEnv (segmentInputs (constantIds g) nodes [] [])
        inDtypes (vs.map Val.tensor)) with
    | error e =>
      obtain ⟨x, rfl⟩ := evalTop_failed shapes segment_closed_start start ran
      exact ⟨rfl, fun results h => by cases h⟩
    | ok out =>
      have written : ∀ id ∈ segmentOutputs nodes after, (out id).isSome := by
        intro id mem
        have defines := (mem_segmentOutputs.mp mem).1
        exact execAll_present (evalTop_full shapes) ran (Or.inr (writes_iff.mpr defines))
      obtain ⟨ws, read⟩ : ∃ ws, fetch Trouble.missing out (segmentOutputs nodes after) = .ok ws :=
        fetch_present written
      simp only [read, missed, true_and, Except.ok.injEq]
      rintro results rfl
      simp [fetch_length read]

theorem outputs_typed (ready : Ready g known (group :: rest) env) (after : List Nat) :
    ∀ id ∈ segmentOutputs (Group.nodes group) after, (idDtype g id).isSome := by
  intro id mem
  obtain ⟨n, here, defines⟩ := (mem_segmentOutputs.mp mem).1
  refine idDtype_isSome (List.mem_append_right _ (List.mem_flatMap.mpr ⟨n, ?_, defines⟩))
  exact ready_mem ready here

theorem inputs_typed {nodes : List Node} (ready : Ready g known (.jit nodes :: rest) env) :
    ∀ id ∈ segmentInputs (constantIds g) nodes [] [], (idDtype g id).isSome := by
  intro id mem
  have here : known id ∧ id ∈ neededFrom (outputIds g) (.jit nodes :: rest) :=
    inputs_needed (ready_topo ready).1 mem
  exact idDtype_isSome (ready.inside id here.1)

theorem dead_ready {nodes : List Node} (ready : Ready g known (.jit nodes :: rest) env)
    (dead : segmentOutputs nodes (neededFrom (outputIds g) rest) = []) :
    Ready g (Known known (.jit nodes)) rest env := by
  refine ready_next ready (fun id there => there) ?_
  intro id needed new
  have listed : id ∈ segmentOutputs nodes (neededFrom (outputIds g) rest) :=
    mem_segmentOutputs.mpr ⟨new, needed⟩
  rw [dead] at listed
  cases listed

theorem bound_ready {nodes : List Node} {outDtypes : List Dtype} {results : List T}
    (ready : Ready g known (.jit nodes :: rest) env)
    (types : outDtypes.length = (segmentOutputs nodes (neededFrom (outputIds g) rest)).length)
    (len : results.length = (segmentOutputs nodes (neededFrom (outputIds g) rest)).length) :
    Ready g (Known known (.jit nodes)) rest
      (bindArgs env (segmentOutputs nodes (neededFrom (outputIds g) rest)) outDtypes results) := by
  refine ready_next ready (fun id there => assign_keeps there) ?_
  intro id needed new
  refine assign_present ?_ (mem_segmentOutputs.mpr ⟨new, needed⟩)
  simp [types, len]

theorem piece_ready {constEnv : Env (Val T)} {piece : Piece} (luck : Luck)
    (declared : ∀ n ∈ g.nodes, Declared S set n)
    (fixed : ∀ id ∈ constantIds g, (constEnv id).isSome)
    (ready : Ready g known (group :: rest) env)
    (planned : planPieces (constantIds g) (outputIds g) (group :: rest) =
      piece :: planPieces (constantIds g) (outputIds g) rest) :
    (evalPiece S set g constEnv luck env piece).missed = [] ∧
      ∀ out, (evalPiece S set g constEnv luck env piece).result = .ok out →
        Ready g (Known known group) rest out := by
  have interpreted := group_ready declared ready
  cases group with
  | eager node =>
    cases planned
    exact interpreted
  | jit nodes =>
    cases planned
    obtain ⟨inDtypes, ins_eq, ins_typed⟩ := mapM_isSome (inputs_typed ready)
    obtain ⟨outDtypes, outs_eq, outs_typed⟩ :=
      mapM_isSome (outputs_typed ready (neededFrom (outputIds g) rest))
    simp only [Group.nodes] at outs_eq outs_typed
    simp only [evalPiece]
    split
    · rename_i dead
      refine ⟨rfl, fun out h => ?_⟩
      cases h
      exact dead_ready ready (List.isEmpty_iff.mp dead)
    · simp only [ins_eq, outs_eq]
      split
      · exact interpreted
      · have found := segment_found (luck = .raises) (neededFrom (outputIds g) rest) declared ready
          fixed ins_typed.length_eq.symm
        cases attempt : segmentStep S set constEnv (decide (luck = .raises)) nodes
            (segmentInputs (constantIds g) nodes [] [])
            (segmentOutputs nodes (neededFrom (outputIds g) rest)) inDtypes env with
        | error e =>
          simp only [attempt] at found
          have nothing : missed (evalTop S set nodes env) = [] := interpreted.1
          exact ⟨by simp only [found.1, nothing, List.append_nil], interpreted.2⟩
        | ok results =>
          refine ⟨rfl, fun out h => ?_⟩
          cases h
          exact bound_ready ready outs_typed.length_eq.symm (found.2 results attempt)

structure Matches (g : Graph) (constEnv : Env (Val T)) (groups : List Group)
    (plain env : Env (Val T)) : Prop where
  agree : AgreeOn (· ∈ neededFrom (outputIds g) groups) plain env
  constants : AgreeOn (· ∈ constantIds g) plain constEnv
  tagged : Tagged g plain

variable {constEnv plain after : Env (Val T)}

theorem evalTop_other {nodes : List Node} {out : Env (Val T)}
    (h : evalTop S set nodes env = .ok out) {id : Nat} (other : ¬ ∃ n ∈ nodes, id ∈ n.definedIds) :
    out id = env id :=
  execAll_other h fun writes => other (writes_iff.mp writes)

theorem tagged_run (placed : WellPlaced g) {nodes : List Node} {ids : Nat → Prop}
    (topo : Topo ids nodes) (sub : ∀ n ∈ nodes, n ∈ g.nodes)
    (declared : ∀ n ∈ g.nodes, Declared S set n) (tagged : Tagged g env) {out : Env (Val T)}
    (h : evalTop S set nodes env = .ok out) : Tagged g out := by
  induction nodes generalizing env ids with
  | nil =>
    cases h
    exact tagged
  | cons node rest ih =>
    obtain ⟨mid, first, tail⟩ := execAll_cons_ok.mp h
    have mem := sub node (List.mem_cons_self ..)
    have here := tagged_exec placed mem (declared node mem) topo.2.2.1 tagged first
    exact ih topo.2.2.2 (fun n later => sub n (List.mem_cons_of_mem _ later)) here tail

theorem matches_next (placed : WellPlaced g) (declared : ∀ n ∈ g.nodes, Declared S set n)
    (ready : Ready g known (group :: rest) env) (same : Matches g constEnv (group :: rest) plain env)
    (h : evalTop S set (Group.nodes group) plain = .ok after) {out : Env (Val T)}
    (agree : AgreeOn (· ∈ neededFrom (outputIds g) rest) after out) :
    Matches g constEnv rest after out where
  agree := agree
  constants := by
    intro id constant
    rw [← same.constants id constant]
    refine evalTop_other h ?_
    rintro ⟨n, mem, defines⟩
    exact topo_new (ready_topo ready).1 mem defines (ready.constants id constant)
  tagged := tagged_run placed (ready_topo ready).1 (fun n mem => ready_mem ready mem) declared
    same.tagged h

theorem group_agrees (declared : ∀ n ∈ g.nodes, Declared S set n)
    (ready : Ready g known (group :: rest) env)
    (agree : AgreeOn (· ∈ neededFrom (outputIds g) (group :: rest)) plain env)
    (h : evalTop S set (Group.nodes group) plain = .ok after) :
    ∃ out, evalTop S set (Group.nodes group) env = .ok out ∧
      AgreeOn (· ∈ neededFrom (outputIds g) rest) after out := by
  have shapes : ∀ n ∈ Group.nodes group, Declared S set n :=
    fun n mem => declared n (ready_mem ready mem)
  have closed : Closed (· ∈ neededFrom (outputIds g) (group :: rest))
      ((Group.nodes group).map (topInstr S set)) := by
    refine closed_of_subset ?_
    intro i mem id read
    obtain ⟨n, here, rfl⟩ := List.mem_map.mp mem
    exact neededFrom_cons.mpr (Or.inr ⟨n, here, nodeReads_sub read⟩)
  obtain ⟨out, ran, final⟩ := execAll_agree (evalTop_full shapes) agree closed h
  refine ⟨out, ran, ?_⟩
  intro id needed
  exact final id (Or.inl (neededFrom_cons.mpr (Or.inl needed)))

theorem agree_undefined {nodes : List Node}
    (agree : AgreeOn (· ∈ neededFrom (outputIds g) (.jit nodes :: rest)) plain env)
    (h : evalTop S set nodes plain = .ok after) {id : Nat}
    (needed : id ∈ neededFrom (outputIds g) rest)
    (other : id ∉ segmentOutputs nodes (neededFrom (outputIds g) rest)) : after id = env id := by
  rw [← agree id (neededFrom_cons.mpr (Or.inl needed))]
  exact evalTop_other h fun defines => other (mem_segmentOutputs.mpr ⟨defines, needed⟩)

theorem segmentFn_agrees {nodes : List Node} {ins outs : List Nat} {inDtypes : List Dtype}
    {vs : List (Val T)} (shapes : ∀ n ∈ nodes, Declared S set n)
    (closed : Closed (fun id => id ∈ ins ∨ id ∈ constantIds g) (nodes.map (topInstr S set)))
    (constants : AgreeOn (· ∈ constantIds g) plain constEnv)
    (unwrapped : List.zipWith wrap inDtypes (vs.map Val.tensor) = vs)
    (fetched : fetch Trouble.missing plain ins = .ok vs)
    (outs_sub : ∀ id ∈ outs, ∃ n ∈ nodes, id ∈ n.definedIds)
    (h : evalTop S set nodes plain = .ok after) :
    ∃ ws, segmentFn S set constEnv nodes ins outs inDtypes (vs.map Val.tensor) =
        .ok (ws.map Val.tensor) ∧ fetch Trouble.missing after outs = .ok ws := by
  have start : AgreeOn (fun id => id ∈ ins ∨ id ∈ constantIds g) plain (assign constEnv ins vs) := by
    intro id mem
    by_cases asked : id ∈ ins
    · rw [assign_fetched fetched asked]
    · rw [assign_other asked]
      exact constants id (mem.resolve_left asked)
  obtain ⟨inner, ran, final⟩ := execAll_agree (evalTop_full shapes) start closed h
  have written : ∀ id ∈ outs, (after id).isSome := by
    intro id mem
    exact execAll_present (evalTop_full shapes) h (Or.inr (writes_iff.mpr (outs_sub id mem)))
  obtain ⟨ws, read⟩ : ∃ ws, fetch Trouble.missing after outs = .ok ws := fetch_present written
  have read' : fetch Trouble.missing inner outs = .ok ws := by
    rw [← read]
    refine (fetch_agree final ?_).symm
    intro id mem
    exact Or.inr (writes_iff.mpr (outs_sub id mem))
  refine ⟨ws, ?_, read⟩
  have bound : bindArgs constEnv ins inDtypes (vs.map Val.tensor) = assign constEnv ins vs := by
    rw [bindArgs, unwrapped]
  simp only [segmentFn, bound, evalTop, ran, read']

theorem step_agrees {nodes : List Node} {inDtypes outDtypes : List Dtype} (placed : WellPlaced g)
    (declared : ∀ n ∈ g.nodes, Declared S set n) (ready : Ready g known (.jit nodes :: rest) env)
    (same : Matches g constEnv (.jit nodes :: rest) plain env)
    (ins_typed : List.Forall₂ (fun id d => idDtype g id = some d)
      (segmentInputs (constantIds g) nodes [] []) inDtypes)
    (outs_typed : List.Forall₂ (fun id d => idDtype g id = some d)
      (segmentOutputs nodes (neededFrom (outputIds g) rest)) outDtypes)
    (h : evalTop S set nodes plain = .ok after) :
    ∃ results, segmentStep S set constEnv false nodes (segmentInputs (constantIds g) nodes [] [])
        (segmentOutputs nodes (neededFrom (outputIds g) rest)) inDtypes env = .ok results ∧
      AgreeOn (· ∈ neededFrom (outputIds g) rest) after
        (bindArgs env (segmentOutputs nodes (neededFrom (outputIds g) rest)) outDtypes results) := by
  have asked : ∀ id ∈ segmentInputs (constantIds g) nodes [] [],
      id ∈ neededFrom (outputIds g) (.jit nodes :: rest) ∧ (env id).isSome := by
    intro id mem
    obtain ⟨old, needed⟩ := inputs_needed (ready_topo ready).1 mem
    exact ⟨needed, ready.present id needed old⟩
  obtain ⟨vs, fetched⟩ : ∃ vs, fetch Trouble.missing env
      (segmentInputs (constantIds g) nodes [] []) = .ok vs :=
    fetch_present fun id mem => (asked id mem).2
  have fetched' : fetch Trouble.missing plain (segmentInputs (constantIds g) nodes [] []) = .ok vs := by
    rw [← fetched]
    exact fetch_agree same.agree fun id mem => (asked id mem).1
  have unwrapped := rewrap ins_typed (fun id _ v value => same.tagged id v value) fetched'
  have shapes : ∀ n ∈ nodes, Declared S set n := fun n mem => declared n (ready_mem ready mem)
  obtain ⟨ws, ran, read⟩ := segmentFn_agrees shapes segment_closed_start same.constants unwrapped
    fetched' (fun id mem => (mem_segmentOutputs.mp mem).1) h
  have next := tagged_run placed (ready_topo ready).1 (fun n mem => ready_mem ready mem) declared
    same.tagged h
  have rewrapped := rewrap outs_typed (fun id _ v value => next id v value) read
  refine ⟨ws.map Val.tensor, by simpa [segmentStep, fetched] using ran, ?_⟩
  intro id needed
  rw [bindArgs, rewrapped]
  by_cases out : id ∈ segmentOutputs nodes (neededFrom (outputIds g) rest)
  · rw [assign_fetched read out]
  · rw [assign_other out]
    exact agree_undefined same.agree h needed out

theorem piece_agrees {piece : Piece} (luck : Luck) (placed : WellPlaced g)
    (declared : ∀ n ∈ g.nodes, Declared S set n) (ready : Ready g known (group :: rest) env)
    (same : Matches g constEnv (group :: rest) plain env)
    (planned : planPieces (constantIds g) (outputIds g) (group :: rest) =
      piece :: planPieces (constantIds g) (outputIds g) rest)
    (h : evalTop S set (Group.nodes group) plain = .ok after) :
    ∃ out, (evalPiece S set g constEnv luck env piece).result = .ok out ∧
      AgreeOn (· ∈ neededFrom (outputIds g) rest) after out := by
  have interpreted := group_agrees declared ready same.agree h
  cases group with
  | eager node =>
    cases planned
    exact interpreted
  | jit nodes =>
    cases planned
    obtain ⟨inDtypes, ins_eq, ins_typed⟩ := mapM_isSome (inputs_typed ready)
    obtain ⟨outDtypes, outs_eq, outs_typed⟩ :=
      mapM_isSome (outputs_typed ready (neededFrom (outputIds g) rest))
    simp only [Group.nodes] at outs_eq outs_typed
    simp only [evalPiece]
    split
    · rename_i dead
      refine ⟨env, rfl, fun id needed => agree_undefined same.agree h needed ?_⟩
      rw [List.isEmpty_iff.mp dead]
      exact List.not_mem_nil
    · simp only [ins_eq, outs_eq]
      split
      · exact interpreted
      · cases lucky : decide (luck = .raises) with
        | true =>
          simp only [segmentStep, if_true]
          exact interpreted
        | false =>
          obtain ⟨results, ran, agree⟩ :=
            step_agrees placed declared ready same ins_typed outs_typed h
          simp only [ran]
          exact ⟨_, rfl, agree⟩

theorem planPieces_cons (constants outputs : List Nat) (group : Group) (rest : List Group) :
    ∃ piece, planPieces constants outputs (group :: rest) =
      piece :: planPieces constants outputs rest := by
  cases group with
  | jit nodes => exact ⟨_, rfl⟩
  | eager node => exact ⟨_, rfl⟩

theorem pieces_ready {groups : List Group} {luck : Nat → Luck} {idx : Nat}
    (declared : ∀ n ∈ g.nodes, Declared S set n)
    (fixed : ∀ id ∈ constantIds g, (constEnv id).isSome) (ready : Ready g known groups env) :
    (evalPieces S set g constEnv luck idx (planPieces (constantIds g) (outputIds g) groups)
      env).missed = [] := by
  induction groups generalizing env idx known with
  | nil => rfl
  | cons group rest ih =>
    obtain ⟨piece, planned⟩ := planPieces_cons (constantIds g) (outputIds g) group rest
    obtain ⟨here, next⟩ := piece_ready (luck idx) declared fixed ready planned
    rw [planned, evalPieces]
    split
    · exact here
    · rename_i mid ran
      simp only [here, ih (next mid ran), List.append_nil]

theorem pieces_agree {groups : List Group} {luck : Nat → Luck} {idx : Nat} (placed : WellPlaced g)
    (declared : ∀ n ∈ g.nodes, Declared S set n)
    (fixed : ∀ id ∈ constantIds g, (constEnv id).isSome) (ready : Ready g known groups env)
    (same : Matches g constEnv groups plain env)
    (h : evalTop S set (groups.flatMap Group.nodes) plain = .ok after) :
    ∃ out, (evalPieces S set g constEnv luck idx (planPieces (constantIds g) (outputIds g) groups)
      env).result = .ok out ∧ AgreeOn (· ∈ outputIds g) after out := by
  induction groups generalizing env plain idx known with
  | nil =>
    cases h
    refine ⟨env, rfl, fun id mem => same.agree id ?_⟩
    simpa [neededFrom] using mem
  | cons group rest ih =>
    obtain ⟨piece, planned⟩ := planPieces_cons (constantIds g) (outputIds g) group rest
    rw [List.flatMap_cons, evalTop, List.map_append] at h
    obtain ⟨mid, first, tail⟩ := execAll_append_ok.mp h
    obtain ⟨out, ran, agree⟩ :=
      piece_agrees (luck idx) placed declared ready same planned first
    have next := (piece_ready (luck idx) declared fixed ready planned).2 out ran
    have same' := matches_next placed declared ready same first agree
    obtain ⟨final, more, outputs⟩ := @ih _ out mid (idx + 1) next same' tail
    rw [planned, evalPieces, ran]
    exact ⟨final, more, outputs⟩

/-- The dtypes of a graph say which of its constants and results are complex, and every
    node returns one value for each id it defines. -/
structure Truthful (S : Sem (Val T)) (set : Setting) (g : Graph) : Prop where
  constants : ∀ c ∈ g.constants, ∀ v, makeConstant S set.blobs c = .ok v →
    v.isCx = c.dtype.isComplex
  nodes : ∀ n ∈ g.nodes, Declared S set n

variable {values : List (Val T)} {args : List T}

theorem made_tags (truthful : Truthful S set g)
    (made : g.constants.mapM (makeConstant S set.blobs) = .ok values) :
    values.map Val.isCx = (g.constants.map (·.dtype)).map Dtype.isComplex := by
  have all := truthful.constants
  revert made all
  generalize g.constants = constants
  intro made all
  induction constants generalizing values with
  | nil =>
    cases made
    rfl
  | cons c rest ih =>
    simp only [List.mapM_cons, bind, Except.bind] at made
    cases here : makeConstant S set.blobs c with
    | error e => simp [here] at made
    | ok v =>
      cases tail : rest.mapM (makeConstant S set.blobs) with
      | error e => simp [here, tail] at made
      | ok vs =>
        simp only [here, tail, pure, Except.pure, Except.ok.injEq] at made
        subst made
        have later := ih tail fun c mem => all c (List.mem_cons_of_mem _ mem)
        simp only [List.map_cons, later, all c (List.mem_cons_self ..) v here]

theorem zipWith_wrap_tags {dtypes : List Dtype} {ts : List T} (len : ts.length = dtypes.length) :
    (List.zipWith wrap dtypes ts).map Val.isCx = dtypes.map Dtype.isComplex := by
  induction dtypes generalizing ts with
  | nil => rfl
  | cons d rest ih =>
    cases ts with
    | nil => simp at len
    | cons t ts =>
      have tail := @ih ts (by simpa using len)
      have here : (wrap d t).isCx = d.isComplex := by
        cases kind : d.isComplex <;> simp [wrap, kind, Val.isCx]
      simp only [List.zipWith_cons_cons, List.map_cons, tail, here]

theorem constants_present (made : values.length = g.constants.length) :
    ∀ id ∈ constantIds g, (constantEnv g values id).isSome := by
  intro id mem
  exact assign_present (by simpa [constantIds] using made) mem

theorem start_ready (placed : WellPlaced g) (made : values.length = g.constants.length)
    (count : args.length = g.inputs.length) {groups : List Group}
    (whole : groups.flatMap Group.nodes = g.nodes) :
    Ready g (fun id => id ∈ g.inputs.map (·.id) ++ g.constants.map (·.id)) groups
      (startEnv g values args) where
  topo := whole ▸ placed.topo
  nodes n mem := whole ▸ mem
  inside id mem := List.mem_append_left _ mem
  constants id mem := List.mem_append_right _ mem
  present := by
    intro id _ mem
    rcases List.mem_append.mp mem with input | constant
    · exact assign_present (by simp [count]) input
    · exact assign_keeps (constants_present made id constant)

theorem start_matches (placed : WellPlaced g) (truthful : Truthful S set g)
    (made : g.constants.mapM (makeConstant S set.blobs) = .ok values)
    (count : args.length = g.inputs.length) (groups : List Group) :
    Matches g (constantEnv g values) groups (startEnv g values args) (startEnv g values args) := by
  obtain ⟨front, _, _⟩ := List.nodup_append.mp placed.distinct
  obtain ⟨inputs, constants, apart⟩ := List.nodup_append.mp front
  refine ⟨fun id _ => rfl, ?_, ?_⟩
  · intro id constant
    exact assign_other fun input => apart id input id constant rfl
  · refine tagged_assign placed inputs (by simp) ?_ ?_ (zipWith_wrap_tags (by simpa using count))
    · intro entry mem
      rw [List.zip_map'] at mem
      simp only [idDtypes, List.mem_reverse, List.mem_append]
      exact Or.inl (Or.inl mem)
    · refine tagged_assign placed constants (by simp) ?_ ?_ (made_tags truthful made)
      · intro entry mem
        have pair : entry ∈ (g.constants.map (·.id)).zip (g.constants.map (·.dtype)) := mem
        rw [List.zip_map'] at pair
        simp only [idDtypes, List.mem_reverse, List.mem_append]
        exact Or.inl (Or.inr pair)
      · intro id v value
        cases value

theorem readOutputs_agree {out : Env (Val T)} (agree : AgreeOn (· ∈ outputIds g) after out) :
    readOutputs g (.ok out) = readOutputs g (.ok after) := by
  simp only [readOutputs, fetch_agree agree fun id mem => mem]

/-- Segmented execution of an accepted graph that declares its types truthfully: whatever
    segments fail, it misses no id and returns what plain execution returns. -/
theorem segments_agree {maxNodes : Nat}
    (accepted : Validate.validate g.toWire set.blobs maxNodes = .ok ())
    (truthful : Truthful S set g)
    (made : g.constants.mapM (makeConstant S set.blobs) = .ok values)
    (count : args.length = g.inputs.length) (luck : Nat → Luck) :
    (graphRun S set g values luck args).missed = [] ∧
      ∀ outs, plainRun S set g values args = .ok outs →
        readOutputs g (graphRun S set g values luck args).result = .ok outs := by
  have placed := wellPlaced_of_accepted (Wire.validate_wire.mp accepted)
  have len : values.length = g.constants.length := by
    simpa using congrArg List.length (made_tags truthful made)
  simp only [graphRun]
  cases plan : (if eager g = true then planSegments g else none) with
  | none =>
    have whole : [Group.jit g.nodes].flatMap Group.nodes = g.nodes := by simp [Group.nodes]
    have ready := start_ready placed len count whole
    exact ⟨(group_ready truthful.nodes ready).1, fun outs h => h⟩
  | some pieces =>
    have planned : pieces = planPieces (constantIds g) (outputIds g) (planGroups g.nodes []) := by
      split at plan
      · simp only [planSegments] at plan
        split at plan
        · exact (Option.some.inj plan).symm
        · cases plan
      · cases plan
    have whole := planGroups_nodes g.nodes []
    have ready := start_ready placed len count whole
    have fixed := constants_present len
    rw [planned]
    refine ⟨pieces_ready truthful.nodes fixed ready, fun outs h => ?_⟩
    rw [plainRun] at h
    cases ran : evalTop S set g.nodes (startEnv g values args) with
    | error e => simp [ran, readOutputs] at h
    | ok after =>
      have same := start_matches placed truthful made count (planGroups g.nodes [])
      obtain ⟨out, done, agree⟩ :=
        pieces_agree placed truthful.nodes fixed ready same (by rw [whole]; exact ran)
      rw [done, readOutputs_agree agree, ← ran]
      exact h

/-! Whiles. A while that declares as many outputs as it has inputs and as its body returns,
    all of them real, keeps its word; the validator checks none of this. -/

theorem interpret_length {V : Type} {S : Sem V} {blobs : List Blob} {fuel : Nat} {sym : List Nat}
    {inputs : List InputSpec} {constants : List Constant} {nodes : List Node}
    {outputs : List OutputSpec} {params outs : List V}
    (h : interpret S blobs fuel (.mk inputs constants nodes outputs) sym params = .ok outs) :
    outs.length = outputs.length := by
  simp only [interpret, bind, Except.bind] at h
  split at h
  · cases h
  · split at h
    · cases h
    · simpa using fetch_length h

theorem whileLoop_keeps {V : Type} {S : Sem V} {cond body : List V → Except EvalError (List V)}
    {n : Nat} (count : ∀ s outs, body s = .ok outs → outs.length = n) {fuel : Nat}
    {state final : List V} (len : state.length = n) (real : state.all S.isTensor = true)
    (h : whileLoop S cond body fuel state = .ok final) :
    final.length = n ∧ final.all S.isTensor = true := by
  induction fuel generalizing state with
  | zero =>
    simp only [whileLoop, bind, Except.bind] at h
    split at h
    · cases h
    · split at h
      · cases h
      · split at h
        · cases h
        · cases h
          exact ⟨len, real⟩
  | succ fuel ih =>
    simp only [whileLoop, bind, Except.bind] at h
    split at h
    · cases h
    · split at h
      · cases h
      · split at h
        · split at h
          · cases h
          · rename_i next ran
            split at h
            · rename_i next_real
              exact ih (count _ _ ran) next_real h
            · cases h
        · cases h
          exact ⟨len, real⟩

theorem loop_declared {inputs : List Nat} {cond : SubGraph} {body_inputs : List InputSpec}
    {constants : List Constant} {nodes : List Node} {body_outputs : List OutputSpec}
    {outputs : List WhileOutput} (tensors : ∀ v : Val T, S.isTensor v = !v.isCx)
    (body_count : body_outputs.length = inputs.length) (count : outputs.length = inputs.length)
    (real : ∀ o ∈ outputs, o.dtype.isComplex = false) :
    Declared S set (.loop inputs cond (.mk body_inputs constants nodes body_outputs) outputs) := by
  intro vs outs len ran
  simp only [runNode] at ran
  split at ran
  · rename_i all_real
    obtain ⟨outs_len, outs_real⟩ := whileLoop_keeps (n := inputs.length)
      (fun s outs h => (interpret_length h).trans body_count) len all_real ran
    have plain_tags : outs.map Val.isCx = List.replicate outs.length false := by
      rw [List.eq_replicate_iff]
      refine ⟨by simp, ?_⟩
      intro b mem
      obtain ⟨v, here, rfl⟩ := List.mem_map.mp mem
      have tensor := List.all_eq_true.mp outs_real v here
      rw [tensors] at tensor
      simpa using tensor
    have real_tags : (outputs.map (·.dtype)).map Dtype.isComplex =
        List.replicate outputs.length false := by
      rw [List.eq_replicate_iff]
      refine ⟨by simp, ?_⟩
      intro b mem
      simp only [List.map_map, List.mem_map, Function.comp] at mem
      obtain ⟨o, here, rfl⟩ := mem
      exact real o here
    rw [plain_tags, nodeDtypes, real_tags, outs_len, count]
  · cases ran

/-- A while over `(x, go)` that leaves its state alone, and a conjugation after it. -/
def pausedWhile (outputs : List WhileOutput) (id source : Nat) (dtype : Dtype) : Graph where
  inputs := [⟨0, 0, [2], .f32⟩, ⟨1, 1, [], .u8⟩]
  constants := []
  nodes := [
    .loop [0, 1] (.mk [⟨0, 1, [], .u8⟩] [] [] [⟨0, [], .u8⟩])
      (.mk [⟨0, 0, [2], .f32⟩, ⟨1, 1, [], .u8⟩] [] [] [⟨0, [2], .f32⟩, ⟨1, [], .u8⟩]) outputs,
    .op id (.prim (.unary .conjugate) []) [source] [2] dtype]
  outputs := [⟨id, [2], dtype⟩]
  blobs := []

def negateOdd : List Int → List Int
  | re :: im :: rest => re :: -im :: negateOdd rest
  | rest => rest

/-- Tensors as lists of numbers, complex ones as real and imaginary parts in turn, with
    conjugation the only operation. -/
def conjugation : Sem (Val (List Int)) where
  number _ _ _ := none
  literal _ _ _ := none
  prim op _ vs _ dtype := match op, vs with
    | .unary .conjugate, [v] => match v, dtype.isComplex with
      | .plain t, false => some (.plain t)
      | .plain t, true => some (.cx (negateOdd (t.flatMap fun x => [x, 0])))
      | .cx t, true => some (.cx (negateOdd t))
      | .cx _, false => none
    | _, _ => none
  slice _ _ _ _ _ _ := none
  putSlice _ _ _ _ _ := none
  isTensor v := !v.isCx
  item _ := none
  truthy
    | .plain [n] => some (n != 0)
    | _ => none
  foldAcc _ _ _ := none
  foldParts _ _ := none
  foldFinish _ _ _ := none

def surplusOutput : Graph := pausedWhile [⟨2, [2], .f32⟩, ⟨3, [], .u8⟩, ⟨4, [], .f32⟩] 5 4 .f32

def complexOutput : Graph := pausedWhile [⟨2, [1], .c64⟩, ⟨3, [], .u8⟩] 4 2 .c64

/-- The validator accepts a while with more outputs than results, whose last id is then
    never set, and one with a real result declared complex, which a later segment wraps. -/
theorem untruthful_whiles :
    (Validate.validate surplusOutput.toWire [] Validate.maxNodes = .ok () ∧
      eager surplusOutput = true ∧
      (graphRun conjugation ⟨[], 1⟩ surplusOutput [] (fun _ => .jit) [[3, 4], [0]]).missed ≠ []) ∧
    Validate.validate complexOutput.toWire [] Validate.maxNodes = .ok () ∧
      eager complexOutput = true ∧
      plainRun conjugation ⟨[], 1⟩ complexOutput [] [[3, 4], [0]] = .ok [[3, 0, 4, 0]] ∧
      readOutputs complexOutput
        (graphRun conjugation ⟨[], 1⟩ complexOutput [] (fun _ => .jit) [[3, 4], [0]]).result =
          .ok [[3, -4]] :=
  ⟨⟨rfl, rfl, by decide⟩, rfl, rfl, rfl, rfl⟩

def quietWhile : Graph := pausedWhile [⟨2, [2], .f32⟩, ⟨3, [], .u8⟩] 4 2 .f32

theorem quietWhile_truthful : Truthful conjugation ⟨[], 1⟩ quietWhile := by
  constructor
  · intro c mem
    cases mem
  · intro n mem
    rcases List.mem_cons.mp mem with same | mem
    · subst same
      exact loop_declared (fun v => rfl) rfl rfl (by decide)
    · cases List.mem_singleton.mp mem
      intro vs outs len ran
      match vs, len with
      | [.plain t], _ =>
        cases ran
        rfl
      | [.cx t], _ => cases ran

theorem segments_agree_after_while :
    (graphRun conjugation ⟨[], 1⟩ quietWhile [] (fun _ => .jit) [[3, 4], [0]]).missed = [] ∧
      ∀ outs, plainRun conjugation ⟨[], 1⟩ quietWhile [] [[3, 4], [0]] = .ok outs →
        readOutputs quietWhile
          (graphRun conjugation ⟨[], 1⟩ quietWhile [] (fun _ => .jit) [[3, 4], [0]]).result =
            .ok outs := by
  have accepted : Validate.validate quietWhile.toWire (Setting.mk [] 1).blobs Validate.maxNodes =
      .ok () := by rfl
  exact segments_agree (g := quietWhile) accepted quietWhile_truthful rfl rfl _

end NxTinygrad.SegmentRuns
