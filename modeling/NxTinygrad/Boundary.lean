import NxTinygrad.SegmentRuns

/- The security boundary: what a graph that `validate` accepts can be relied on for, and
   how it rejects the others. -/
namespace NxTinygrad.Boundary
open IR Validate Wire Placement StraightLine Interpreter Segments SegmentRuns

/-! The parts of a graph as JSON. -/

def opOf (node : Json) : Option String := (node.field? "op").bind Json.str?

def attr (node : Json) (key : String) : Json :=
  ((node.field? "attrs").bind fun attrs => attrs.field? key).getD .null

def idOf (entity : Json) : Option Nat := (entity.field? "id").bind Json.nat?

/-- The id a reference stands for; `True` and `1.0` are found under 1. -/
def refOf (ref : Json) : Option Nat := ref.number?.bind fun n => if 0 ≤ n then some n.toNat else none

def definesOf (node : Json) : List Nat :=
  if opOf node = some "while" then (itemsOf node "outputs").filterMap idOf
  else [node].filterMap idOf

def argumentIds (graph : Json) : List Nat :=
  (itemsOf graph "inputs").filterMap idOf ++ (itemsOf graph "constants").filterMap idOf

def topIds (graph : Json) : List Nat :=
  argumentIds graph ++ (itemsOf graph "nodes").flatMap definesOf

inductive Follows : Json → Json → Prop where
  | here (sub : Json) : Follows sub sub
  | nested {sub node deep : Json} {key : String} : node ∈ itemsOf sub "nodes" →
      opOf node = some "while" → key ∈ ["cond", "body"] → Follows (attr node key) deep →
      Follows sub deep

def holds (node sub : Json) : Prop :=
  (opOf node = some "while" ∧ ∃ key ∈ ["cond", "body"], sub = attr node key) ∨
    ((∃ op ∈ foldOps, opOf node = some op) ∧ sub = attr node "fn")

def Followed (graph deep : Json) : Prop :=
  ∃ node ∈ itemsOf graph "nodes", ∃ sub, holds node sub ∧ Follows sub deep

def Known (level : Json) : Prop :=
  ∀ node ∈ itemsOf level "nodes", ∃ op ∈ supportedOps, opOf node = some op

structure SubSound (sub : Json) : Prop where
  object : sub.isObj = true
  lists : ∀ key ∈ subGraphKeys, ∃ items, sub.field? key = some (.arr items)
  outputs : itemsOf sub "outputs" ≠ []
  ops : Known sub

def DataSound (blobs : List Blob) (const : Json) : Prop :=
  ∀ j, const.field? "data_index" = some j → ∃ i blob dims dtype, j.nat? = some i ∧
    blobs[i]? = some blob ∧ (const.field? "shape").bind shape? = some dims ∧
    ((const.field? "dtype").bind Json.str?).bind Dtype.ofName? = some dtype ∧
    blob.length = dims.prod * dtype.itemsize

/-- One level of a graph: distinct ids, constants whose bytes are there, and references to ids that
    are defined before. -/
structure Linked (level : Json) (blobs : List Blob) : Prop where
  distinct : (topIds level).Nodup
  data : ∀ const ∈ itemsOf level "constants", DataSound blobs const
  refs : ∀ front node back, itemsOf level "nodes" = front ++ node :: back →
    ∀ ref ∈ itemsOf node "inputs", ∃ id ∈ argumentIds level ++ front.flatMap definesOf,
      refOf ref = some id
  outputs : ∀ out ∈ itemsOf level "outputs", ∃ id ∈ topIds level,
    (out.field? "node").bind refOf = some id

structure TopSound (graph : Json) (blobs : List Blob) (maxNodes : Nat) : Prop
    extends Linked graph blobs where
  count : (itemsOf graph "nodes").length ≤ maxNodes
  ops : Known graph

theorem getAttr_ok {j x : Json} {key : String} (h : getAttr j key = .ok x) :
    x = (j.field? key).getD .null := by
  cases j with
  | obj fields => exact (Except.ok.inj h).symm
  | _ => cases h

theorem isIn_ok {names : List String} {j : Json} (h : isIn names j = .ok true) :
    ∃ s ∈ names, j.str? = some s := by
  cases j with
  | str s => exact ⟨s, List.contains_iff_mem.mp (Except.ok.inj h), rfl⟩
  | arr items => cases h
  | obj fields => cases h
  | null => cases h
  | bool b => cases h
  | int n => cases h
  | float m e => cases h
  | nonFinite => cases h

theorem isDefined_ok {ids : List Nat} {ref : Json} (h : isDefined ids ref = .ok true) :
    ∃ id ∈ ids, refOf ref = some id := by
  have hit : (ref.number?).any (fun n => decide (0 ≤ n) && ids.contains n.toNat) = true := by
    cases ref with
    | arr items => cases h
    | obj fields => cases h
    | _ => exact Except.ok.inj h
  cases number : ref.number? with
  | none => simp [number] at hit
  | some n =>
    simp only [number, Option.any_some, Bool.and_eq_true, decide_eq_true_eq,
      List.contains_iff_mem] at hit
    exact ⟨n.toNat, hit.2, by simp [refOf, number, hit.1]⟩

theorem define_ok {t t' : Table} {entity : String} {ident : Json} {id : Nat}
    (h : define t entity ident = .ok (t', id)) :
    ident.nat? = some id ∧ id ∉ t.defined ∧ t' = { t with defined := id :: t.defined } := by
  unfold define at h
  split at h
  · cases h
  · rename_i n nat
    split at h
    · cases h
    · rename_i fresh
      cases h
      exact ⟨nat, by simpa using fresh, rfl⟩

theorem getAttr_bind {α : Type} {j x : Json} {key : String} {f : Json → Option α} {a : α}
    (h : getAttr j key = .ok x) (null : f .null = none) (value : f x = some a) :
    (j.field? key).bind f = some a := by
  have eq := getAttr_ok h
  cases field : j.field? key with
  | none =>
    rw [field] at eq
    subst eq
    exact absurd (null.symm.trans value) (by simp)
  | some y =>
    rw [field] at eq
    subst eq
    exact value

theorem checkSpec_ok {entity : String} {j : Json} {spec : List Nat × String}
    (h : checkSpec entity j = .ok spec) :
    (j.field? "shape").bind shape? = some spec.1 ∧
      ∃ d, ((j.field? "dtype").bind Json.str?).bind Dtype.ofName? = some d ∧ d.name = spec.2 := by
  simp only [checkSpec, bind_eq_ok, check_ok] at h
  obtain ⟨shape, at_shape, _, good, dtype, at_dtype, _, found, _, rfl, same⟩ := h
  obtain ⟨dims, at_dims⟩ := Option.isSome_iff_exists.mp good
  obtain ⟨name, known, str⟩ := isIn_ok found
  obtain ⟨d, _, rfl⟩ := List.mem_map.mp known
  simp only [at_dims, str, Option.getD_some, Except.ok.injEq] at same
  subst same
  refine ⟨getAttr_bind at_shape rfl at_dims, d, ?_, rfl⟩
  rw [getAttr_bind at_dtype rfl str]
  exact dtype_ofName d

def Recorded (t : Table) : Prop := ∀ id ∈ t.defined, (t.specs.lookup id).isSome

/-- What a step of the validation adds to its table. -/
structure Grows (t : Table) (ids : List Nat) (t' : Table) : Prop where
  defined : t'.defined = ids.reverse ++ t.defined
  distinct : t.defined.Nodup → t'.defined.Nodup
  recorded : Recorded t → Recorded t'

theorem grows_refl (t : Table) : Grows t [] t := ⟨rfl, id, id⟩

theorem grows_trans {t mid t' : Table} {ids ids' : List Nat} (first : Grows t ids mid)
    (second : Grows mid ids' t') : Grows t (ids ++ ids') t' where
  defined := by rw [second.defined, first.defined, List.reverse_append, List.append_assoc]
  distinct start := second.distinct (first.distinct start)
  recorded start := second.recorded (first.recorded start)

theorem grows_entry {t mid : Table} {entity : String} {ident : Json} {id : Nat}
    (h : define t entity ident = .ok (mid, id)) (spec : List Nat × String) :
    ident.nat? = some id ∧ Grows t [id] (mid.record id spec) := by
  obtain ⟨nat, fresh, same⟩ := define_ok h
  subst same
  refine ⟨nat, rfl, fun start => List.nodup_cons.mpr ⟨fresh, start⟩, fun start x mem => ?_⟩
  simp only [Table.record, List.lookup_cons]
  split
  · rfl
  · rename_i other
    rcases List.mem_cons.mp mem with same | old
    · simp [same] at other
    · exact start x old

theorem foldTable_grows {f : Table → Json → Except PyError Table} {defs : Json → List Nat}
    (one : ∀ t x t', f t x = .ok t' → Grows t (defs x) t') {t t' : Table} {xs : List Json}
    (h : foldTable f t xs = .ok t') : Grows t (xs.flatMap defs) t' := by
  induction xs generalizing t with
  | nil =>
    cases h
    exact grows_refl _
  | cons x rest ih =>
    obtain ⟨mid, first, tail⟩ := bind_eq_ok.mp h
    exact grows_trans (one t x mid first) (ih tail)

theorem flatMap_singleton_filterMap (xs : List Json) :
    (xs.flatMap fun x => [x].filterMap idOf) = xs.filterMap idOf := by
  induction xs with
  | nil => rfl
  | cons x rest ih =>
    rw [List.flatMap_cons, ih]
    cases id : idOf x <;> simp [id]

theorem input_grows {t t' : Table} {inp : Json} (h : validateInput t inp = .ok t') :
    Grows t ([inp].filterMap idOf) t' := by
  simp only [validateInput, bind_eq_ok, check_ok] at h
  obtain ⟨ident, at_id, ⟨mid, id⟩, defines, _, _, _, _, spec, _, same⟩ := h
  obtain ⟨nat, grows⟩ := grows_entry defines spec
  have new : idOf inp = some id := getAttr_bind at_id rfl nat
  cases same
  simpa [new] using grows

theorem whileOutput_grows {t t' : Table} {out : Json} (h : validateWhileOutput t out = .ok t') :
    Grows t ([out].filterMap idOf) t' := by
  simp only [validateWhileOutput, bind_eq_ok] at h
  obtain ⟨ident, at_id, ⟨mid, id⟩, defines, spec, _, same⟩ := h
  obtain ⟨nat, grows⟩ := grows_entry defines spec
  have new : idOf out = some id := getAttr_bind at_id rfl nat
  cases same
  simpa [new] using grows

theorem getItem_ok {j x : Json} {key : String} (h : getItem j key = .ok x) :
    j.field? key = some x := by
  unfold getItem at h
  split at h
  · rename_i y field
    exact field.trans (congrArg some (Except.ok.inj h))
  · cases h

theorem checkData_ok {blobs : List Blob} {const : Json} {spec : List Nat × String} {d : Dtype}
    (h : checkData blobs const spec = .ok ()) (dtype : d.name = spec.2) :
    ∃ j i blob, const.field? "data_index" = some j ∧ j.nat? = some i ∧ blobs[i]? = some blob ∧
      blob.length = spec.1.prod * d.itemsize := by
  simp only [checkData, bind_eq_ok, check_ok] at h
  obtain ⟨j, at_index, _, range, size⟩ := h
  cases index : j.nat? with
  | none => simp [index] at range
  | some i =>
    simp only [index, Option.any_some, decide_eq_true_eq] at range
    simp only [index, Option.getD_some, decide_eq_true_eq, ← dtype, dtype_ofName, Option.map_some,
      List.getD_eq_getElem?_getD, List.getElem?_eq_getElem range] at size
    exact ⟨j, i, blobs[i], getItem_ok at_index, index, List.getElem?_eq_getElem range, size⟩

theorem constant_ok {blobs : List Blob} {t t' : Table} {const : Json}
    (h : validateConstant blobs t const = .ok t') :
    Grows t ([const].filterMap idOf) t' ∧ DataSound blobs const := by
  simp only [validateConstant, bind_eq_ok, check_ok] at h
  obtain ⟨ident, at_id, ⟨mid, id⟩, defines, spec, specified, _, _, rest⟩ := h
  obtain ⟨nat, grows⟩ := grows_entry defines spec
  obtain ⟨dims, d, dtype, name⟩ := checkSpec_ok specified
  have new : idOf const = some id := getAttr_bind at_id rfl nat
  cases field : const.field? "data_index" with
  | none =>
    simp only [field, Option.isSome_none, Bool.false_eq_true, if_false, bind_eq_ok] at rest
    obtain ⟨_, _, same⟩ := rest
    cases same
    exact ⟨by simpa [new] using grows, fun j there => by cases field.symm.trans there⟩
  | some j =>
    simp only [field, Option.isSome_some, if_true, bind_eq_ok] at rest
    obtain ⟨_, data, same⟩ := rest
    cases same
    refine ⟨by simpa [new] using grows, ?_⟩
    intro j' field'
    obtain ⟨j'', i, blob, field'', index, there, size⟩ := checkData_ok data name
    cases field'.symm.trans field''
    exact ⟨i, blob, spec.1, d, index, there, dims, dtype, size⟩

theorem items_ok {j x : Json} {key : String} (h : getAttr j key = .ok x) :
    x.items?.getD [] = itemsOf j key := by
  rw [getAttr_ok h, itemsOf]
  cases j.field? key <;> rfl

theorem attr_ok {node attrs x : Json} {key : String} (there : getItem node "attrs" = .ok attrs)
    (h : getAttr attrs key = .ok x) : x = attr node key := by
  rw [getAttr_ok h, attr, getItem_ok there]
  rfl

theorem op_ok {node op : Json} (at_op : getAttr node "op" = .ok op)
    (supported : isIn supportedOps op = .ok true) :
    ∃ name ∈ supportedOps, op.str? = some name ∧ opOf node = some name := by
  obtain ⟨name, known, str⟩ := isIn_ok supported
  exact ⟨name, known, str, getAttr_bind at_op rfl str⟩

theorem subgraph_ok {room : Nat} {sub : Json} (h : validateSubgraph room sub = .ok ()) :
    SubSound sub ∧ ∀ node ∈ itemsOf sub "nodes", opOf node = some "while" →
      ∀ key ∈ ["cond", "body"], ∃ room, validateSubgraph room (attr node key) = .ok () := by
  cases room with
  | zero => cases h
  | succ room =>
    simp only [validateSubgraph, bind_eq_ok, check_ok, forEach_ok] at h
    obtain ⟨_, object, _, lists, outputs, at_outputs, _, some_output, nodes, at_nodes, each⟩ := h
    have outputs_eq : outputs.items?.getD [] = itemsOf sub "outputs" := by
      rw [itemsOf, getItem_ok at_outputs]
      rfl
    have nodes_eq : nodes.items?.getD [] = itemsOf sub "nodes" := by
      rw [itemsOf, getItem_ok at_nodes]
      rfl
    rw [nodes_eq] at each
    refine ⟨⟨object, ?_, ?_, ?_⟩, ?_⟩
    · intro key mem
      obtain ⟨x, at_key, items⟩ := bind_eq_ok.mp (forEach_ok.mp lists key mem)
      rw [check_ok] at items
      obtain ⟨xs, list⟩ := Option.isSome_iff_exists.mp items
      have found := getAttr_bind at_key rfl list
      cases field : sub.field? key with
      | none => simp [field] at found
      | some y =>
        rw [field] at found
        cases y with
        | arr ys => exact ⟨ys, rfl⟩
        | _ => cases found
    · rw [outputs_eq] at some_output
      exact List.length_pos_iff.mp (of_decide_eq_true some_output)
    · intro node mem
      obtain ⟨op, at_op, _, supported, _, rfl, _⟩ := each node mem
      obtain ⟨name, known, _, op_eq⟩ := op_ok at_op supported
      exact ⟨name, known, op_eq⟩
    · intro node mem loop key which
      obtain ⟨op, at_op, _, supported, _, rfl, nested⟩ := each node mem
      obtain ⟨name, _, str, op_eq⟩ := op_ok at_op supported
      cases op_eq.symm.trans loop
      simp only [str, if_true, bind_eq_ok] at nested
      obtain ⟨attrs, at_attrs, cond, at_cond, _, first, body, at_body, second⟩ := nested
      rcases List.mem_cons.mp which with same | which
      · subst same
        exact ⟨room, attr_ok at_attrs at_cond ▸ first⟩
      · cases List.mem_singleton.mp which
        exact ⟨room, attr_ok at_attrs at_body ▸ second⟩

theorem followed_ok {sub deep : Json} (follows : Follows sub deep) {room : Nat}
    (h : validateSubgraph room sub = .ok ()) : SubSound deep := by
  induction follows generalizing room with
  | here sub => exact (subgraph_ok h).1
  | nested mem loop which _ ih =>
    obtain ⟨room, inner⟩ := (subgraph_ok h).2 _ mem loop _ which
    exact ih inner

theorem isWhile_iff {node op : Json} {name : String} (str : op.str? = some name)
    (op_eq : opOf node = some name) : op.str? = some "while" ↔ opOf node = some "while" := by
  rw [str, op_eq]

theorem node_ok {room : Nat} {t t' : Table} {node : Json} (h : validateNode room t node = .ok t') :
    (∃ op ∈ supportedOps, opOf node = some op) ∧
      (∀ ref ∈ itemsOf node "inputs", ∃ id ∈ t.defined, refOf ref = some id) ∧
      Grows t (definesOf node) t' ∧
      ∀ sub, holds node sub → validateSubgraph room sub = .ok () := by
  simp only [validateNode, bind_eq_ok, check_ok] at h
  obtain ⟨op, at_op, _, supported, _, rfl, inputs, at_inputs, _, _, _, refs, attrs, _, _, _, rest⟩ := h
  obtain ⟨name, known, str, op_eq⟩ := op_ok at_op supported
  refine ⟨⟨name, known, op_eq⟩, ?_, ?_⟩
  · intro ref mem
    rw [items_ok at_inputs] at refs
    obtain ⟨_, found, hit⟩ := bind_eq_ok.mp (forEach_ok.mp refs ref mem)
    rw [check_ok.mp hit] at found
    exact isDefined_ok found
  · split at rest
    · rename_i loop
      have is_loop := (isWhile_iff str op_eq).mp loop
      simp only [validateWhile, bind_eq_ok, check_ok] at rest
      obtain ⟨outs, at_outs, _, _, mid, chain, attrs, at_attrs, cond, at_cond, _, first, body,
        at_body, _, second, same⟩ := rest
      cases same
      rw [items_ok at_outs] at chain
      have grows : Grows t ((itemsOf node "outputs").flatMap fun out => [out].filterMap idOf) t' :=
        foldTable_grows (fun _ _ _ h => whileOutput_grows h) chain
      rw [flatMap_singleton_filterMap] at grows
      refine ⟨by simpa [definesOf, is_loop] using grows, ?_⟩
      rintro sub (⟨_, key, which, rfl⟩ | ⟨⟨fold, folds, is_fold⟩, _⟩)
      · rcases List.mem_cons.mp which with rfl | which
        · exact attr_ok at_attrs at_cond ▸ first
        · cases List.mem_singleton.mp which
          exact attr_ok at_attrs at_body ▸ second
      · cases is_loop.symm.trans is_fold
        exact absurd folds (by decide)
    · rename_i plain
      have not_loop : opOf node ≠ some "while" := fun h => plain ((isWhile_iff str op_eq).mpr h)
      simp only [validatePlain, bind_eq_ok] at rest
      obtain ⟨ident, at_id, ⟨mid, id⟩, defines, spec, _, rest⟩ := rest
      obtain ⟨nat, grows⟩ := grows_entry defines spec
      have new : idOf node = some id := getAttr_bind at_id rfl nat
      have added : definesOf node = [id] := by simp [definesOf, not_loop, new]
      rw [added]
      split at rest
      · simp only [bind_eq_ok] at rest
        obtain ⟨attrs, at_attrs, fn, at_fn, _, inner, same⟩ := rest
        cases same
        refine ⟨grows, ?_⟩
        rintro sub (⟨loop, _⟩ | ⟨_, rfl⟩)
        · exact absurd loop not_loop
        · exact attr_ok at_attrs at_fn ▸ inner
      · rename_i not_fold
        cases bind_eq_ok.mp rest with | intro _ done => ?_
        cases done.2
        refine ⟨grows, ?_⟩
        rintro sub (⟨loop, _⟩ | ⟨⟨fold, folds, is_fold⟩, _⟩)
        · exact absurd loop not_loop
        · cases op_eq.symm.trans is_fold
          refine absurd ?_ not_fold
          simpa [str] using folds

theorem output_ok {t : Table} {out : Json} (h : validateOutput t out = .ok ()) :
    ∃ id ∈ t.defined, (out.field? "node").bind refOf = some id := by
  simp only [validateOutput, bind_eq_ok, check_ok] at h
  obtain ⟨ref, at_ref, _, found, _, rfl, _⟩ := h
  obtain ⟨id, mem, eq⟩ := isDefined_ok found
  exact ⟨id, mem, getAttr_bind at_ref rfl eq⟩

theorem foldTable_split {f : Table → Json → Except PyError Table} {t t' : Table}
    {front back : List Json} {x : Json} (h : foldTable f t (front ++ x :: back) = .ok t') :
    ∃ mid next, foldTable f t front = .ok mid ∧ f mid x = .ok next := by
  induction front generalizing t with
  | nil =>
    obtain ⟨next, first, _⟩ := bind_eq_ok.mp h
    exact ⟨t, next, rfl, first⟩
  | cons y rest ih =>
    obtain ⟨next, first, tail⟩ := bind_eq_ok.mp h
    obtain ⟨mid, last, inner, here⟩ := ih tail
    exact ⟨mid, last, bind_eq_ok.mpr ⟨next, first, inner⟩, here⟩

theorem foldTable_all {f : Table → Json → Except PyError Table} {t t' : Table} {xs : List Json}
    (h : foldTable f t xs = .ok t') : ∀ x ∈ xs, ∃ mid next, f mid x = .ok next := by
  intro x mem
  obtain ⟨front, back, rfl⟩ := List.append_of_mem mem
  obtain ⟨mid, next, _, here⟩ := foldTable_split h
  exact ⟨mid, next, here⟩

theorem inputs_grow {t t' : Table} {xs : List Json} (h : foldTable validateInput t xs = .ok t') :
    Grows t (xs.filterMap idOf) t' := by
  have grows : Grows t (xs.flatMap fun x => [x].filterMap idOf) t' :=
    foldTable_grows (fun _ _ _ h => input_grows h) h
  rwa [flatMap_singleton_filterMap] at grows

theorem constants_grow {blobs : List Blob} {t t' : Table} {xs : List Json}
    (h : foldTable (validateConstant blobs) t xs = .ok t') : Grows t (xs.filterMap idOf) t' := by
  have grows : Grows t (xs.flatMap fun x => [x].filterMap idOf) t' := by
    refine foldTable_grows ?_ h
    intro t const t' accepted
    exact (constant_ok accepted).1
  rwa [flatMap_singleton_filterMap] at grows

theorem nodes_grow {room : Nat} {t t' : Table} {nodes : List Json}
    (h : foldTable (validateNode room) t nodes = .ok t') : Grows t (nodes.flatMap definesOf) t' := by
  refine foldTable_grows ?_ h
  intro t node t' accepted
  exact (node_ok accepted).2.2.1

theorem accepted_sound {graph : Json} {blobs : List Blob} {maxNodes : Nat}
    (h : validate graph blobs maxNodes = .ok ()) :
    TopSound graph blobs maxNodes ∧ ∀ sub, Followed graph sub → SubSound sub := by
  simp only [validate, bind_eq_ok, check_ok, decide_eq_true_eq] at h
  obtain ⟨_, _, _, _, _, _, _, _, _, count, t₁, inputs, _, _, t₂, constants, t₃, nodes, _, _, outs⟩ := h
  have at_inputs := inputs_grow inputs
  have at_constants := constants_grow constants
  have arguments : Grows ⟨[], []⟩ (argumentIds graph) t₂ := grows_trans at_inputs at_constants
  have all : Grows ⟨[], []⟩ (topIds graph) t₃ :=
    grows_trans arguments (nodes_grow nodes)
  have known : ∀ id, id ∈ t₃.defined → id ∈ topIds graph := by
    intro id mem
    rw [all.defined] at mem
    simpa using mem
  refine ⟨⟨⟨?_, ?_, ?_, ?_⟩, count, ?_⟩, ?_⟩
  · have nodup := all.distinct List.nodup_nil
    rw [all.defined, List.append_nil] at nodup
    exact List.nodup_reverse.mp nodup
  · intro const mem
    obtain ⟨_, _, here⟩ := foldTable_all constants const mem
    exact (constant_ok here).2
  · intro front node back split ref mem
    rw [split] at nodes
    obtain ⟨mid, next, before, here⟩ := foldTable_split nodes
    obtain ⟨id, defined, eq⟩ := (node_ok here).2.1 ref mem
    have grown := grows_trans arguments (nodes_grow before)
    rw [grown.defined] at defined
    exact ⟨id, by simpa [or_comm] using defined, eq⟩
  · intro out mem
    obtain ⟨id, defined, eq⟩ := output_ok (forEach_ok.mp outs out mem)
    exact ⟨id, known id defined, eq⟩
  · intro node mem
    obtain ⟨_, _, here⟩ := foldTable_all nodes node mem
    exact (node_ok here).1
  · rintro deep ⟨node, mem, sub, held, follows⟩
    obtain ⟨_, _, here⟩ := foldTable_all nodes node mem
    exact followed_ok follows ((node_ok here).2.2.2 sub held)

def hashable : Json → Bool
  | .arr _ | .obj _ => false
  | _ => true

def Entry (j : Json) : Prop :=
  j.isObj = true ∧ ∀ key ∈ ["op", "dtype", "node"], ∀ x, j.field? key = some x → hashable x = true

structure SubReadable (sub : Json) : Prop where
  nodes : ∀ node ∈ itemsOf sub "nodes", Entry node
  attrs : ∀ node ∈ itemsOf sub "nodes", opOf node = some "while" →
    ∃ attrs, node.field? "attrs" = some attrs ∧ attrs.isObj = true

/-- A graph that `validate` can read, whether or not it accepts it. -/
structure Readable (graph : Json) : Prop where
  entries : ∀ key ∈ subGraphKeys, ∀ entry ∈ itemsOf graph key, Entry entry
  refs : ∀ node ∈ itemsOf graph "nodes", ∀ ref ∈ itemsOf node "inputs", hashable ref = true
  outputs : ∀ node ∈ itemsOf graph "nodes", ∀ out ∈ itemsOf node "outputs", Entry out
  subs : ∀ sub, Followed graph sub → SubReadable sub

def Caught {α : Type} (r : Except PyError α) : Prop := ∀ e, r = .error e → ∃ v, e = .graphValidation v

theorem caught_ok {α : Type} (a : α) : Caught (.ok a : Except PyError α) := by
  intro e h
  cases h

theorem caught_check (cond : Bool) (v : Violation) : Caught (check cond v) := by
  intro e h
  unfold check at h
  split at h
  · cases h
  · exact ⟨v, (Except.error.inj h).symm⟩

theorem caught_bind {α β : Type} {x : Except PyError α} {f : α → Except PyError β} (first : Caught x)
    (next : ∀ a, x = .ok a → Caught (f a)) : Caught (x >>= f) := by
  intro e h
  rcases bind_error h with here | ⟨a, here, later⟩
  · exact first e here
  · exact next a here e later

theorem caught_check_bind {β : Type} {cond : Bool} {v : Violation} {f : Unit → Except PyError β}
    (next : cond = true → Caught (f ())) : Caught (check cond v >>= f) := by
  refine caught_bind (caught_check cond v) ?_
  intro _ passed
  exact next (check_ok.mp passed)

theorem caught_forEach {α : Type} {f : α → Except PyError Unit} {xs : List α}
    (each : ∀ x ∈ xs, Caught (f x)) : Caught (forEach f xs) := by
  induction xs with
  | nil => exact caught_ok ()
  | cons x rest ih =>
    refine caught_bind (each x (List.mem_cons_self ..)) ?_
    intro _ _
    exact ih fun y mem => each y (List.mem_cons_of_mem _ mem)

theorem caught_getAttr {j : Json} (object : j.isObj = true) (key : String) :
    Caught (getAttr j key) := by
  cases j with
  | obj fields => exact caught_ok _
  | _ => cases object

theorem caught_getItem {j x : Json} {key : String} (field : j.field? key = some x) :
    Caught (getItem j key) := by
  rw [getItem, field]
  exact caught_ok x

theorem hashable_attr {j x : Json} {key : String} (entry : Entry j)
    (mem : key ∈ ["op", "dtype", "node"]) (h : getAttr j key = .ok x) : hashable x = true := by
  rw [getAttr_ok h]
  cases field : j.field? key with
  | none => rfl
  | some y => exact entry.2 key mem y field

theorem caught_isIn {j : Json} (names : List String) (hash : hashable j = true) :
    Caught (isIn names j) := by
  cases j with
  | arr items => cases hash
  | obj fields => cases hash
  | _ => exact caught_ok _

theorem caught_isDefined {j : Json} (ids : List Nat) (hash : hashable j = true) :
    Caught (isDefined ids j) := by
  cases j with
  | arr items => cases hash
  | obj fields => cases hash
  | _ => exact caught_ok _

theorem caught_define (t : Table) (entity : String) (ident : Json) :
    Caught (define t entity ident) := by
  intro e h
  unfold define at h
  split at h
  · exact ⟨_, (Except.error.inj h).symm⟩
  · split at h
    · exact ⟨_, (Except.error.inj h).symm⟩
    · cases h

theorem caught_checkSpec {j : Json} (entity : String) (entry : Entry j) :
    Caught (checkSpec entity j) := by
  refine caught_bind (caught_getAttr entry.1 _) fun shape _ => ?_
  refine caught_check_bind fun _ => ?_
  refine caught_bind (caught_getAttr entry.1 _) fun dtype at_dtype => ?_
  refine caught_bind (caught_isIn _ (hashable_attr entry (by decide) at_dtype)) fun supported _ => ?_
  exact caught_check_bind fun _ => caught_ok _

theorem caught_input {t : Table} {inp : Json} (entry : Entry inp) : Caught (validateInput t inp) := by
  refine caught_bind (caught_getAttr entry.1 _) fun ident _ => ?_
  refine caught_bind (caught_define _ _ _) fun defined _ => ?_
  refine caught_bind (caught_getAttr entry.1 _) fun index _ => ?_
  refine caught_check_bind fun _ => ?_
  exact caught_bind (caught_checkSpec _ entry) fun spec _ => caught_ok _

theorem caught_whileOutput {t : Table} {out : Json} (entry : Entry out) :
    Caught (validateWhileOutput t out) := by
  refine caught_bind (caught_getAttr entry.1 _) fun ident _ => ?_
  refine caught_bind (caught_define _ _ _) fun defined _ => ?_
  exact caught_bind (caught_checkSpec _ entry) fun spec _ => caught_ok _

theorem caught_constant {blobs : List Blob} {t : Table} {const : Json} (entry : Entry const) :
    Caught (validateConstant blobs t const) := by
  refine caught_bind (caught_getAttr entry.1 _) fun ident _ => ?_
  refine caught_bind (caught_define _ _ _) fun defined _ => ?_
  refine caught_bind (caught_checkSpec _ entry) fun spec _ => ?_
  refine caught_check_bind fun _ => ?_
  split
  · rename_i present
    obtain ⟨j, field⟩ := Option.isSome_iff_exists.mp present
    refine caught_bind ?_ fun _ _ => caught_ok _
    refine caught_bind (caught_getItem field) fun index _ => ?_
    refine caught_check_bind fun _ => ?_
    exact caught_check _ _
  · exact caught_bind (caught_ok ()) fun _ _ => caught_ok _

theorem caught_foldTable {f : Table → Json → Except PyError Table} {t : Table} {xs : List Json}
    (each : ∀ t, ∀ x ∈ xs, Caught (f t x)) : Caught (foldTable f t xs) := by
  induction xs generalizing t with
  | nil => exact caught_ok t
  | cons x rest ih =>
    refine caught_bind (each t x (List.mem_cons_self ..)) fun mid _ => ?_
    exact ih fun t y mem => each t y (List.mem_cons_of_mem _ mem)

theorem depth_attr_le (node : Json) (key : String) : (attr node key).depth ≤ node.depth := by
  unfold attr
  cases outer : node.field? "attrs" with
  | none => exact Nat.zero_le _
  | some attrs =>
    simp only [Option.bind_some]
    cases inner : attrs.field? key with
    | none => exact Nat.zero_le _
    | some x =>
      have first := Json.depth_field_lt outer
      have second := Json.depth_field_lt inner
      simp only [Option.getD_some]
      omega

theorem mem_itemsOf {j node : Json} {key : String} (mem : node ∈ itemsOf j key) :
    ∃ x items, j.field? key = some x ∧ x.items? = some items ∧ node ∈ items := by
  unfold itemsOf at mem
  cases field : j.field? key with
  | none => simp [field] at mem
  | some x =>
    cases list : x.items? with
    | none => simp [field, list] at mem
    | some items => exact ⟨x, items, rfl, list, by simpa [field, list] using mem⟩

theorem depth_attr {sub node : Json} {key : String} (mem : node ∈ itemsOf sub "nodes") :
    (attr node key).depth + 1 < sub.depth := by
  obtain ⟨x, items, field, list, here⟩ := mem_itemsOf mem
  have outer := Json.depth_field_lt field
  have inner := Json.depth_items_lt list here
  have le := depth_attr_le node key
  omega

theorem caught_subgraph {room : Nat} {sub : Json} (enough : sub.depth < room)
    (readable : ∀ deep, Follows sub deep → SubReadable deep) : Caught (validateSubgraph room sub) := by
  induction room generalizing sub with
  | zero => exact absurd enough (Nat.not_lt_zero _)
  | succ room ih =>
    have here := readable sub (Follows.here sub)
    have nested : ∀ node ∈ itemsOf sub "nodes", opOf node = some "while" → ∀ key ∈ ["cond", "body"],
        Caught (validateSubgraph room (attr node key)) := by
      intro node mem loop key which
      refine ih ?_ fun deep follows => readable deep (Follows.nested mem loop which follows)
      have inside : (attr node key).depth + 1 < sub.depth := depth_attr mem
      omega
    refine caught_check_bind fun object => ?_
    refine caught_bind (caught_forEach fun key _ => ?_) fun _ lists => ?_
    · exact caught_bind (caught_getAttr object key) fun x _ => caught_check _ _
    have present : ∀ key ∈ subGraphKeys, ∃ x, sub.field? key = some x := by
      intro key mem
      obtain ⟨x, at_key, items⟩ := bind_eq_ok.mp (forEach_ok.mp lists key mem)
      obtain ⟨xs, list⟩ := Option.isSome_iff_exists.mp (check_ok.mp items)
      have found := getAttr_bind at_key rfl list
      cases field : sub.field? key with
      | none => simp [field] at found
      | some y => exact ⟨y, rfl⟩
    obtain ⟨outputs, at_outputs⟩ := present "outputs" (by decide)
    obtain ⟨nodes, at_nodes⟩ := present "nodes" (by decide)
    refine caught_bind (caught_getItem at_outputs) fun _ _ => caught_check_bind fun _ => ?_
    refine caught_bind (caught_getItem at_nodes) fun nodes' got => caught_forEach fun node mem => ?_
    have mem' : node ∈ itemsOf sub "nodes" := by
      rw [itemsOf, getItem_ok got]
      exact mem
    have entry := here.nodes node mem'
    refine caught_bind (caught_getAttr entry.1 _) fun op at_op => ?_
    refine caught_bind (caught_isIn _ (hashable_attr entry (by decide) at_op)) fun supported _ => ?_
    refine caught_check_bind fun _ => ?_
    split
    · rename_i loop
      have is_loop : opOf node = some "while" := getAttr_bind at_op rfl loop
      obtain ⟨attrs, field, is_obj⟩ := here.attrs node mem' is_loop
      refine caught_bind (caught_getItem field) fun attrs' at_attrs => ?_
      cases field.symm.trans (getItem_ok at_attrs)
      refine caught_bind (caught_getAttr is_obj _) fun cond at_cond => ?_
      rw [attr_ok at_attrs at_cond]
      refine caught_bind (nested node mem' is_loop "cond" (by decide)) fun _ _ => ?_
      refine caught_bind (caught_getAttr is_obj _) fun body at_body => ?_
      rw [attr_ok at_attrs at_body]
      exact nested node mem' is_loop "body" (by decide)
    · exact caught_ok ()

theorem caught_node {graph node : Json} {t : Table} (readable : Readable graph)
    (mem : node ∈ itemsOf graph "nodes") : Caught (validateNode graph.depth t node) := by
  have entry := readable.entries "nodes" (by decide) node mem
  have nested : ∀ sub key, holds node sub → sub = attr node key →
      Caught (validateSubgraph graph.depth sub) := by
    intro sub key held same
    refine caught_subgraph ?_ fun deep follows => readable.subs deep ⟨node, mem, sub, held, follows⟩
    have inside : (attr node key).depth + 1 < graph.depth := depth_attr mem
    rw [same]
    omega
  refine caught_bind (caught_getAttr entry.1 _) fun op at_op => ?_
  refine caught_bind (caught_isIn _ (hashable_attr entry (by decide) at_op)) fun supported found => ?_
  refine caught_check_bind fun known => ?_
  rw [known] at found
  obtain ⟨name, _, str, op_eq⟩ := op_ok at_op found
  refine caught_bind (caught_getAttr entry.1 _) fun inputs at_inputs => ?_
  refine caught_check_bind fun _ => ?_
  refine caught_bind (caught_forEach fun ref here => ?_) fun _ _ => ?_
  · rw [items_ok at_inputs] at here
    refine caught_bind (caught_isDefined _ (readable.refs node mem ref here)) fun _ _ => ?_
    exact caught_check _ _
  refine caught_bind (caught_getAttr entry.1 _) fun attrs at_attrs => ?_
  refine caught_check_bind fun object => ?_
  have field : node.field? "attrs" = some attrs := by
    have eq := getAttr_ok at_attrs
    cases there : node.field? "attrs" with
    | none =>
      rw [there] at eq
      subst eq
      cases object
    | some x =>
      rw [there] at eq
      exact congrArg some eq.symm
  split
  · rename_i loop
    have is_loop := (isWhile_iff str op_eq).mp loop
    have held : ∀ key ∈ ["cond", "body"], holds node (attr node key) :=
      fun key which => Or.inl ⟨is_loop, key, which, rfl⟩
    refine caught_bind (caught_getAttr entry.1 _) fun outs at_outs => ?_
    refine caught_check_bind fun _ => ?_
    refine caught_bind (caught_foldTable fun t out here => ?_) fun _ _ => ?_
    · rw [items_ok at_outs] at here
      exact caught_whileOutput (readable.outputs node mem out here)
    refine caught_bind (caught_getItem field) fun attrs' got => ?_
    cases field.symm.trans (getItem_ok got)
    refine caught_bind (caught_getAttr object _) fun cond at_cond => ?_
    rw [attr_ok got at_cond]
    refine caught_bind (nested _ "cond" (held "cond" (by decide)) rfl) fun _ _ => ?_
    refine caught_bind (caught_getAttr object _) fun body at_body => ?_
    rw [attr_ok got at_body]
    exact caught_bind (nested _ "body" (held "body" (by decide)) rfl) fun _ _ => caught_ok _
  · refine caught_bind (caught_getAttr entry.1 _) fun ident _ => ?_
    refine caught_bind (caught_define _ _ _) fun defined _ => ?_
    refine caught_bind (caught_checkSpec _ entry) fun spec _ => ?_
    split
    · rename_i folds
      refine caught_bind (caught_getItem field) fun attrs' got => ?_
      cases field.symm.trans (getItem_ok got)
      refine caught_bind (caught_getAttr object _) fun fn at_fn => ?_
      rw [attr_ok got at_fn]
      refine caught_bind (nested _ "fn" (Or.inr ⟨⟨name, ?_, op_eq⟩, rfl⟩) rfl) fun _ _ => caught_ok _
      simpa [str] using folds
    · exact caught_bind (caught_ok ()) fun _ _ => caught_ok _

theorem caught_output {t : Table} {out : Json} (recorded : Recorded t) (entry : Entry out) :
    Caught (validateOutput t out) := by
  refine caught_bind (caught_getAttr entry.1 _) fun ref at_ref => ?_
  have hash := hashable_attr entry (by decide) at_ref
  refine caught_bind (caught_isDefined _ hash) fun found hit => ?_
  refine caught_check_bind fun known => ?_
  refine caught_bind (caught_checkSpec _ entry) fun spec _ => ?_
  rw [known] at hit
  obtain ⟨id, mem, eq⟩ := isDefined_ok hit
  have same : (ref.number?.getD 0).toNat = id := by
    unfold refOf at eq
    cases number : ref.number? with
    | none => simp [number] at eq
    | some n =>
      simp only [number, Option.bind_some] at eq
      split at eq
      · simpa using eq
      · cases eq
  obtain ⟨expected, there⟩ := Option.isSome_iff_exists.mp (recorded id mem)
  rw [same, there]
  refine caught_check_bind fun _ => ?_
  exact caught_check _ _

theorem rejected_caught {graph : Json} {blobs : List Blob} {maxNodes : Nat}
    (readable : Readable graph) : Caught (validate graph blobs maxNodes) := by
  refine caught_check_bind fun object => ?_
  refine caught_bind (caught_getAttr object _) fun found _ => ?_
  refine caught_check_bind fun _ => ?_
  refine caught_bind (caught_forEach fun key _ => ?_) fun _ _ => ?_
  · exact caught_bind (caught_getAttr object _) fun x _ => caught_check _ _
  refine caught_check_bind fun _ => ?_
  refine caught_bind (caught_foldTable fun t x mem => ?_) fun t₁ inputs => ?_
  · exact caught_input (readable.entries "inputs" (by decide) x mem)
  refine caught_check_bind fun _ => ?_
  refine caught_bind (caught_foldTable fun t x mem => ?_) fun t₂ constants => ?_
  · exact caught_constant (readable.entries "constants" (by decide) x mem)
  refine caught_bind (caught_foldTable fun t x mem => caught_node readable mem) fun t₃ nodes => ?_
  have recorded : Recorded t₃ := by
    have first : Recorded t₁ := (inputs_grow inputs).recorded fun id mem => by cases mem
    have second := (constants_grow constants).recorded first
    exact (nodes_grow nodes).recorded second
  refine caught_check_bind fun _ => ?_
  exact caught_forEach fun out mem =>
    caught_output recorded (readable.entries "outputs" (by decide) out mem)

end NxTinygrad.Boundary
