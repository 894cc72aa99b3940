import Mathlib.Data.List.Nodup
import NxTinygrad.Validate

/- What `validate` says about the wire map of a typed graph. -/
namespace NxTinygrad.Wire
open IR Validate

theorem nat_wireNat (n : Nat) : (wireNat n).nat? = some n := by
  simp [wireNat, Json.nat?, Json.int?]

theorem number_wireNat (n : Nat) : (wireNat n).number? = some (n : Int) := rfl

theorem mapM_wireNat (ns : List Nat) : (ns.map wireNat).mapM Json.nat? = some ns := by
  induction ns with
  | nil => rfl
  | cons n rest ih => simp [List.mapM_cons, nat_wireNat, ih]

theorem shape_wireNats (ns : List Nat) :
    shape? (wireNats ns) = if ns.length ≤ maxRank then some ns else none := by
  unfold shape?
  simp only [wireNats, Json.items?, Option.bind_some, List.length_map, mapM_wireNat]

theorem isDefined_wireNat (ids : List Nat) (n : Nat) :
    isDefined ids (wireNat n) = .ok (ids.contains n) := by
  simp [isDefined, wireNat, Json.number?, Json.int?]

theorem isIn_dtypeNames (d : Dtype) : isIn dtypeNames (.str d.name) = .ok true := by
  simp [isIn, dtype_name_mem]

theorem define_wireNat {t t' : Table} {entity : String} {n id : Nat} :
    define t entity (wireNat n) = .ok (t', id) ↔
      n ∉ t.defined ∧ id = n ∧ t' = { t with defined := n :: t.defined } := by
  unfold define
  simp only [nat_wireNat]
  by_cases mem : n ∈ t.defined
  · simp [mem]
  · simp only [List.contains_iff_mem, mem, if_false, Except.ok.injEq, Prod.mk.injEq,
      not_false_eq_true, true_and]
    exact ⟨fun ⟨a, b⟩ => ⟨b.symm, a.symm⟩, fun ⟨a, b⟩ => ⟨b.symm, a.symm⟩⟩

theorem checkSpec_wire (entity : String) (j : Json) {shape : List Nat} {dtype : Dtype}
    {spec : List Nat × String} (has_shape : getAttr j "shape" = .ok (wireNats shape))
    (has_dtype : getAttr j "dtype" = .ok (.str dtype.name)) :
    checkSpec entity j = .ok spec ↔ shape.length ≤ maxRank ∧ spec = (shape, dtype.name) := by
  unfold checkSpec
  by_cases rank : shape.length ≤ maxRank
  · simp [has_shape, has_dtype, isIn_dtypeNames, shape_wireNats, bind, Except.bind, check, rank,
      Json.str?, eq_comm]
  · simp [has_shape, shape_wireNats, bind, Except.bind, check, rank]

/-- `t` after an entity of id `id` went through `define` and into `specs`. -/
def push (t : Table) (id : Nat) (shape : List Nat) (dtype : Dtype) : Table :=
  ⟨id :: t.defined, (id, shape, dtype.name) :: t.specs⟩

theorem bind_eq_ok {α β : Type} {x : Except PyError α} {f : α → Except PyError β} {b : β} :
    (x >>= f) = .ok b ↔ ∃ a, x = .ok a ∧ f a = .ok b := bind_ok

theorem validateInput_wire {t t' : Table} {i : InputSpec} :
    validateInput t i.toWire = .ok t' ↔
      i.id ∉ t.defined ∧ i.shape.length ≤ maxRank ∧ t' = push t i.id i.shape i.dtype := by
  have at_id : getAttr i.toWire "id" = .ok (wireNat i.id) := rfl
  have at_index : getAttr i.toWire "index" = .ok (wireNat i.index) := rfl
  simp only [validateInput, at_id, at_index, bind_eq_ok, Except.ok.injEq, exists_eq_left',
    Prod.exists, define_wireNat, nat_wireNat, Option.isSome_some, check_ok, true_and,
    checkSpec_wire "input" i.toWire rfl rfl]
  constructor
  · rintro ⟨_, _, ⟨fresh, rfl, rfl⟩, _, _, _, ⟨rank, ⟨rfl, rfl⟩⟩, ⟨⟩⟩
    exact ⟨fresh, rank, rfl⟩
  · rintro ⟨fresh, rank, rfl⟩
    exact ⟨_, _, ⟨fresh, rfl, rfl⟩, (), _, _, ⟨rank, rfl⟩, rfl⟩

def Sized (blobs : List Blob) (c : Constant) : Prop :=
  match c.body with
  | .value _ => True
  | .data index => ∃ blob, blobs[index]? = some blob ∧
      blob.length = c.shape.prod * c.dtype.itemsize

theorem checkData_wire {blobs : List Blob} {id index : Nat} {shape : List Nat} {dtype : Dtype} :
    checkData blobs (Constant.toWire ⟨id, .data index, shape, dtype⟩) (shape, dtype.name) = .ok () ↔
      ∃ blob, blobs[index]? = some blob ∧ blob.length = shape.prod * dtype.itemsize := by
  have at_data : getItem (Constant.toWire ⟨id, .data index, shape, dtype⟩) "data_index" =
    .ok (wireNat index) := rfl
  simp only [checkData, at_data, bind_eq_ok, Except.ok.injEq, exists_eq_left', nat_wireNat,
    Option.any_some, check_ok, decide_eq_true_eq, dtype_ofName, Option.map_some, Option.getD_some]
  constructor
  · rintro ⟨_, inside, size⟩
    refine ⟨blobs[index], List.getElem?_eq_getElem inside, ?_⟩
    simpa [List.getD_eq_getElem?_getD, List.getElem?_eq_getElem inside] using size
  · rintro ⟨blob, found, size⟩
    obtain ⟨inside, _⟩ := List.getElem?_eq_some_iff.mp found
    exact ⟨(), inside, by simpa [List.getD_eq_getElem?_getD, found] using size⟩

theorem validateConstant_wire {blobs : List Blob} {t t' : Table} {c : Constant} :
    validateConstant blobs t c.toWire = .ok t' ↔
      c.id ∉ t.defined ∧ c.shape.length ≤ maxRank ∧ Sized blobs c ∧
        t' = push t c.id c.shape c.dtype := by
  obtain ⟨id, body, shape, dtype⟩ := c
  cases body with
  | value v =>
    have at_id : getAttr (Constant.toWire ⟨id, .value v, shape, dtype⟩) "id" =
      .ok (wireNat id) := rfl
    have no_data : (Constant.toWire ⟨id, .value v, shape, dtype⟩).field? "data_index" = none := rfl
    have value : (Constant.toWire ⟨id, .value v, shape, dtype⟩).field? "value" = some v := rfl
    simp only [validateConstant, at_id, no_data, value, bind_eq_ok, Except.ok.injEq,
      exists_eq_left', Prod.exists, define_wireNat, Option.isSome_some, Option.isSome_none, check_ok,
      checkSpec_wire "constant" (Constant.toWire ⟨id, .value v, shape, dtype⟩) rfl rfl, Sized,
      true_and]
    constructor
    · rintro ⟨_, _, ⟨fresh, rfl, rfl⟩, _, _, ⟨rank, ⟨rfl, rfl⟩⟩, _, _, _, _, ⟨⟩⟩
      exact ⟨fresh, rank, rfl⟩
    · rintro ⟨fresh, rank, rfl⟩
      exact ⟨_, _, ⟨fresh, rfl, rfl⟩, _, _, ⟨rank, rfl⟩, (), rfl, rfl⟩
  | data index =>
    have at_id : getAttr (Constant.toWire ⟨id, .data index, shape, dtype⟩) "id" =
      .ok (wireNat id) := rfl
    have data : (Constant.toWire ⟨id, .data index, shape, dtype⟩).field? "data_index" =
      some (wireNat index) := rfl
    have no_value : (Constant.toWire ⟨id, .data index, shape, dtype⟩).field? "value" = none := rfl
    simp only [validateConstant, at_id, data, no_value, bind_eq_ok, Except.ok.injEq,
      exists_eq_left', Prod.exists, define_wireNat, Option.isSome_some, Option.isSome_none, check_ok,
      checkSpec_wire "constant" (Constant.toWire ⟨id, .data index, shape, dtype⟩) rfl rfl, Sized,
      if_true]
    constructor
    · rintro ⟨_, _, ⟨fresh, rfl, rfl⟩, _, _, ⟨rank, ⟨rfl, rfl⟩⟩, _, _, _, sized, ⟨⟩⟩
      exact ⟨fresh, rank, checkData_wire.mp sized, rfl⟩
    · rintro ⟨fresh, rank, sized, rfl⟩
      exact ⟨_, _, ⟨fresh, rfl, rfl⟩, _, _, ⟨rank, rfl⟩, (), rfl, (),
        checkData_wire.mpr sized, rfl⟩

def Chain {α : Type} (step : Table → α → Table → Prop) : Table → List α → Table → Prop
  | t, [], t' => t' = t
  | t, x :: rest, t' => ∃ mid, step t x mid ∧ Chain step mid rest t'

theorem foldTable_map {α : Type} {f : Table → Json → Except PyError Table} {wire : α → Json}
    {step : Table → α → Table → Prop} (one : ∀ t x t', f t (wire x) = .ok t' ↔ step t x t')
    {t t' : Table} {xs : List α} :
    foldTable f t (xs.map wire) = .ok t' ↔ Chain step t xs t' := by
  induction xs generalizing t with
  | nil => simp [foldTable, Chain, eq_comm]
  | cons x rest ih => simp only [List.map_cons, foldTable, bind_eq_ok, one, ih, Chain]

def acceptOutput (t : Table) (o : WhileOutput) (t' : Table) : Prop :=
  o.id ∉ t.defined ∧ o.shape.length ≤ maxRank ∧ t' = push t o.id o.shape o.dtype

theorem validateWhileOutput_wire {t t' : Table} {o : WhileOutput} :
    validateWhileOutput t o.toWire = .ok t' ↔ acceptOutput t o t' := by
  have at_id : getAttr o.toWire "id" = .ok (wireNat o.id) := rfl
  simp only [validateWhileOutput, at_id, bind_eq_ok, Except.ok.injEq, exists_eq_left',
    Prod.exists, define_wireNat, checkSpec_wire "while output" o.toWire rfl rfl, acceptOutput]
  constructor
  · rintro ⟨_, _, ⟨fresh, rfl, rfl⟩, _, _, ⟨rank, ⟨rfl, rfl⟩⟩, ⟨⟩⟩
    exact ⟨fresh, rank, rfl⟩
  · rintro ⟨fresh, rank, rfl⟩
    exact ⟨_, _, ⟨fresh, rfl, rfl⟩, _, _, ⟨rank, rfl⟩, rfl⟩

theorem prim_supported (op : PrimOp) : op.name ∈ supportedOps := by
  cases op with
  | unary op => cases op <;> decide
  | binary op => cases op <;> decide
  | comparison op => cases op <;> decide
  | reduction op => cases op <;> decide
  | argReduce op => cases op <;> decide
  | window op => cases op <;> decide
  | windowScatter op => cases op <;> decide
  | sort op => cases op <;> decide
  | indexed op => cases op <;> decide
  | fft op => cases op <;> decide
  | _ => decide

theorem prim_plain (op : PrimOp) : op.name ∉ ["while", "reduce", "window_reduce"] := by
  cases op with
  | unary op => cases op <;> decide
  | binary op => cases op <;> decide
  | comparison op => cases op <;> decide
  | reduction op => cases op <;> decide
  | argReduce op => cases op <;> decide
  | window op => cases op <;> decide
  | windowScatter op => cases op <;> decide
  | sort op => cases op <;> decide
  | indexed op => cases op <;> decide
  | fft op => cases op <;> decide
  | _ => decide

theorem op_supported (op : NodeOp) : op.name ∈ supportedOps := by
  cases op with
  | prim op attrs => exact prim_supported op
  | slice starts lengths strides => exact (by decide : "slice" ∈ supportedOps)
  | putSlice starts => exact (by decide : "put_slice" ∈ supportedOps)

theorem op_plain (op : NodeOp) : op.name ∉ ["while", "reduce", "window_reduce"] := by
  cases op with
  | prim op attrs => exact prim_plain op
  | slice starts lengths strides =>
    exact (by decide : "slice" ∉ ["while", "reduce", "window_reduce"])
  | putSlice starts => exact (by decide : "put_slice" ∉ ["while", "reduce", "window_reduce"])

theorem refs_wire {t : Table} {refs : List Nat} :
    (∃ u, forEach (checkRef t) (refs.map wireNat) = .ok u) ↔ ∀ r ∈ refs, r ∈ t.defined := by
  have unit : (∃ u, forEach (checkRef t) (refs.map wireNat) = .ok u) ↔
      forEach (checkRef t) (refs.map wireNat) = .ok () :=
    ⟨fun ⟨_, ok⟩ => ok, fun ok => ⟨(), ok⟩⟩
  rw [unit]
  simp only [forEach_ok, List.mem_map, forall_exists_index, and_imp, forall_apply_eq_imp_iff₂,
    checkRef, isDefined_wireNat, bind_eq_ok, Except.ok.injEq, exists_eq_left', check_ok,
    List.contains_iff_mem]

/-- What `validate` asks of one node, and the table after it. -/
def acceptNode (room : Nat) (t : Table) (node : Node) (t' : Table) : Prop :=
  (∀ r ∈ node.inputs, r ∈ t.defined) ∧ match node with
    | .op id _ _ shape dtype =>
        id ∉ t.defined ∧ shape.length ≤ maxRank ∧ t' = push t id shape dtype
    | .fold id _ fn _ shape dtype =>
        id ∉ t.defined ∧ shape.length ≤ maxRank ∧ t' = push t id shape dtype ∧
          validateSubgraph room fn.toWire = .ok ()
    | .loop _ cond body outputs =>
        outputs ≠ [] ∧ Chain acceptOutput t outputs t' ∧
          validateSubgraph room cond.toWire = .ok () ∧ validateSubgraph room body.toWire = .ok ()

theorem validatePlain_op_wire {room : Nat} {t t' : Table} {id : Nat} {op : NodeOp}
    {inputs shape : List Nat} {dtype : Dtype} :
    validatePlain room t (Node.toWire (.op id op inputs shape dtype)) (.str op.name) = .ok t' ↔
      id ∉ t.defined ∧ shape.length ≤ maxRank ∧ t' = push t id shape dtype := by
  have at_id : getAttr (Node.toWire (.op id op inputs shape dtype)) "id" = .ok (wireNat id) := by
    simp only [Node.toWire]; rfl
  have at_shape : getAttr (Node.toWire (.op id op inputs shape dtype)) "shape" =
    .ok (wireNats shape) := by simp only [Node.toWire]; rfl
  have at_dtype : getAttr (Node.toWire (.op id op inputs shape dtype)) "dtype" =
    .ok (.str dtype.name) := by simp only [Node.toWire]; rfl
  have plain : foldOps.contains op.name = false := by
    have not_fold := op_plain op
    simp only [foldOps, List.contains_eq_mem, decide_eq_false_iff_not]
    exact fun mem => not_fold (List.mem_cons_of_mem _ mem)
  simp only [validatePlain, at_id, bind_eq_ok, Except.ok.injEq, exists_eq_left', Prod.exists,
    define_wireNat, checkSpec_wire "node" _ at_shape at_dtype, Json.str?, Option.any_some, plain]
  constructor
  · rintro ⟨_, _, ⟨fresh, rfl, rfl⟩, _, _, ⟨rank, ⟨rfl, rfl⟩⟩, _, _, ⟨⟩⟩
    exact ⟨fresh, rank, rfl⟩
  · rintro ⟨fresh, rank, rfl⟩
    exact ⟨_, _, ⟨fresh, rfl, rfl⟩, _, _, ⟨rank, rfl⟩, rfl⟩

theorem validatePlain_fold_wire {room : Nat} {t t' : Table} {id : Nat} {op : FoldOp} {fn : SubGraph}
    {inputs shape : List Nat} {dtype : Dtype} :
    validatePlain room t (Node.toWire (.fold id op fn inputs shape dtype)) (.str op.name) = .ok t' ↔
      id ∉ t.defined ∧ shape.length ≤ maxRank ∧ t' = push t id shape dtype ∧
        validateSubgraph room fn.toWire = .ok () := by
  have at_id : getAttr (Node.toWire (.fold id op fn inputs shape dtype)) "id" =
    .ok (wireNat id) := by simp only [Node.toWire]; rfl
  have at_shape : getAttr (Node.toWire (.fold id op fn inputs shape dtype)) "shape" =
    .ok (wireNats shape) := by simp only [Node.toWire]; rfl
  have at_dtype : getAttr (Node.toWire (.fold id op fn inputs shape dtype)) "dtype" =
    .ok (.str dtype.name) := by simp only [Node.toWire]; rfl
  have at_attrs : getItem (Node.toWire (.fold id op fn inputs shape dtype)) "attrs" =
    .ok (.obj (("fn", fn.toWire) :: op.attrs)) := by simp only [Node.toWire]; rfl
  have at_fn : getAttr (.obj (("fn", fn.toWire) :: op.attrs)) "fn" = .ok fn.toWire := rfl
  have is_fold : foldOps.contains op.name = true := by cases op <;> rfl
  simp only [validatePlain, at_id, at_attrs, at_fn, bind_eq_ok, Except.ok.injEq, exists_eq_left',
    Prod.exists, define_wireNat, checkSpec_wire "node" _ at_shape at_dtype, Json.str?,
    Option.any_some, is_fold, if_true]
  constructor
  · rintro ⟨_, _, ⟨fresh, rfl, rfl⟩, _, _, ⟨rank, ⟨rfl, rfl⟩⟩, _, sub, ⟨⟩⟩
    exact ⟨fresh, rank, rfl, sub⟩
  · rintro ⟨fresh, rank, rfl, sub⟩
    exact ⟨_, _, ⟨fresh, rfl, rfl⟩, _, _, ⟨rank, rfl⟩, (), sub, rfl⟩

theorem validateWhile_wire {room : Nat} {t t' : Table} {inputs : List Nat} {cond body : SubGraph}
    {outputs : List WhileOutput} :
    validateWhile room t (Node.toWire (.loop inputs cond body outputs)) = .ok t' ↔
      outputs ≠ [] ∧ Chain acceptOutput t outputs t' ∧
        validateSubgraph room cond.toWire = .ok () ∧ validateSubgraph room body.toWire = .ok () := by
  have at_outputs : getAttr (Node.toWire (.loop inputs cond body outputs)) "outputs" =
    .ok (.arr (outputs.map (·.toWire))) := by simp only [Node.toWire]; rfl
  have at_attrs : getItem (Node.toWire (.loop inputs cond body outputs)) "attrs" =
    .ok (.obj [("cond", cond.toWire), ("body", body.toWire)]) := by simp only [Node.toWire]; rfl
  have at_cond : getAttr (.obj [("cond", cond.toWire), ("body", body.toWire)]) "cond" =
    .ok cond.toWire := rfl
  have at_body : getAttr (.obj [("cond", cond.toWire), ("body", body.toWire)]) "body" =
    .ok body.toWire := rfl
  have some_output : 1 ≤ outputs.length ↔ outputs ≠ [] := by
    exact List.length_pos_iff
  simp only [validateWhile, at_outputs, at_attrs, at_cond, at_body, bind_eq_ok, Except.ok.injEq,
    exists_eq_left', Json.items?, Option.getD_some, List.length_map, check_ok, decide_eq_true_eq,
    foldTable_map (fun _ _ _ => validateWhileOutput_wire), some_output]
  constructor
  · rintro ⟨_, some, _, chain, _, cond_ok, _, body_ok, rfl⟩
    exact ⟨some, chain, cond_ok, body_ok⟩
  · rintro ⟨some, chain, cond_ok, body_ok⟩
    exact ⟨(), some, _, chain, (), cond_ok, (), body_ok, rfl⟩

theorem validateNode_wire {room : Nat} {t t' : Table} {node : Node} :
    validateNode room t node.toWire = .ok t' ↔ acceptNode room t node t' := by
  cases node with
  | op id op inputs shape dtype =>
    have at_op : getAttr (Node.toWire (.op id op inputs shape dtype)) "op" =
      .ok (.str op.name) := by simp only [Node.toWire]; rfl
    have at_inputs : getAttr (Node.toWire (.op id op inputs shape dtype)) "inputs" =
      .ok (.arr (inputs.map wireNat)) := by simp only [Node.toWire]; rfl
    have at_attrs : getAttr (Node.toWire (.op id op inputs shape dtype)) "attrs" =
      .ok (.obj op.attrs) := by simp only [Node.toWire]; rfl
    have not_while : op.name ≠ "while" := fun same => op_plain op (by simp [same])
    simp [validateNode, at_op, at_inputs, at_attrs, bind_eq_ok, isIn, op_supported, Json.items?,
      Json.isObj, refs_wire, Json.str?, not_while, validatePlain_op_wire, acceptNode, Node.inputs]
  | fold id op fn inputs shape dtype =>
    have at_op : getAttr (Node.toWire (.fold id op fn inputs shape dtype)) "op" =
      .ok (.str op.name) := by simp only [Node.toWire]; rfl
    have at_inputs : getAttr (Node.toWire (.fold id op fn inputs shape dtype)) "inputs" =
      .ok (.arr (inputs.map wireNat)) := by simp only [Node.toWire]; rfl
    have at_attrs : getAttr (Node.toWire (.fold id op fn inputs shape dtype)) "attrs" =
      .ok (.obj (("fn", fn.toWire) :: op.attrs)) := by simp only [Node.toWire]; rfl
    have not_while : op.name ≠ "while" := by cases op <;> simp [FoldOp.name]
    have supported : op.name ∈ supportedOps := by cases op <;> simp [FoldOp.name, supportedOps]
    simp [validateNode, at_op, at_inputs, at_attrs, bind_eq_ok, isIn, supported, Json.items?,
      Json.isObj, refs_wire, Json.str?, not_while, validatePlain_fold_wire, acceptNode, Node.inputs]
  | loop inputs cond body outputs =>
    have at_op : getAttr (Node.toWire (.loop inputs cond body outputs)) "op" =
      .ok (.str "while") := by simp only [Node.toWire]; rfl
    have at_inputs : getAttr (Node.toWire (.loop inputs cond body outputs)) "inputs" =
      .ok (.arr (inputs.map wireNat)) := by simp only [Node.toWire]; rfl
    have at_attrs : getAttr (Node.toWire (.loop inputs cond body outputs)) "attrs" =
      .ok (.obj [("cond", cond.toWire), ("body", body.toWire)]) := by simp only [Node.toWire]; rfl
    have supported : "while" ∈ supportedOps := by decide
    simp [validateNode, at_op, at_inputs, at_attrs, bind_eq_ok, isIn, supported, Json.items?,
      Json.isObj, refs_wire, Json.str?, validateWhile_wire, acceptNode, Node.inputs]

def acceptOutputSpec (t : Table) (o : OutputSpec) : Prop :=
  o.node ∈ t.defined ∧ o.shape.length ≤ maxRank ∧
    t.specs.lookup o.node = some (o.shape, o.dtype.name)

theorem validateOutput_wire {t : Table} {o : OutputSpec} :
    validateOutput t o.toWire = .ok () ↔ acceptOutputSpec t o := by
  have at_node : getAttr o.toWire "node" = .ok (wireNat o.node) := rfl
  simp only [validateOutput, at_node, bind_eq_ok, Except.ok.injEq, exists_eq_left',
    isDefined_wireNat, check_ok, List.contains_iff_mem, number_wireNat, Option.getD_some,
    Int.toNat_natCast, checkSpec_wire "output" o.toWire rfl rfl, acceptOutputSpec]
  constructor
  · rintro ⟨_, defined, spec, ⟨rank, rfl⟩, rest⟩
    refine ⟨defined, rank, ?_⟩
    split at rest
    · cases rest
    · rename_i expected found
      obtain ⟨_, same_shape, same_dtype⟩ := bind_eq_ok.mp rest
      rw [found]
      simp only [check_ok, decide_eq_true_eq] at same_shape same_dtype
      rw [same_shape, same_dtype]
  · rintro ⟨defined, rank, found⟩
    refine ⟨(), defined, _, ⟨rank, rfl⟩, ?_⟩
    simp [found, bind_eq_ok]

def Accepted (g : Graph) (blobs : List Blob) (maxNodes : Nat) : Prop :=
  g.nodes.length ≤ maxNodes ∧ (g.inputs.map (·.index)).Nodup ∧ g.outputs ≠ [] ∧
    ∃ t₁ t₂ t₃,
      Chain (fun t i t' => i.id ∉ t.defined ∧ i.shape.length ≤ maxRank ∧
        t' = push t i.id i.shape i.dtype) ⟨[], []⟩ g.inputs t₁ ∧
      Chain (fun t c t' => c.id ∉ t.defined ∧ c.shape.length ≤ maxRank ∧ Sized blobs c ∧
        t' = push t c.id c.shape c.dtype) t₁ g.constants t₂ ∧
      Chain (acceptNode g.toWire.depth) t₂ g.nodes t₃ ∧ ∀ o ∈ g.outputs, acceptOutputSpec t₃ o

theorem nodesToWire_eq (nodes : List Node) : nodesToWire nodes = nodes.map (·.toWire) := by
  induction nodes with
  | nil => simp [nodesToWire]
  | cons n rest ih => simp [nodesToWire, ih]

theorem validate_wire {g : Graph} {blobs : List Blob} {maxNodes : Nat} :
    validate g.toWire blobs maxNodes = .ok () ↔ Accepted g blobs maxNodes := by
  have at_version : getAttr g.toWire "version" = .ok (wireNat version) := rfl
  have inputs : itemsOf g.toWire "inputs" = g.inputs.map (·.toWire) := rfl
  have constants : itemsOf g.toWire "constants" = g.constants.map (·.toWire) := rfl
  have nodes : itemsOf g.toWire "nodes" = g.nodes.map (·.toWire) := nodesToWire_eq g.nodes
  have outputs : itemsOf g.toWire "outputs" = g.outputs.map (·.toWire) := rfl
  have lists : forEach (fun key => do
      let x ← getAttr g.toWire key
      check x.items?.isSome (.notList key)) subGraphKeys = .ok () := rfl
  have versioned : isVersion (wireNat version) = true := rfl
  have indices : ((g.inputs.map (·.toWire)).map fun inp =>
      (inp.field? "index").bind Json.nat?).Nodup ↔ (g.inputs.map (·.index)).Nodup := by
    have each : (fun i : InputSpec => (i.toWire.field? "index").bind Json.nat?) =
        some ∘ (·.index) := by
      funext i
      exact nat_wireNat i.index
    rw [List.map_map, Function.comp_def, each, ← List.map_map]
    exact List.nodup_map_iff (fun _ _ => Option.some.inj)
  have is_obj : g.toWire.isObj = true := rfl
  have some_output : 1 ≤ g.outputs.length ↔ g.outputs ≠ [] := List.length_pos_iff
  simp only [validate, is_obj, at_version, inputs, constants, nodes, outputs, lists, versioned,
    bind_eq_ok, Except.ok.injEq, exists_eq_left', check_ok, List.length_map, decide_eq_true_eq,
    foldTable_map (fun _ _ _ => validateInput_wire),
    foldTable_map (fun _ _ _ => validateConstant_wire),
    foldTable_map (fun _ _ _ => validateNode_wire), indices, some_output, forEach_ok,
    List.mem_map, forall_exists_index, and_imp, forall_apply_eq_imp_iff₂, validateOutput_wire,
    Accepted, exists_const, true_and]
  constructor
  · rintro ⟨bound, t₁, first, distinct, t₂, second, t₃, third, some, last⟩
    exact ⟨bound, distinct, some, t₁, t₂, t₃, first, second, third, last⟩
  · rintro ⟨bound, distinct, some, t₁, t₂, t₃, first, second, third, last⟩
    exact ⟨bound, t₁, first, distinct, t₂, second, t₃, third, some, last⟩

end NxTinygrad.Wire
