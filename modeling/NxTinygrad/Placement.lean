import NxTinygrad.Wire

/- What acceptance by `validate` gives: one space of distinct ids in which every node
   refers to earlier ids only. -/
namespace NxTinygrad.Placement
open IR Wire

def Topo : (Nat → Prop) → List Node → Prop
  | _, [] => True
  | ids, node :: rest => (∀ r ∈ node.inputs, ids r) ∧ (∀ id ∈ node.definedIds, ¬ ids id) ∧
      node.definedIds.Nodup ∧ Topo (fun id => ids id ∨ id ∈ node.definedIds) rest

theorem topo_congr {ids ids' : Nat → Prop} {nodes : List Node} (same : ∀ id, ids id ↔ ids' id)
    (h : Topo ids nodes) : Topo ids' nodes := by
  have eq : ids = ids' := funext fun id => propext (same id)
  exact eq ▸ h

theorem topo_append {ids : Nat → Prop} {front back : List Node} :
    Topo ids (front ++ back) ↔
      Topo ids front ∧ Topo (fun id => ids id ∨ ∃ n ∈ front, id ∈ n.definedIds) back := by
  induction front generalizing ids with
  | nil => simp [Topo]
  | cons n rest ih =>
    have same : (fun id => (ids id ∨ id ∈ n.definedIds) ∨ ∃ m ∈ rest, id ∈ m.definedIds) =
        fun id => ids id ∨ ∃ m ∈ n :: rest, id ∈ m.definedIds := by
      funext id
      simp only [List.mem_cons, exists_eq_or_imp, or_assoc]
    simp only [List.cons_append, Topo, ih, same, and_assoc]

def allIds (g : Graph) : List Nat :=
  g.inputs.map (·.id) ++ g.constants.map (·.id) ++ g.nodes.flatMap Node.definedIds

structure WellPlaced (g : Graph) : Prop where
  distinct : (allIds g).Nodup
  topo : Topo (fun id => id ∈ g.inputs.map (·.id) ++ g.constants.map (·.id)) g.nodes
  outputs : ∀ o ∈ g.outputs, o.node ∈ allIds g

theorem chain_defined {α : Type} {step : Validate.Table → α → Validate.Table → Prop}
    {defs : α → List Nat} (one : ∀ t x t', step t x t' → t.defined.Nodup →
      t'.defined = (defs x).reverse ++ t.defined ∧ t'.defined.Nodup)
    {t t' : Validate.Table} {xs : List α} (chain : Chain step t xs t') (start : t.defined.Nodup) :
    t'.defined = (xs.flatMap defs).reverse ++ t.defined ∧ t'.defined.Nodup := by
  induction xs generalizing t with
  | nil =>
    cases chain
    exact ⟨by simp, start⟩
  | cons x rest ih =>
    obtain ⟨mid, first, tail⟩ := chain
    obtain ⟨eq, nodup⟩ := one t x mid first start
    obtain ⟨eq', nodup'⟩ := ih tail nodup
    refine ⟨?_, nodup'⟩
    rw [eq', eq, List.flatMap_cons, List.reverse_append, List.append_assoc]

theorem push_defined {t : Validate.Table} {id : Nat} {shape : List Nat} {dtype : Dtype}
    (fresh : id ∉ t.defined) (start : t.defined.Nodup) :
    (push t id shape dtype).defined = [id].reverse ++ t.defined ∧
      (push t id shape dtype).defined.Nodup :=
  ⟨rfl, List.nodup_cons.mpr ⟨fresh, start⟩⟩

theorem outputs_defined {t t' : Validate.Table} {outputs : List WhileOutput}
    (chain : Chain acceptOutput t outputs t') (start : t.defined.Nodup) :
    t'.defined = (outputs.map (·.id)).reverse ++ t.defined ∧ t'.defined.Nodup := by
  rw [List.map_eq_flatMap]
  refine chain_defined ?_ chain start
  rintro t o t' ⟨fresh, _, rfl⟩ start
  exact push_defined fresh start

theorem node_defined {room : Nat} {t t' : Validate.Table} {node : Node}
    (accepted : acceptNode room t node t') (start : t.defined.Nodup) :
    t'.defined = node.definedIds.reverse ++ t.defined ∧ t'.defined.Nodup := by
  obtain ⟨_, accepted⟩ := accepted
  cases node with
  | op id op inputs shape dtype =>
    obtain ⟨fresh, _, rfl⟩ := accepted
    exact push_defined fresh start
  | fold id op fn inputs shape dtype =>
    obtain ⟨fresh, _, rfl, _⟩ := accepted
    exact push_defined fresh start
  | loop inputs cond body outputs => exact outputs_defined accepted.2.1 start

theorem topo_of_chain {room : Nat} {t t' : Validate.Table} {nodes : List Node}
    (chain : Chain (acceptNode room) t nodes t') (start : t.defined.Nodup) :
    Topo (fun id => id ∈ t.defined) nodes := by
  induction nodes generalizing t with
  | nil => trivial
  | cons node rest ih =>
    obtain ⟨mid, first, tail⟩ := chain
    obtain ⟨eq, nodup⟩ := node_defined first start
    have split := List.nodup_append.mp (eq ▸ nodup)
    refine ⟨first.1, fun id new old => ?_, List.nodup_reverse.mp split.1, ?_⟩
    · exact split.2.2 id (List.mem_reverse.mpr new) id old rfl
    · refine topo_congr (fun id => ?_) (ih tail nodup)
      rw [eq]
      simp [or_comm]

theorem wellPlaced_of_accepted {g : Graph} {blobs : List Blob} {maxNodes : Nat}
    (accepted : Accepted g blobs maxNodes) : WellPlaced g := by
  obtain ⟨_, _, _, t₁, t₂, t₃, first, second, third, outs⟩ := accepted
  have at_inputs : t₁.defined = (g.inputs.flatMap fun i => [i.id]).reverse ++ [] ∧
      t₁.defined.Nodup := by
    refine chain_defined ?_ first List.nodup_nil
    rintro t i t' ⟨fresh, _, rfl⟩ start
    exact push_defined fresh start
  have at_constants : t₂.defined = (g.constants.flatMap fun c => [c.id]).reverse ++ t₁.defined ∧
      t₂.defined.Nodup := by
    refine chain_defined ?_ second at_inputs.2
    rintro t c t' ⟨fresh, _, _, rfl⟩ start
    exact push_defined fresh start
  have at_nodes : t₃.defined = (g.nodes.flatMap Node.definedIds).reverse ++ t₂.defined ∧
      t₃.defined.Nodup := by
    refine chain_defined ?_ third at_constants.2
    intro t n t' accepted start
    exact node_defined accepted start
  have known : t₂.defined = (g.inputs.map (·.id) ++ g.constants.map (·.id)).reverse := by
    rw [at_constants.1, at_inputs.1, List.map_eq_flatMap, List.map_eq_flatMap, List.append_nil,
      List.reverse_append]
  have all : t₃.defined = (allIds g).reverse := by
    simp only [at_nodes.1, known, allIds, List.reverse_append]
  refine ⟨?_, ?_, ?_⟩
  · have nodup := at_nodes.2
    rw [all] at nodup
    exact List.nodup_reverse.mp nodup
  · refine topo_congr (fun id => ?_) (topo_of_chain third at_constants.2)
    rw [known, List.mem_reverse]
  · intro o mem
    have defined := (outs o mem).1
    rw [all] at defined
    exact List.mem_reverse.mp defined

end NxTinygrad.Placement
