import NxTinygrad.Lowered
import NxTinygrad.Lib.Memo
import Mathlib.Data.Fintype.BigOperators
import Mathlib.Algebra.BigOperators.Ring.Finset

/- How many nodes the lowering emits for expressions that are shared, against what each of them needs. -/
namespace NxTinygrad.Lowering
open IR

/-! The expressions of a graph. Those of the sub-graphs of a while or a reduce are counted there. -/

theorem strip_size (e : Expr) : sizeOf e.strip ≤ sizeOf e := by
  induction e using Expr.strip.induct with
  | case1 t e ih =>
    rw [Expr.strip, Expr.metadata.sizeOf_spec]
    omega
  | case2 e plain => rw [Expr.strip.eq_2 e plain]

theorem operand_size {σ : Type} {s inner : σ} {e : Expr} {c : σ × Expr} (mem : c ∈ e.operands s inner) :
    sizeOf c.2 < sizeOf e := by
  have listed {es : List Expr} (mem : c ∈ es.map (s, ·)) : sizeOf c.2 < sizeOf es := by
    obtain ⟨e, there, rfl⟩ := List.mem_map.mp mem
    exact List.sizeOf_lt_of_mem there
  cases e with
  | parameter | constant | tensor | other => cases mem
  | metadata | elem | pad =>
    rw [List.mem_singleton.mp mem]
    simp
    try omega
  | tuple | op | loop =>
    have low := listed mem
    simp
    omega
  | block t es e =>
    rcases List.mem_cons.mp mem with rfl | mem
    · simp
    · have low := listed mem
      simp
      omega
  | cond t clauses e =>
    rcases List.mem_cons.mp mem with rfl | mem
    · simp
    · obtain ⟨p, there, side⟩ := List.mem_flatMap.mp mem
      have low := List.sizeOf_lt_of_mem there
      obtain ⟨pred, expr⟩ := p
      simp only [List.mem_cons, List.not_mem_nil, or_false] at side
      rcases side with rfl | rfl <;> simp at low ⊢ <;> omega
  | reduce | windowReduce | windowScatter =>
    simp only [Expr.operands, List.mem_cons, List.not_mem_nil, or_false] at mem
    rcases mem with rfl | rfl <;> simp <;> omega
  | slice t a starts =>
    rcases List.mem_cons.mp mem with rfl | mem
    · simp
      omega
    · obtain ⟨e, there, rfl⟩ := List.mem_map.mp mem
      obtain ⟨s', found, right⟩ := List.mem_filterMap.mp there
      have low := List.sizeOf_lt_of_mem found
      cases s' with
      | inl n => cases right
      | inr e' =>
        cases right
        simp at low ⊢
        omega
  | putSlice t a starts part =>
    rcases List.mem_cons.mp mem with rfl | mem
    · simp
      omega
    · rcases List.mem_cons.mp mem with rfl | mem
      · simp
      · have low := listed mem
        simp
        omega

def Expr.under (e : Expr) : List Expr := e :: (e.operands () ()).attach.flatMap fun c => c.1.2.under
termination_by sizeOf e
decreasing_by exact operand_size c.2

def Expr.spread : Expr → Nat
  | .cond _ clauses (.tuple elems) => clauses.length * elems.length
  | _ => 0

def Expr.own : Expr → Nat
  | .parameter _ _ | .constant _ _ | .tensor _ _ | .metadata _ _ | .tuple _ | .elem _ _ _ | .block _ _ _
  | .other _ _ => 0
  | .cond _ clauses (.tuple elems) => clauses.length * elems.length
  | .cond _ clauses _ => clauses.length
  | .loop _ _ _ _ | .op _ _ _ | .reduce _ _ _ _ _ _ | .windowReduce _ _ _ _ _ _ _ _ | .slice _ _ _ _ _
  | .putSlice _ _ _ _ | .pad _ _ _ _ | .windowScatter _ _ _ _ _ _ _ _ => 1

/-- The sum over the distinct references of the nodes of the expressions themselves. -/
def ownNodes (outputs : List Expr) : Nat :=
  ((((outputs.flatMap Expr.under).filter fun e => !e.isTuple).map fun e => (e.tag.ref, e.own)).dedup.map
    Prod.snd).sum

def Within (outputs : List Expr) (e : Expr) : Prop := ∃ o ∈ outputs, e ∈ o.under

def Named (table : Ref → Expr) (outputs : List Expr) : Prop :=
  ∀ e, Within outputs e → e.isTuple = false → table e.tag.ref = e

/-- No cond of tuples that needs nodes is projected by two elem expressions. -/
def ProjectedOnce (outputs : List Expr) : Prop :=
  ∀ t src k t' src' k', Within outputs (.elem t src k) → Within outputs (.elem t' src' k') →
    0 < src.strip.spread → src'.strip = src.strip → t.ref = t'.ref

section under
variable {e o : Expr} {outputs : List Expr}

theorem under_eq (o : Expr) : o.under = o :: (o.operands () ()).flatMap fun c => c.2.under := by
  rw [Expr.under]
  simp only [List.flatMap_def, List.map_attach_eq_pmap, List.pmap_eq_map]

theorem mem_under : e ∈ o.under ↔ e = o ∨ ∃ c ∈ o.operands () (), e ∈ c.2.under := by
  rw [under_eq, List.mem_cons, List.mem_flatMap]

theorem under_operand {c : Unit × Expr} (there : e ∈ o.under) (mem : c ∈ e.operands () ()) :
    c.2 ∈ o.under := by
  induction o using Expr.under.induct with
  | case1 o ih =>
    rcases mem_under.mp there with rfl | ⟨d, inside, deeper⟩
    · exact mem_under.mpr (.inr ⟨c, mem, mem_under.mpr (.inl rfl)⟩)
    · exact mem_under.mpr (.inr ⟨d, inside, ih ⟨d, inside⟩ deeper⟩)

theorem Within.operand {c : Unit × Expr} (within : Within outputs e) (mem : c ∈ e.operands () ()) :
    Within outputs c.2 := by
  obtain ⟨o, out, there⟩ := within
  exact ⟨o, out, under_operand there mem⟩

theorem Within.strip (within : Within outputs e) : Within outputs e.strip :=
  strip_of (fun _ e outer => outer.operand (c := ((), e)) (List.mem_singleton.mpr rfl)) within

end under

abbrev Task := Bool × Expr

abbrev Mark := Bool × Ref

def Task.parts : Task → List Task
  | (false, e) => match e with
      | .metadata _ inner => [(false, inner)]
      | .elem _ src _ => [(true, src)]
      | .block t inputs (.tuple outputs) => [(true, .block t inputs (.tuple outputs))]
      | .block _ inputs default => inputs.map (false, ·) ++ [(false, default)]
      | .cond _ clauses default => (false, default) :: clauses.flatMap fun c =>
          [(false, c.1), (false, c.2)]
      | .reduce _ a acc _ _ _ | .windowReduce _ a acc _ _ _ _ _ => [(false, a), (false, acc)]
      | e => match e.plan with
          | some (args, _) => args.map (false, ·)
          | none => []
  | (true, e) => match e with
      | .tuple es => es.map (false, ·)
      | .metadata _ inner => [(true, inner)]
      | .block _ inputs (.tuple outputs) => inputs.map (false, ·) ++ [(true, .tuple outputs)]
      | .loop _ init _ _ => init.map (false, ·)
      | .cond _ clauses default => (true, default) :: clauses.flatMap fun c =>
          [(false, c.1), (true, c.2)]
      | _ => []

def Task.label : Task → Option Mark
  | (false, e) => match e with
      | .tuple _ | .block _ _ (.tuple _) => none
      | e => some (false, e.tag.ref)
  | (true, e) => match e with
      | .block t _ _ | .loop t _ _ _ => some (true, t.ref)
      | _ => none

/-- That the traversal raises nothing at the task itself. -/
def Task.fit : Task → Prop
  | (false, e) => match e with
      | .tuple _ | .loop _ _ _ _ | .other _ _ => False
      | .cond _ _ default => default.isTuple = false
      | .op _ _ _ | .slice _ _ _ _ _ | .putSlice _ _ _ _ | .pad _ _ _ _
      | .windowScatter _ _ _ _ _ _ _ _ =>
          e.plan.isSome
      | _ => True
  | (true, e) => match e with
      | .tuple _ | .metadata _ _ | .loop _ _ _ _ => True
      | .block _ _ default => default.isTuple = true
      | .cond _ clauses default => default.isTuple = true ∧ ∀ c ∈ clauses, c.2.isTuple = true
      | _ => False

/-- The nodes emitted until the id of the expression is known. -/
def Expr.single : Expr → Nat
  | .elem _ src _ => src.strip.spread
  | .cond _ clauses default => if default.isTuple then 0 else clauses.length
  | .loop _ _ _ _ => 0
  | e => e.own

def Expr.many : Expr → Nat
  | .loop _ _ _ _ => 1
  | _ => 0

def Expr.projected : Expr → Nat
  | .elem _ src _ => src.strip.spread
  | _ => 0

theorem own_split (e : Expr) : e.single + e.many + e.spread = e.own + e.projected := by
  cases e with
  | cond t clauses default =>
    cases default with
    | tuple es => simp [Expr.single, Expr.many, Expr.spread, Expr.own, Expr.projected, Expr.isTuple]
    | _ => simp [Expr.single, Expr.many, Expr.spread, Expr.own, Expr.projected, Expr.isTuple]
  | _ => simp [Expr.single, Expr.many, Expr.spread, Expr.own, Expr.projected]

theorem clause_operand {t : Tag} {clauses : List (Expr × Expr)} {default e : Expr} {c : Expr × Expr}
    (mem : c ∈ clauses)
    (side : e = c.1 ∨ e = c.2) : ((), e) ∈ Expr.operands () () (.cond t clauses default) := by
  refine List.mem_cons_of_mem _ (List.mem_flatMap.mpr ⟨c, mem, ?_⟩)
  rcases side with rfl | rfl <;> simp

theorem part_operand {x y : Task} (mem : y ∈ x.parts) :
    (∃ e, ((), e) ∈ x.2.operands () () ∧ (y.2 = e ∨ y.2 = e.strip)) ∨
    x.1 = false ∧ y = (true, x.2) := by
  have same {e c : Expr} (mem : ((), c) ∈ e.operands () ()) :
      ∃ c', ((), c') ∈ e.operands () () ∧ (c = c' ∨ c = c'.strip) := ⟨c, mem, .inl rfl⟩
  unfold Task.parts at mem
  split at mem
  · split at mem
    · rw [List.mem_singleton.mp mem]
      exact .inl (same (List.mem_singleton.mpr rfl))
    · rw [List.mem_singleton.mp mem]
      exact .inl (same (List.mem_singleton.mpr rfl))
    · exact .inr ⟨rfl, List.mem_singleton.mp mem⟩
    · refine .inl ?_
      rcases List.mem_append.mp mem with input | last
      · obtain ⟨e, there, rfl⟩ := List.mem_map.mp input
        exact same (List.mem_cons_of_mem _ (List.mem_map_of_mem there))
      · rw [List.mem_singleton.mp last]
        exact same List.mem_cons_self
    · refine .inl ?_
      rcases List.mem_cons.mp mem with rfl | clause
      · exact same List.mem_cons_self
      · obtain ⟨c, there, side⟩ := List.mem_flatMap.mp clause
        simp only [List.mem_cons, List.not_mem_nil, or_false] at side
        rcases side with rfl | rfl
        · exact same (clause_operand there (.inl rfl))
        · exact same (clause_operand there (.inr rfl))
    · simp only [List.mem_cons, List.not_mem_nil, or_false] at mem
      rcases mem with rfl | rfl <;> exact .inl (same (by simp [Expr.operands]))
    · simp only [List.mem_cons, List.not_mem_nil, or_false] at mem
      rcases mem with rfl | rfl <;> exact .inl (same (by simp [Expr.operands]))
    · split at mem
      · next plan =>
        obtain ⟨a, there, rfl⟩ := List.mem_map.mp mem
        obtain ⟨e, operand, side⟩ := plan_operand () () plan a there
        exact .inl ⟨e, operand, side⟩
      · cases mem
  · refine .inl ?_
    split at mem
    · obtain ⟨e, there, rfl⟩ := List.mem_map.mp mem
      exact same (List.mem_map_of_mem there)
    · rw [List.mem_singleton.mp mem]
      exact same (List.mem_singleton.mpr rfl)
    · rcases List.mem_append.mp mem with input | last
      · obtain ⟨e, there, rfl⟩ := List.mem_map.mp input
        exact same (List.mem_cons_of_mem _ (List.mem_map_of_mem there))
      · rw [List.mem_singleton.mp last]
        exact same List.mem_cons_self
    · obtain ⟨e, there, rfl⟩ := List.mem_map.mp mem
      exact same (List.mem_map_of_mem there)
    · rcases List.mem_cons.mp mem with rfl | clause
      · exact same List.mem_cons_self
      · obtain ⟨c, there, side⟩ := List.mem_flatMap.mp clause
        simp only [List.mem_cons, List.not_mem_nil, or_false] at side
        rcases side with rfl | rfl
        · exact same (clause_operand there (.inl rfl))
        · exact same (clause_operand there (.inr rfl))
    · cases mem

/-- Smaller expressions first, and a block as a tuple before the block itself. -/
noncomputable def Task.rank (x : Task) : Nat := 2 * sizeOf x.2 + if x.1 then 0 else 1

theorem part_smaller {x y : Task} (mem : y ∈ x.parts) : y.rank < x.rank := by
  rcases part_operand mem with ⟨e, operand, side⟩ | ⟨plain, rfl⟩
  · have below := operand_size operand
    have le : sizeOf y.2 ≤ sizeOf e := by
      rcases side with same | bare
      · rw [same]
      · rw [bare]
        exact strip_size e
    dsimp only at below
    unfold Task.rank
    split <;> split <;> omega
  · rw [Task.rank, Task.rank, plain]
    simp

theorem part_within {outputs : List Expr} {x y : Task} (within : Within outputs x.2)
    (mem : y ∈ x.parts) :
    Within outputs y.2 := by
  rcases part_operand mem with ⟨e, operand, same | bare⟩ | ⟨_, rfl⟩
  · rw [same]
    exact within.operand operand
  · rw [bare]
    exact (within.operand operand).strip
  · exact within

theorem label_eq {x : Task} {m : Mark} (label : x.label = some m) :
    x.2.isTuple = false ∧ m = (x.1, x.2.tag.ref) := by
  unfold Task.label at label
  split at label
  · next e =>
    split at label
    · cases label
    · cases label
    · next plain _ =>
      refine ⟨?_, (Option.some.inj label).symm⟩
      cases e with
      | tuple es => exact absurd rfl (plain es)
      | _ => rfl
  · split at label
    · exact ⟨rfl, (Option.some.inj label).symm⟩
    · exact ⟨rfl, (Option.some.inj label).symm⟩
    · cases label

def refs (outputs : List Expr) : Finset Ref :=
  (((outputs.flatMap Expr.under).filter fun e => !e.isTuple).map fun e => e.tag.ref).toFinset

theorem mem_refs {outputs : List Expr} {r : Ref} :
    r ∈ refs outputs ↔ ∃ e, Within outputs e ∧ e.isTuple = false ∧ e.tag.ref = r := by
  simp only [refs, List.mem_toFinset, List.mem_map, List.mem_filter, List.mem_flatMap,
    Bool.not_eq_true', Within, and_assoc]

def weight (table : Ref → Expr) : Mark → Nat
  | (false, r) => (table r).single
  | (true, r) => (table r).many

theorem task_named {table : Ref → Expr} {outputs : List Expr} (named : Named table outputs) {x y : Task}
    (within : Within outputs x.2) (within' : Within outputs y.2) (kind : x.2.isTuple = false)
    (kind' : y.2.isTuple = false) (same : (x.1, x.2.tag.ref) = (y.1, y.2.tag.ref)) : x = y := by
  obtain ⟨mode, ref⟩ := Prod.mk.inj same
  refine Prod.ext mode ?_
  rw [← named x.2 within kind, ← named y.2 within' kind', ref]

noncomputable def tasks {table : Ref → Expr} {outputs : List Expr} (named : Named table outputs) :
    Memo.Tasks Task Mark where
  parts := Task.parts
  label := Task.label
  weight := weight table
  fit := Task.fit
  inside x := Within outputs x.2
  rank := Task.rank
  marks := Finset.univ ×ˢ refs outputs
  closed _ _ within mem := part_within within mem
  smaller _ _ _ mem := part_smaller mem
  unique x y m within within' label label' := by
    obtain ⟨kind, rfl⟩ := label_eq label
    obtain ⟨kind', same⟩ := label_eq label'
    exact task_named named within within' kind kind' same
  listed x m within label := by
    obtain ⟨kind, rfl⟩ := label_eq label
    exact Finset.mem_product.mpr ⟨Finset.mem_univ _, mem_refs.mpr ⟨x.2, within, kind, rfl⟩⟩

def State.view (st : State) : Memo.View Mark where
  marked m := if m.1 then st.tuples m.2 ≠ none else st.ids m.2 ≠ none
  count := st.nodes.length

section steps
variable {table : Ref → Expr} {outputs : List Expr} {named : Named table outputs}
variable {e : Expr} {st st' : State} {id : Nat} {m : Mark}

theorem put_marks (st : State) (r : Ref) (id : Nat) (m : Mark) :
    (st.put r id).view.marked m ↔ st.view.marked m ∨ m = (false, r) := by
  obtain ⟨tuple, r'⟩ := m
  cases tuple with
  | true => simp [State.view, State.put]
  | false =>
    by_cases same : r' = r
    · subst same
      simp [State.view, State.put]
    · simp [State.view, State.put, same]

theorem putTuple_marks (st : State) (r : Ref) (ids : List Nat) (m : Mark) :
    (st.putTuple r ids).view.marked m ↔ st.view.marked m ∨ m = (true, r) := by
  obtain ⟨tuple, r'⟩ := m
  cases tuple with
  | false => simp [State.view, State.putTuple]
  | true =>
    by_cases same : r' = r
    · subst same
      simp [State.view, State.putTuple]
    · simp [State.view, State.putTuple, same]

theorem only_task {x : Task} (within : Within outputs x.2) (kind : x.2.isTuple = false) :
    ∀ y, (tasks named).inside y → (tasks named).label y = some (x.1, x.2.tag.ref) → y = x := by
  intro y within' label
  obtain ⟨kind', same⟩ := label_eq label
  exact task_named named within' within kind' kind same.symm

theorem hit_effect (within : Within outputs e) (kind : e.isTuple = false)
    (closed : (tasks named).Closed st.view) (known : st.ids e.tag.ref = some id) :
    (tasks named).Effect [(false, e)] 0 st.view st.view :=
  .hit (m := (false, e.tag.ref)) closed (by simp [State.view, known])
    (@only_task table outputs named (false, e) within kind)

theorem hitTuple_effect {ids : List Nat} (within : Within outputs e) (kind : e.isTuple = false)
    (closed : (tasks named).Closed st.view) (known : st.tuples e.tag.ref = some ids) :
    (tasks named).Effect [(true, e)] 0 st.view st.view :=
  .hit (m := (true, e.tag.ref)) closed (by simp [State.view, known])
    (@only_task table outputs named (true, e) within kind)

theorem weight_named (named : Named table outputs) {x : Task} (within : Within outputs x.2)
    (kind : x.2.isTuple = false) :
    weight table (x.1, x.2.tag.ref) = if x.1 then x.2.many else x.2.single := by
  obtain ⟨tuple, e⟩ := x
  cases tuple with
  | false => exact congrArg Expr.single (named e within kind)
  | true => exact congrArg Expr.many (named e within kind)

theorem put_effect {k : Nat} {a : State} (within : Within outputs e) (fit : Task.fit (false, e))
    (label : Task.label (false, e) = some (false, e.tag.ref)) (new : st.ids e.tag.ref = none)
    (done : (tasks named).Effect (Task.parts (false, e)) k st.view a.view)
    (marks : ∀ m, st'.view.marked m ↔ a.view.marked m ∨ m = (false, e.tag.ref)) {j : Nat}
    (count : st'.nodes.length = a.nodes.length + j) (paid : e.single = k + j) :
    (tasks named).Effect [(false, e)] 0 st.view st'.view :=
  .put within label fit (by simp [State.view, new]) done marks count
    ((weight_named named within (label_eq label).1).trans paid)

theorem putTuple_effect {k : Nat} {a : State} (within : Within outputs e) (fit : Task.fit (true, e))
    (label : Task.label (true, e) = some (true, e.tag.ref)) (missing : st.tuples e.tag.ref = none)
    (done : (tasks named).Effect (Task.parts (true, e)) k st.view a.view)
    (marks : ∀ m, st'.view.marked m ↔ a.view.marked m ∨ m = (true, e.tag.ref)) {j : Nat}
    (count : st'.nodes.length = a.nodes.length + j) (paid : e.many = k + j) :
    (tasks named).Effect [(true, e)] 0 st.view st'.view :=
  .put within label fit (by simp [State.view, missing]) done marks count
    ((weight_named named within (label_eq label).1).trans paid)

theorem plan_task {args : List Expr} {op : NodeOp} (plan : e.plan = some (args, op)) :
    Task.parts (false, e) = args.map (false, ·) ∧ Task.label (false, e) = some (false, e.tag.ref) ∧
      Task.fit (false, e) ∧ e.single = 1 := by
  cases e with
  | op | slice | putSlice | pad | windowScatter =>
    simp only [Task.parts, plan, Task.label, Task.fit, Option.isSome_some, Expr.single,
      Expr.own, and_self]
  | _ => cases plan

theorem fold_task {a acc body : Expr} {op : FoldOp} (fold : e.fold = some (a, acc, op, body)) :
    Task.parts (false, e) = [a, acc].map (false, ·) ∧ Task.label (false, e) = some (false, e.tag.ref) ∧
      Task.fit (false, e) ∧ e.single = 1 := by
  cases e with
  | reduce | windowReduce =>
    simp only [Expr.fold, Option.some.injEq, Prod.mk.injEq] at fold
    obtain ⟨rfl, rfl, -, -⟩ := fold
    exact ⟨rfl, rfl, trivial, rfl⟩
  | _ => cases fold

theorem block_task {t : Tag} {inputs : List Expr} {default : Expr} (kind : default.isTuple = false) :
    Task.parts (false, .block t inputs default) = inputs.map (false, ·) ++ [(false, default)] ∧
      Task.label (false, .block t inputs default) = some (false, t.ref) := by
  cases default with
  | tuple es => cases kind
  | _ => exact ⟨rfl, rfl⟩

theorem selectChain_nodes {t : Tag} {i : Nat} : ∀ {clauses : List (Nat × List Nat)} {elseId : Nat}
    {st st' : State} {id : Nat}, selectChain t i clauses elseId st = .ok (id, st') →
      (∀ m, st'.view.marked m ↔ st.view.marked m) ∧ st'.nodes.length = st.nodes.length + clauses.length
  | [], elseId, st, st', id, h => by
    cases h
    exact ⟨fun _ => Iff.rfl, rfl⟩
  | (predId, exprIds) :: rest, elseId, st, st', id, h => by
    simp only [selectChain, bind_ok, Prod.exists] at h
    obtain ⟨_, mid, first, h⟩ := h
    obtain ⟨marks, count⟩ := selectChain_nodes first
    split at h
    · cases h
    · cases h
      refine ⟨marks, ?_⟩
      simp only [List.length_cons, count, Nat.add_assoc]

theorem selectChains_nodes {clauses : List (Nat × List Nat)} : ∀ {i : Nat} {elems : List (Expr × Nat)}
    {st st' : State} {ids : List Nat}, selectChains clauses i elems st = .ok (ids, st') →
      (∀ m, st'.view.marked m ↔ st.view.marked m) ∧
        st'.nodes.length = st.nodes.length + clauses.length * elems.length
  | _, [], st, st', ids, h => by
    cases h
    exact ⟨fun _ => Iff.rfl, rfl⟩
  | i, (e, defaultId) :: rest, st, st', ids, h => by
    simp only [selectChains, bind_ok, Prod.exists, Except.ok.injEq, Prod.mk.injEq] at h
    obtain ⟨id, mid, first, restIds, st₂, second, rfl, rfl⟩ := h
    obtain ⟨marks, count⟩ := selectChain_nodes first
    obtain ⟨marks', count'⟩ := selectChains_nodes second
    refine ⟨fun m => (marks' m).trans (marks m), ?_⟩
    rw [count', count, List.length_cons, Nat.mul_succ]
    omega

theorem SubRun.view {roots : List Expr} {sub : SubGraph} (run : SubRun roots st sub st') :
    st'.view = st.view := by
  cases run
  rfl

theorem ListRun.length {es : List Expr} {st st' : State} {ids : List Nat}
    (run : ListRun es st ids st') :
    ids.length = es.length := by
  induction es generalizing st ids with
  | nil =>
    cases run
    rfl
  | cons e rest ih =>
    cases run with
    | cons first later => rw [List.length_cons, List.length_cons, ih later]

theorem DataRun.branches {clauses : List (Expr × Expr)} {st st' : State} {data : List (Nat × List Nat)}
    (run : DataRun clauses st data st') :
      data.length = clauses.length ∧ ∀ c ∈ clauses, c.2.isTuple = true := by
  induction clauses generalizing st data with
  | nil =>
    cases run
    exact ⟨rfl, fun c mem => absurd mem List.not_mem_nil⟩
  | cons c rest ih =>
    cases run with
    | cons pred es later =>
      obtain ⟨len, tuples⟩ := ih later
      exact ⟨congrArg (· + 1) len, List.forall_mem_cons.mpr ⟨rfl, tuples⟩⟩

mutual
theorem Run.effect : ∀ {e : Expr} {st st' : State} {id : Nat}, Run e st id st' → Within outputs e →
    (tasks named).Closed st.view → (tasks named).Effect [(false, e)] 0 st.view st'.view
  | _, _, _, _, .hit kind known, within, closed => hit_effect within kind closed known
  | _, _, _, _, .bound new _, within, closed =>
      put_effect within trivial rfl new (.nil closed) (put_marks _ _ _) (j := 0) rfl rfl
  | _, _, _, _, .input new _, within, closed =>
      put_effect within trivial rfl new (.nil closed) (put_marks _ _ _) (j := 0) rfl rfl
  | _, _, _, _, .constant new, within, closed =>
      put_effect within trivial rfl new (.nil closed) (put_marks _ _ _) (j := 0) rfl rfl
  | _, _, _, _, .tensor new, within, closed =>
      put_effect within trivial rfl new (.nil closed) (put_marks _ _ _) (j := 0) rfl rfl
  | _, _, _, _, .metadata new inner, within, closed => by
      have part := inner.effect (part_within (x := (false, _)) within List.mem_cons_self) closed
      exact put_effect within trivial rfl new part (put_marks _ _ _) (j := 0) rfl rfl
  | _, _, _, _, .elem new src _, within, closed => by
      have part := src.effect (part_within (x := (false, _)) within List.mem_cons_self) closed
      exact put_effect within trivial rfl new part (put_marks _ _ _) (j := 0) rfl rfl
  | _, _, _, _, @Run.block t ins body _ _ _ _ _ new kind inputs default, within, closed => by
      obtain ⟨parts, label⟩ := @block_task t ins body kind
      have first := inputs.effect (fun e mem => within.operand (c := ((), e))
        (List.mem_cons_of_mem _ (List.mem_map_of_mem mem))) closed
      have second := default.effect (within.operand (c := ((), body)) List.mem_cons_self) first.closed
      exact put_effect within trivial label new (parts ▸ first.append second) (put_marks _ _ _)
        (j := 0) rfl rfl
  | _, _, _, _, .first _ tuple, within, closed => by
      have part := tuple.effect within closed
      exact .pass rfl trivial part
  | _, _, _, _, @Run.cond _ _ last _ _ _ _ _ new default clauses, within, closed => by
      have kind := default.not_tuple
      have first := default.effect (within.operand (c := ((), last)) List.mem_cons_self) closed
      have second := clauses.effect (fun c mem => ⟨within.operand (clause_operand mem (.inl rfl)),
        within.operand (clause_operand mem (.inr rfl))⟩) first.closed
      refine put_effect within kind rfl new (first.append second) (put_marks _ _ _) (j := 0) rfl ?_
      rw [Expr.single, kind, Nat.zero_add]
      rfl
  | _, _, _, _, @Run.plain e _ _ _ _ _ new plan args, within, closed => by
      obtain ⟨parts, label, fit, single⟩ := plan_task plan
      have done := args.effect (fun a mem => part_within (x := (false, e)) (y := (false, a)) within
        (parts ▸ List.mem_map_of_mem mem)) closed
      exact put_effect within fit label new (parts ▸ done) (put_marks _ _ _) (j := 1) rfl single
  | _, _, _, _, @Run.fold e _ _ _ _ _ _ _ _ _ new fold args fn, within, closed => by
      obtain ⟨parts, label, fit, single⟩ := fold_task fold
      have done := args.effect (fun a mem => part_within (x := (false, e)) (y := (false, a)) within
        (parts ▸ List.mem_map_of_mem mem)) closed
      rw [← fn.view] at done
      exact put_effect within fit label new (parts ▸ done) (put_marks _ _ _) (j := 1) rfl single

theorem TupleRun.effect : ∀ {e : Expr} {st st' : State} {ids : List Nat}, TupleRun e st ids st' →
    Within outputs e → (tasks named).Closed st.view →
      (tasks named).Effect [(true, e)] e.strip.spread st.view st'.view
  | _, _, _, _, @TupleRun.tuple items _ _ _ es, within, closed => by
      have done := es.effect (fun e mem => within.operand (c := ((), e))
        (List.mem_map_of_mem mem)) closed
      simp only [Expr.strip]
      exact .pass rfl trivial done
  | _, _, _, _, @TupleRun.metadata _ e _ _ _ inner, within, closed => by
      have done := inner.effect (within.operand (c := ((), e)) (List.mem_singleton.mpr rfl)) closed
      simp only [Expr.strip]
      exact .pass rfl trivial done
  | _, _, _, _, .hitBlock known, within, closed => by
      simp only [Expr.strip]
      exact hitTuple_effect within rfl closed known
  | _, _, _, _, .hitLoop known, within, closed => by
      simp only [Expr.strip]
      exact hitTuple_effect within rfl closed known
  | _, _, _, _, @TupleRun.block _ ins items _ _ _ _ _ missing inputs outs, within, closed => by
      have default : Within outputs (.tuple items) :=
        within.operand (c := ((), .tuple items)) List.mem_cons_self
      have first := inputs.effect (fun e mem => within.operand (c := ((), e))
        (List.mem_cons_of_mem _ (List.mem_map_of_mem mem))) closed
      have second := outs.effect (fun e mem => default.operand (c := ((), e))
        (List.mem_map_of_mem mem)) first.closed
      have tuple : (tasks named).Effect [(true, .tuple items)] 0 _ _ := .pass rfl trivial second
      simp only [Expr.strip]
      exact putTuple_effect within rfl rfl missing (first.append tuple) (putTuple_marks _ _ _)
        (j := 0) rfl rfl
  | _, _, _, _, .loop missing init test body _, within, closed => by
      have done := init.effect (fun e mem => within.operand (c := ((), e))
        (List.mem_map_of_mem mem)) closed
      rw [← test.view, ← body.view] at done
      simp only [Expr.strip]
      exact putTuple_effect within trivial rfl missing done (putTuple_marks _ _ _) (j := 1) rfl rfl
  | _, _, _, _, @TupleRun.cond _ clauses items _ _ _ _ _ _ _ elems data chains, within, closed => by
      obtain ⟨len, tuples⟩ := data.branches
      obtain ⟨marks, count⟩ := selectChains_nodes chains
      have default : Within outputs (.tuple items) :=
        within.operand (c := ((), .tuple items)) List.mem_cons_self
      have first := elems.effect (fun e mem => default.operand (c := ((), e))
        (List.mem_map_of_mem mem)) closed
      have tuple : (tasks named).Effect [(true, .tuple items)] 0 _ _ := .pass rfl trivial first
      have second := data.effect (fun c mem => ⟨within.operand (clause_operand mem (.inl rfl)),
        within.operand (clause_operand mem (.inr rfl))⟩) first.closed
      have selects := (tuple.append second).add marks count
      rw [List.length_zip, elems.length, Nat.min_self, len, Nat.zero_add] at selects
      simp only [Expr.strip]
      exact .pass rfl ⟨rfl, tuples⟩ selects

theorem ListRun.effect : ∀ {es : List Expr} {st st' : State} {ids : List Nat}, ListRun es st ids st' →
    (∀ e ∈ es, Within outputs e) → (tasks named).Closed st.view →
      (tasks named).Effect (es.map (false, ·)) 0 st.view st'.view
  | _, _, _, _, .nil, _, closed => .nil closed
  | _, _, _, _, .cons first rest, within, closed => by
      have head := first.effect (within _ List.mem_cons_self) closed
      exact head.append (rest.effect (fun e mem => within e (List.mem_cons_of_mem _ mem)) head.closed)

theorem ClauseRun.effect :
    ∀ {t : Tag} {clauses : List (Expr × Expr)} {defaultId id : Nat} {st st' : State},
    ClauseRun t clauses defaultId st id st' → (∀ c ∈ clauses, Within outputs c.1 ∧ Within outputs c.2) →
      (tasks named).Closed st.view → (tasks named).Effect
        (clauses.flatMap fun c => [(false, c.1), (false, c.2)]) clauses.length st.view st'.view
  | _, _, _, _, _, _, .nil, _, closed => .nil closed
  | _, _, _, _, _, _, .cons rest pred expr, within, closed => by
      obtain ⟨here, later⟩ := List.forall_mem_cons.mp within
      have first := rest.effect later closed
      have second := pred.effect here.1 first.closed
      have third := expr.effect here.2 second.closed
      have done := (first.append second).append third
      refine .same (done.add (j := 1) (fun _ => Iff.rfl) rfl) fun x => ?_
      simp only [List.flatMap_cons, List.mem_append, List.mem_cons, List.not_mem_nil, or_false]
      tauto

theorem DataRun.effect :
    ∀ {clauses : List (Expr × Expr)} {st st' : State} {data : List (Nat × List Nat)},
    DataRun clauses st data st' → (∀ c ∈ clauses, Within outputs c.1 ∧ Within outputs c.2) →
      (tasks named).Closed st.view → (tasks named).Effect
        (clauses.flatMap fun c => [(false, c.1), (true, c.2)]) 0 st.view st'.view
  | _, _, _, _, .nil, _, closed => .nil closed
  | _, _, _, _, @DataRun.cons _ items _ _ _ _ _ _ _ _ pred es rest, within, closed => by
      obtain ⟨here, later⟩ := List.forall_mem_cons.mp within
      have branch : Within outputs (.tuple items) := here.2
      have first := pred.effect here.1 closed
      have second := es.effect (fun e mem => branch.operand (c := ((), e))
        (List.mem_map_of_mem mem)) first.closed
      have tuple : (tasks named).Effect [(true, .tuple items)] 0 _ _ := .pass rfl trivial second
      exact (first.append tuple).append (rest.effect later tuple.closed)
end

end steps

section met
variable {e c : Expr} {t : Tag}

theorem static_strip (static : isStatic e = true) :
    (∃ t number, e.strip = .constant t number) ∨ ∃ t literal, e.strip = .tensor t literal := by
  unfold isStatic classifyStart at static
  cases bare : e.strip with
  | constant t number => exact .inl ⟨t, number, rfl⟩
  | tensor t literal => exact .inr ⟨t, literal, rfl⟩
  | _ => simp [bare] at static

theorem plan_parts {args : List Expr} {op : NodeOp} (plan : e.plan = some (args, op))
    (mem : ((), c) ∈ e.operands () ()) : (∃ a ∈ args, a = c ∨ a = c.strip) ∨ isStatic c = true := by
  cases e with
  | op t o es =>
    simp only [Expr.plan, Option.ite_none_right_eq_some, Option.some.injEq, Prod.mk.injEq] at plan
    obtain ⟨-, rfl, -⟩ := plan
    obtain ⟨x, there, same⟩ := List.mem_map.mp mem
    obtain rfl := (Prod.mk.inj same).2
    exact .inl ⟨x, there, .inl rfl⟩
  | slice t a starts lengths strides =>
    simp only [Expr.plan, Option.some.injEq, Prod.mk.injEq] at plan
    obtain ⟨rfl, -⟩ := plan
    refine .inl ⟨c, ?_, .inl rfl⟩
    rcases List.mem_cons.mp mem with same | start
    · exact List.mem_cons.mpr (.inl (Prod.mk.inj same).2)
    · obtain ⟨x, there, same⟩ := List.mem_map.mp start
      exact List.mem_cons_of_mem _ ((Prod.mk.inj same).2 ▸ there)
  | putSlice t a starts part =>
    simp only [Expr.plan] at plan
    split at plan
    · simp only [Option.some.injEq, Prod.mk.injEq] at plan
      obtain ⟨rfl, -⟩ := plan
      simp only [Expr.operands, List.mem_cons, Prod.mk.injEq, true_and] at mem
      rcases mem with rfl | rfl | start
      · exact .inl ⟨c, List.mem_cons_self, .inl rfl⟩
      · exact .inl ⟨c, List.mem_cons_of_mem _ List.mem_cons_self, .inl rfl⟩
      · obtain ⟨x, there, same⟩ := List.mem_map.mp start
        obtain rfl := (Prod.mk.inj same).2
        cases static : isStatic x with
        | true => exact .inr rfl
        | false =>
          refine .inl ⟨x.strip, ?_, .inr rfl⟩
          refine List.mem_cons_of_mem _
            (List.mem_cons_of_mem _ (List.mem_map_of_mem (List.mem_filter.mpr ⟨there, ?_⟩)))
          rw [static]
          rfl
    · cases plan
  | pad t x value config =>
    simp only [Expr.plan] at plan
    split at plan
    · simp only [Option.some.injEq, Prod.mk.injEq] at plan
      obtain ⟨rfl, -⟩ := plan
      obtain rfl := (Prod.mk.inj (List.mem_singleton.mp mem)).2
      exact .inl ⟨c, List.mem_singleton.mpr rfl, .inl rfl⟩
    · cases plan
  | windowScatter t o a source init window strides padding =>
    simp only [Expr.plan] at plan
    split at plan
    · simp only [Option.some.injEq, Prod.mk.injEq] at plan
      obtain ⟨rfl, -⟩ := plan
      simp only [Expr.operands, List.mem_cons, Prod.mk.injEq, true_and, List.not_mem_nil,
        or_false] at mem
      refine .inl ⟨c, ?_, .inl rfl⟩
      rcases mem with rfl | rfl <;> simp
    · cases plan
  | _ => cases plan

theorem clause_side {t : Tag} {clauses : List (Expr × Expr)} {default : Expr}
    (mem : ((), c) ∈ Expr.operands () () (.cond t clauses default)) :
    c = default ∨ ∃ p ∈ clauses, c = p.1 ∨ c = p.2 := by
  rcases List.mem_cons.mp mem with same | clause
  · exact .inl (Prod.mk.inj same).2
  · obtain ⟨p, there, side⟩ := List.mem_flatMap.mp clause
    simp only [List.mem_cons, Prod.mk.injEq, true_and, List.not_mem_nil, or_false] at side
    exact .inr ⟨p, there, side⟩

theorem block_side {inputs : List Expr} {default : Expr}
    (mem : ((), c) ∈ Expr.operands () () (.block t inputs default)) : c = default ∨ c ∈ inputs := by
  rcases List.mem_cons.mp mem with same | input
  · exact .inl (Prod.mk.inj same).2
  · obtain ⟨x, there, same⟩ := List.mem_map.mp input
    exact .inr ((Prod.mk.inj same).2 ▸ there)

theorem operand_tuple (fit : Task.fit (true, e)) (mem : ((), c) ∈ e.operands () ()) :
    ∃ y ∈ Task.parts (true, e), y.2 = c := by
  cases e with
  | tuple | loop =>
    obtain ⟨x, there, same⟩ := List.mem_map.mp mem
    exact ⟨(false, x), List.mem_map_of_mem there, (Prod.mk.inj same).2⟩
  | metadata t inner =>
      exact ⟨(true, inner), List.mem_cons_self, (Prod.mk.inj (List.mem_singleton.mp mem)).2.symm⟩
  | block t inputs default =>
    obtain ⟨outs, rfl⟩ := isTuple_iff.mp fit
    rcases block_side mem with rfl | input
    · exact ⟨(true, .tuple outs), List.mem_append_right _ List.mem_cons_self, rfl⟩
    · exact ⟨(false, c), List.mem_append_left _ (List.mem_map_of_mem input), rfl⟩
  | cond t clauses default =>
    rcases clause_side mem with rfl | ⟨p, there, rfl | rfl⟩
    · exact ⟨(true, c), List.mem_cons_self, rfl⟩
    · exact ⟨(false, p.1), List.mem_cons_of_mem _ (List.mem_flatMap.mpr ⟨p, there, by simp⟩), rfl⟩
    · exact ⟨(true, p.2), List.mem_cons_of_mem _ (List.mem_flatMap.mpr ⟨p, there, by simp⟩), rfl⟩
  | _ => exact fit.elim

theorem operand_plain (fit : Task.fit (false, e)) (mem : ((), c) ∈ e.operands () ()) :
    (∃ y ∈ Task.parts (false, e), y.2 = c ∨ y.2 = c.strip) ∨ (true, e) ∈ Task.parts (false, e) ∨
      isStatic c = true := by
  cases e with
  | parameter | constant | tensor => cases mem
  | tuple | loop | other => exact fit.elim
  | metadata t inner =>
    exact .inl ⟨(false, inner), List.mem_cons_self,
      .inl (Prod.mk.inj (List.mem_singleton.mp mem)).2.symm⟩
  | elem t src k =>
    exact .inl ⟨(true, src), List.mem_cons_self, .inl (Prod.mk.inj (List.mem_singleton.mp mem)).2.symm⟩
  | block t inputs default =>
    cases kind : default.isTuple with
    | true =>
      obtain ⟨outs, rfl⟩ := isTuple_iff.mp kind
      exact .inr (.inl List.mem_cons_self)
    | false =>
      rw [(block_task kind).1]
      rcases block_side mem with rfl | input
      · exact .inl ⟨(false, c), List.mem_append_right _ List.mem_cons_self, .inl rfl⟩
      · exact .inl ⟨(false, c), List.mem_append_left _ (List.mem_map_of_mem input), .inl rfl⟩
  | cond t clauses default =>
    rcases clause_side mem with rfl | ⟨p, there, rfl | rfl⟩
    · exact .inl ⟨(false, c), List.mem_cons_self, .inl rfl⟩
    · exact .inl ⟨(false, p.1),
        List.mem_cons_of_mem _ (List.mem_flatMap.mpr ⟨p, there, by simp⟩), .inl rfl⟩
    · exact .inl ⟨(false, p.2),
        List.mem_cons_of_mem _ (List.mem_flatMap.mpr ⟨p, there, by simp⟩), .inl rfl⟩
  | reduce | windowReduce =>
    simp only [Expr.operands, List.mem_cons, Prod.mk.injEq, true_and, List.not_mem_nil, or_false] at mem
    refine .inl ⟨(false, c), ?_, .inl rfl⟩
    rcases mem with rfl | rfl <;> simp [Task.parts]
  | op | slice | putSlice | pad | windowScatter =>
    obtain ⟨⟨args, op⟩, plan⟩ := Option.isSome_iff_exists.mp fit
    rw [(plan_task plan).1]
    rcases plan_parts plan mem with ⟨a, there, side⟩ | static
    · exact .inl ⟨(false, a), List.mem_map_of_mem there, side⟩
    · exact .inr (.inr static)

inductive Seen (visited : Task → Prop) : Expr → Prop where
  | task {x : Task} : visited x → Seen visited x.2
  | metadata {u : Tag} {inner : Expr} : Seen visited inner → Seen visited (.metadata u inner)
  | constant {u : Tag} {number : Number} : Seen visited (.constant u number)
  | tensor {u : Tag} {literal : Literal} : Seen visited (.tensor u literal)

variable {visited : Task → Prop}

theorem Seen.of_strip (seen : Seen visited e.strip) : Seen visited e := by
  induction e using Expr.strip.induct with
  | case1 t e ih =>
    rw [Expr.strip] at seen
    exact .metadata (ih seen)
  | case2 e plain => rwa [Expr.strip.eq_2 e plain] at seen

theorem Seen.operand (fits : ∀ x, visited x → x.fit)
    (parts : ∀ x y, visited x → y ∈ x.parts → visited y)
    (seen : Seen visited e) (mem : ((), c) ∈ e.operands () ()) : Seen visited c := by
  cases seen with
  | constant | tensor => cases mem
  | metadata inner => exact (Prod.mk.inj (List.mem_singleton.mp mem)).2 ▸ inner
  | @task x here =>
    obtain ⟨tuple, e⟩ := x
    have as_tuple (here : visited (true, e)) : Seen visited c := by
      obtain ⟨y, part, same⟩ := operand_tuple (fits _ here) mem
      exact same ▸ .task (parts _ _ here part)
    cases tuple with
    | true => exact as_tuple here
    | false =>
      rcases operand_plain (fits _ here) mem with ⟨y, part, same | bare⟩ | block | static
      · exact same ▸ .task (parts _ _ here part)
      · exact .of_strip (bare ▸ .task (parts _ _ here part))
      · exact as_tuple (parts _ _ here block)
      · refine .of_strip ?_
        rcases static_strip static with ⟨t, number, bare⟩ | ⟨t, literal, bare⟩
        · exact bare ▸ .constant
        · exact bare ▸ .tensor

theorem Seen.under {o : Expr} (fits : ∀ x, visited x → x.fit)
    (parts : ∀ x y, visited x → y ∈ x.parts → visited y)
    (seen : Seen visited o) (there : e ∈ o.under) : Seen visited e := by
  induction o using Expr.under.induct with
  | case1 o ih =>
    rcases mem_under.mp there with rfl | ⟨c, mem, deeper⟩
    · exact seen
    · exact ih ⟨c, mem⟩ (seen.operand fits parts mem) deeper

theorem tuple_caller {x y : Task} (fit : x.fit) (mem : y ∈ x.parts) (tuple : y.1 = true) :
    (∃ t src k, x = (false, .elem t src k) ∧ y.2 = src) ∨
    (∃ t ins default, y.2 = .block t ins default) ∨
      (∃ t, x = (true, .metadata t y.2)) ∨ y.2.isTuple = true := by
  obtain ⟨mode, e⟩ := y
  obtain rfl : mode = true := tuple
  have listed {es : List Expr} (mem : ((true, e) : Task) ∈ es.map (false, ·)) : False := by
    obtain ⟨x, -, same⟩ := List.mem_map.mp mem
    cases same
  unfold Task.parts at mem
  split at mem
  · split at mem
    · cases List.mem_singleton.mp mem
    · next t src k => exact .inl ⟨t, src, k, rfl, (Prod.mk.inj (List.mem_singleton.mp mem)).2⟩
    · next t ins outs => exact .inr (.inl ⟨t, ins, _, (Prod.mk.inj (List.mem_singleton.mp mem)).2⟩)
    · rcases List.mem_append.mp mem with input | last
      · exact (listed input).elim
      · cases List.mem_singleton.mp last
    · rcases List.mem_cons.mp mem with same | clause
      · cases same
      · obtain ⟨c, -, side⟩ := List.mem_flatMap.mp clause
        simp at side
    · simp at mem
    · simp at mem
    · split at mem
      · exact (listed mem).elim
      · cases mem
  · split at mem
    · exact (listed mem).elim
    · next t inner =>
      obtain rfl := (Prod.mk.inj (List.mem_singleton.mp mem)).2
      exact .inr (.inr (.inl ⟨t, rfl⟩))
    · rcases List.mem_append.mp mem with input | last
      · exact (listed input).elim
      · exact .inr (.inr (.inr ((Prod.mk.inj (List.mem_singleton.mp last)).2 ▸ rfl)))
    · exact (listed mem).elim
    · rcases List.mem_cons.mp mem with same | clause
      · exact .inr (.inr (.inr ((Prod.mk.inj same).2 ▸ fit.1)))
      · obtain ⟨c, there, side⟩ := List.mem_flatMap.mp clause
        simp only [List.mem_cons, Prod.mk.injEq, true_and, List.not_mem_nil, or_false,
          reduceCtorEq, false_and, false_or] at side
        exact .inr (.inr (.inr (side ▸ fit.2 c there)))
    · cases mem

end met

section sum
variable {table : Ref → Expr} {outputs : List Expr} (named : Named table outputs)

def Visited (x : Task) : Prop := ∃ root ∈ outputs.map (false, ·), (tasks named).Reach root x

variable {named} {a b : Memo.View Mark}

theorem Visited.part {x y : Task} (visited : Visited named x) (mem : y ∈ x.parts) :
    Visited named y := by
  obtain ⟨root, out, reach⟩ := visited
  exact ⟨root, out, reach.tail mem⟩

theorem Visited.within {x : Task} (visited : Visited named x) : Within outputs x.2 := by
  obtain ⟨root, out, reach⟩ := visited
  obtain ⟨o, there, rfl⟩ := List.mem_map.mp out
  exact (Memo.Tasks.reach_inside (T := tasks named) ⟨o, there, mem_under.mpr (.inl rfl)⟩ reach).1

theorem Visited.leaves {x : Task} {m : Mark} (visited : Visited named x) (label : x.label = some m) :
    ∃ root ∈ outputs.map (false, ·), (tasks named).Leaves root m := by
  obtain ⟨root, out, reach⟩ := visited
  exact ⟨root, out, x, reach, label⟩

theorem seen_within (fits : ∀ x, Visited named x → x.fit) {e : Expr} (within : Within outputs e) :
    Seen (Visited named) e := by
  obtain ⟨o, out, there⟩ := within
  have root : Visited named (false, o) := ⟨(false, o), List.mem_map_of_mem out, .refl⟩
  exact Seen.under fits (fun _ _ => Visited.part) (.task root) there

theorem tuple_projected (fits : ∀ x, Visited named x → x.fit) {x : Task} (visited : Visited named x)
    (tuple : x.1 = true) : (∃ t ins default, x.2 = .block t ins default) ∨ x.2.isTuple = true ∨
      ∃ t src k, Visited named (false, .elem t src k) ∧ src.strip = x.2.strip := by
  obtain ⟨root, out, reach⟩ := visited
  obtain ⟨o, there, rfl⟩ := List.mem_map.mp out
  induction reach with
  | refl => cases tuple
  | @tail x y before mem ih =>
    have here : Visited named x := ⟨_, out, before⟩
    rcases tuple_caller (fits x here) mem tuple with ⟨t, src, k, rfl, same⟩ | block | ⟨t, rfl⟩ | pair
    · exact .inr (.inr ⟨t, src, k, here, by rw [same]⟩)
    · exact .inl block
    · rcases ih rfl with ⟨_, _, _, other⟩ | other | ⟨t', src, k, elem, same⟩
      · cases other
      · cases other
      · exact .inr (.inr ⟨t', src, k, elem, same.trans (by rw [Expr.strip])⟩)
    · exact .inr (.inl pair)

theorem own_sum (named : Named table outputs) :
    ownNodes outputs = ∑ r ∈ refs outputs, (table r).own := by
  have pairs : (((outputs.flatMap Expr.under).filter fun e => !e.isTuple).map fun e =>
      (e.tag.ref, e.own)) =
      (((outputs.flatMap Expr.under).filter fun e => !e.isTuple).map fun e => e.tag.ref).map
        fun r => (r, (table r).own) := by
    rw [List.map_map]
    refine List.map_congr_left fun e mem => ?_
    obtain ⟨there, kind⟩ := List.mem_filter.mp mem
    have within : Within outputs e := List.mem_flatMap.mp there
    rw [Function.comp_apply, named e within (by simpa using kind)]
  have apart : Function.Injective fun r => (r, (table r).own) := fun r r' same => (Prod.mk.inj same).1
  have distinct (l : List Ref) : l.dedup.toFinset = l.toFinset := by
    ext r
    simp
  rw [ownNodes, pairs, List.dedup_map_of_injective apart, List.map_map, refs, ← distinct,
    List.sum_toFinset _ (List.nodup_dedup _)]
  rfl

theorem Seen.cases {visited : Task → Prop} {e : Expr} (seen : Seen visited e) :
    (∃ mode, visited (mode, e)) ∨ e.single = 0 ∧ e.many = 0 ∧ e.spread = 0 := by
  cases seen with
  | @task x here => exact .inl ⟨x.1, here⟩
  | metadata => exact .inr ⟨rfl, rfl, rfl⟩
  | constant | tensor => exact .inr ⟨rfl, rfl, rfl⟩

theorem single_met (fits : ∀ x, Visited named x → x.fit) {e : Expr} (within : Within outputs e)
    (needs : 0 < e.single) :
      Visited named (false, e) ∧ Task.label (false, e) = some (false, e.tag.ref) := by
  rcases (seen_within fits within).cases with ⟨mode, here⟩ | ⟨zero, -, -⟩
  · have fit := fits _ here
    cases mode with
    | true =>
      cases e with
      | tuple | metadata | block | loop => exact absurd needs (Nat.lt_irrefl 0)
      | cond t clauses default =>
        rw [Expr.single, if_pos fit.1] at needs
        exact absurd needs (Nat.lt_irrefl 0)
      | _ => exact fit.elim
    | false =>
      refine ⟨here, ?_⟩
      cases e with
      | tuple | block => exact absurd needs (Nat.lt_irrefl 0)
      | _ => rfl
  · omega

theorem many_met (fits : ∀ x, Visited named x → x.fit) {e : Expr} (within : Within outputs e)
    (needs : 0 < e.many) : Visited named (true, e) ∧ Task.label (true, e) = some (true, e.tag.ref) := by
  rcases (seen_within fits within).cases with ⟨mode, here⟩ | ⟨-, zero, -⟩
  · cases e with
    | loop =>
      cases mode with
      | true => exact ⟨here, rfl⟩
      | false => exact (fits _ here).elim
    | _ => exact absurd needs (Nat.lt_irrefl 0)
  · omega

theorem spread_met (fits : ∀ x, Visited named x → x.fit) {e : Expr} (within : Within outputs e)
    (needs : 0 < e.spread) : ∃ t src k, Within outputs (.elem t src k) ∧ src.strip = e := by
  rcases (seen_within fits within).cases with ⟨mode, here⟩ | ⟨-, -, zero⟩
  · cases e with
    | cond t clauses default =>
      cases mode with
      | false =>
        obtain ⟨elems, rfl⟩ : ∃ elems, default = .tuple elems := by
          cases default with
          | tuple elems => exact ⟨elems, rfl⟩
          | _ => exact absurd needs (Nat.lt_irrefl 0)
        cases fits _ here
      | true =>
        rcases tuple_projected fits here rfl with ⟨_, _, _, other⟩ | other | ⟨t', src, k, elem, same⟩
        · cases other
        · cases other
        · exact ⟨t', src, k, elem.within, same.trans (by rw [Expr.strip]; simp)⟩
    | _ => exact absurd needs (Nat.lt_irrefl 0)
  · omega

theorem nodes_sum {ids : List Nat} {st : State} {blobs : List (List UInt8)} {k : Nat}
    (run : ListRun outputs (.start blobs k) ids st) :
    (∀ x, Visited named x → x.fit) ∧
      st.nodes.length = ∑ r ∈ refs outputs, ((table r).single + (table r).many) := by
  classical
  have none (m : Mark) : ¬ (State.start blobs k).view.marked m := by
    obtain ⟨tuple, r⟩ := m
    cases tuple <;> simp [State.view, State.start]
  have done := @ListRun.effect table outputs named _ _ _ _ run (fun e mem =>
    ⟨e, mem, mem_under.mpr (.inl rfl)⟩)
    fun m there => absurd there (none m)
  have fits : ∀ x, Visited named x → x.fit := fun x ⟨root, out, reach⟩ => done.fits root out x reach
  refine ⟨fits, ?_⟩
  have count : st.nodes.length = _ := Memo.Tasks.count_marks done none rfl
  rw [count]
  change ∑ m ∈ Finset.univ ×ˢ refs outputs, _ = _
  rw [Finset.sum_product, Fintype.sum_bool, ← Finset.sum_add_distrib]
  refine Finset.sum_congr rfl fun r mem => ?_
  obtain ⟨e, within, kind, rfl⟩ := mem_refs.mp mem
  have same := named e within kind
  rw [Nat.add_comm]
  refine congrArg₂ (· + ·) ?_ ?_
  · change (if _ then (table e.tag.ref).single else 0) = _
    rw [same, ite_eq_left_iff]
    intro missing
    by_contra needs
    obtain ⟨here, label⟩ := single_met fits within (Nat.pos_of_ne_zero (Ne.symm needs))
    exact missing (here.leaves label)
  · change (if _ then (table e.tag.ref).many else 0) = _
    rw [same, ite_eq_left_iff]
    intro missing
    by_contra needs
    obtain ⟨here, label⟩ := many_met fits within (Nat.pos_of_ne_zero (Ne.symm needs))
    exact missing (here.leaves label)

theorem spread_tensor {e : Expr} (needs : 0 < e.spread) : e.isTuple = false := by
  cases e with
  | tuple es => exact absurd needs (Nat.lt_irrefl 0)
  | _ => rfl

theorem projected_elem {e : Expr} (needs : 0 < e.projected) : ∃ t src k, e = .elem t src k := by
  cases e with
  | elem t src k => exact ⟨t, src, k, rfl⟩
  | _ => exact absurd needs (Nat.lt_irrefl 0)

def Expr.source : Expr → Expr
  | .elem _ src _ => src.strip
  | e => e

theorem projected_sum (fits : ∀ x, Visited named x → x.fit) :
    ∑ r ∈ refs outputs, (table r).projected ≤ ∑ r ∈ refs outputs, (table r).spread ↔
    ProjectedOnce outputs := by
  let E := (refs outputs).filter fun r => 0 < (table r).projected
  let C := (refs outputs).filter fun r => 0 < (table r).spread
  let f (r : Ref) : Ref := (table r).source.tag.ref
  have elem (r : Ref) (mem : r ∈ E) : ∃ t src k, Within outputs (.elem t src k) ∧ t.ref = r ∧
      table r = .elem t src k ∧ 0 < src.strip.spread ∧ table (f r) = src.strip := by
    obtain ⟨there, needs⟩ := Finset.mem_filter.mp mem
    obtain ⟨e, within, kind, rfl⟩ := mem_refs.mp there
    have same := named e within kind
    rw [same] at needs
    obtain ⟨t, src, k, rfl⟩ := projected_elem needs
    have source : Within outputs src.strip := (within.operand (c := ((), src)) List.mem_cons_self).strip
    refine ⟨t, src, k, within, rfl, same, needs, ?_⟩
    change table ((table t.ref).source.tag.ref) = _
    rw [show table t.ref = .elem t src k from same]
    exact named src.strip source (spread_tensor needs)
  have in_E {t : Tag} {src : Expr} {k : Nat} (within : Within outputs (.elem t src k))
      (needs : 0 < src.strip.spread) :
      t.ref ∈ E ∧ f t.ref = src.strip.tag.ref := by
    have same : table t.ref = .elem t src k := named _ within rfl
    refine ⟨Finset.mem_filter.mpr ⟨mem_refs.mpr ⟨_, within, rfl, rfl⟩, ?_⟩, ?_⟩
    · rw [same]
      exact needs
    · change (table t.ref).source.tag.ref = _
      rw [same]
      rfl
  have maps : ∀ r ∈ E, f r ∈ C := by
    intro r mem
    obtain ⟨t, src, k, within, rfl, same, needs, source⟩ := elem r mem
    have inner : Within outputs src.strip := (within.operand (c := ((), src)) List.mem_cons_self).strip
    refine Finset.mem_filter.mpr
      ⟨mem_refs.mpr ⟨src.strip, inner, spread_tensor needs, (in_E within needs).2.symm⟩, ?_⟩
    rw [source]
    exact needs
  have onto : ∀ c ∈ C, ∃ r ∈ E, f r = c := by
    intro c mem
    obtain ⟨there, needs⟩ := Finset.mem_filter.mp mem
    obtain ⟨e, within, kind, rfl⟩ := mem_refs.mp there
    rw [named e within kind] at needs
    obtain ⟨t, src, k, found, rfl⟩ := spread_met fits within needs
    exact ⟨t.ref, in_E found needs⟩
  have left : ∑ r ∈ refs outputs, (table r).projected = ∑ r ∈ E, (table (f r)).spread := by
    rw [← Finset.sum_filter_of_ne (p := fun r => 0 < (table r).projected) fun r _ some =>
      Nat.pos_of_ne_zero some]
    refine Finset.sum_congr rfl fun r mem => ?_
    obtain ⟨t, src, k, -, -, same, -, source⟩ := elem r mem
    rw [source, same]
    rfl
  have right : ∑ r ∈ refs outputs, (table r).spread = ∑ r ∈ C, (table r).spread :=
    (Finset.sum_filter_of_ne fun r _ some => Nat.pos_of_ne_zero some).symm
  rw [left, right, Memo.repeated_le_iff (w := fun c => (table c).spread) maps onto
    fun c mem => (Finset.mem_filter.mp mem).2]
  constructor
  · intro apart t src k t' src' k' within within' needs same
    obtain ⟨mem, source⟩ := in_E within needs
    obtain ⟨mem', source'⟩ := in_E within' (same ▸ needs)
    exact apart mem mem' (by rw [source, source', same])
  · intro once r mem r' mem' same
    obtain ⟨t, src, k, within, rfl, -, needs, source⟩ := elem r mem
    obtain ⟨t', src', k', within', rfl, -, -, source'⟩ := elem r' mem'
    exact once t src k t' src' k' within within' needs (by rw [← source', ← source, same])

end sum

theorem level_once_iff {table : Ref → Expr} {outputs : List Expr} {ids : List Nat} {st : State}
    {blobs : List (List UInt8)} {k : Nat} (named : Named table outputs)
    (run : ListRun outputs (.start blobs k) ids st) :
    st.nodes.length ≤ ownNodes outputs ↔ ProjectedOnce outputs := by
  obtain ⟨fits, count⟩ := @nodes_sum table outputs named ids st blobs k run
  have split : ∑ r ∈ refs outputs, ((table r).single + (table r).many) + ∑ r ∈ refs outputs,
      (table r).spread =
      ownNodes outputs + ∑ r ∈ refs outputs, (table r).projected := by
    rw [own_sum named, ← Finset.sum_add_distrib, ← Finset.sum_add_distrib]
    exact Finset.sum_congr rfl fun r _ => own_split (table r)
  rw [← projected_sum fits]
  omega

/-- A graph, and a sub-graph, has no more nodes than its expressions need, each counted once, exactly when
    no cond of tuples is projected twice. -/
theorem nodes_once_iff {table : Ref → Expr} {outputs : List Expr} (named : Named table outputs) :
    (∀ g, toGraph outputs = .ok g → (g.nodes.length ≤ ownNodes outputs ↔ ProjectedOnce outputs)) ∧
      ∀ st sub st', lowerIsolated (lowerOutputs outputs) st = .ok (sub, st') →
        (sub.nodes.length ≤ ownNodes outputs ↔ ProjectedOnce outputs) := by
  constructor
  · intro g lowered
    obtain ⟨ids, st, run, rfl⟩ := toGraph_run lowered
    rw [← level_once_iff named run, List.length_reverse]
  · intro st sub st' lowered
    obtain ⟨specs, last, ran, rfl, -⟩ := lowerIsolated_ok lowered
    obtain ⟨ids, run, -⟩ := lowerOutputs_run outputs ran
    rw [← level_once_iff named run]
    change last.nodes.reverse.length ≤ _ ↔ _
    rw [List.length_reverse]

def swap : Expr :=
  .cond ⟨3, [], .s64⟩ [(.parameter ⟨0, [], .u8⟩ 0,
    .tuple [.parameter ⟨1, [], .s64⟩ 1, .parameter ⟨2, [], .s64⟩ 2])]
    (.tuple [.parameter ⟨2, [], .s64⟩ 2, .parameter ⟨1, [], .s64⟩ 1])

def swapped (k : Nat) : Expr := .elem ⟨4 + k, [], .s64⟩ swap k

def swapTable (r : Ref) : Expr :=
  match r with
  | 0 => .parameter ⟨0, [], .u8⟩ 0
  | 1 => .parameter ⟨1, [], .s64⟩ 1
  | 2 => .parameter ⟨2, [], .s64⟩ 2
  | 3 => swap
  | r => swapped (r - 4)

theorem swap_under (k : Nat) : (swapped k).under =
    [swapped k, swap, .tuple [.parameter ⟨2, [], .s64⟩ 2, .parameter ⟨1, [], .s64⟩ 1],
    .parameter ⟨2, [], .s64⟩ 2,
      .parameter ⟨1, [], .s64⟩ 1, .parameter ⟨0, [], .u8⟩ 0,
      .tuple [.parameter ⟨1, [], .s64⟩ 1, .parameter ⟨2, [], .s64⟩ 2], .parameter ⟨1, [], .s64⟩ 1,
      .parameter ⟨2, [], .s64⟩ 2] := by
  have leaf (t : Tag) (pos : Nat) : (Expr.parameter t pos).under = [.parameter t pos] := under_eq _
  have pair (e e' : Expr) :
      (Expr.tuple [e, e']).under = .tuple [e, e'] :: (e.under ++ (e'.under ++ [])) := under_eq _
  have whole : swap.under = swap :: _ := under_eq swap
  have elem : (swapped k).under = swapped k :: (swap.under ++ []) := under_eq _
  rw [elem, whole]
  simp only [swap, Expr.operands, List.flatMap_cons, List.flatMap_nil, leaf, pair, List.cons_append,
    List.nil_append, List.append_nil]

theorem swap_named : Named swapTable [swapped 0, swapped 1] := by
  rintro e ⟨o, out, there⟩ kind
  obtain ⟨k, few, rfl⟩ : ∃ k < 2, o = swapped k := by
    simp only [List.mem_cons, List.not_mem_nil, or_false] at out
    rcases out with rfl | rfl
    · exact ⟨0, by omega, rfl⟩
    · exact ⟨1, by omega, rfl⟩
  rw [swap_under] at there
  simp only [List.mem_cons, List.not_mem_nil, or_false] at there
  rcases there with rfl | rfl | rfl | rfl | rfl | rfl | rfl | rfl | rfl
  · change swapTable (4 + k) = _
    match k with
    | 0 | 1 => rfl
  all_goals first | rfl | cases kind

theorem swap_named_first : Named swapTable [swapped 0] := by
  rintro e ⟨o, out, there⟩
  exact swap_named e ⟨o, List.mem_cons.mpr (.inl (List.mem_singleton.mp out)), there⟩

theorem first_once : ∃ g, toGraph [swapped 0] = .ok g ∧
    (g.nodes.length ≤ ownNodes [swapped 0] ↔ ProjectedOnce [swapped 0]) :=
  ⟨_, rfl, (nodes_once_iff swap_named_first).1 _ rfl⟩

/-- Both elements of a cond of two: the selects are there twice. -/
theorem swap_twice : Named swapTable [swapped 0, swapped 1] ∧
    ∃ g, toGraph [swapped 0, swapped 1] = .ok g ∧ g.nodes.length = 4 ∧
    ownNodes [swapped 0, swapped 1] = 2 := by
  refine ⟨swap_named, _, rfl, rfl, ?_⟩
  simp only [ownNodes, List.flatMap_cons, List.flatMap_nil, swap_under]
  decide

end NxTinygrad.Lowering
