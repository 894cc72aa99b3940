import NxTinygrad.Scoping

/- The graph of an expression computes its value: the traversal of the lowering, step by step,
   against the strategy that selects between branches that are all computed. -/
namespace NxTinygrad.Lowering
open IR Interpreter StraightLine

variable {V : Type}

def selects (S : Sem V) : List Tag → V → List V → List V → Except EvalError (List V)
  | [], _, _, _ => .ok []
  | t :: rest, pred, x :: xs, y :: ys => do
      let v ← orFault (S.prim .select [] [pred, x, y] t.shape t.dtype)
      let vs ← selects S rest pred xs ys
      .ok (v :: vs)
  | _ :: _, _, _, _ => .error .fault

def foldLeft (f : V → V → Except EvalError V) : V → List V → Except EvalError V
  | acc, [] => .ok acc
  | acc, part :: rest => do
      let acc ← f acc part
      foldLeft f acc rest

def Strategy.flow (S : Sem V) : Strategy V where
  guard := S.isTensor
  branch tags pred expr default := do
    let ys ← default
    let p ← pred
    let xs ← expr
    selects S tags p xs ys
  start s v := match classifyStart s with
    | .ok (some (.int n)) => some (.static n)
    | _ => (S.item v).map .read
  fold op f t acc := do
    let acc ← orFault (S.foldAcc op t acc)
    let parts ← orFault (S.foldParts op t)
    let acc ← foldLeft f acc parts
    orFault (S.foldFinish op t acc)

section
variable (S : Sem V) (blobs : List Blob) (fuel : Nat) (params : List V)

inductive Built : List InputSpec → List Constant → List Node → Env V → Prop where
  | start : Built [] [] [] (fun _ => none)
  | input {is cs ns E i v} : Built is cs ns E → E i.id = none → params[i.index]? = some v →
      Built (i :: is) cs ns (Function.update E i.id (some v))
  | constant {is cs ns E c v} : Built is cs ns E → E c.id = none →
      makeConstant S blobs c = .ok v → Built is (c :: cs) ns (Function.update E c.id (some v))
  | node {is cs ns E n vs outs} : Built is cs ns E → (∀ id ∈ n.definedIds, E id = none) →
      fetch EvalError.missing E (nodeReads n) = .ok vs → runNode S blobs fuel [] n vs = .ok outs →
      Built is cs (n :: ns) (assign E n.definedIds outs)
end

section
variable {S : Sem V} {blobs : List Blob} {fuel : Nat} {params : List V}

theorem evalNodes_snoc {nodes : List Node} {n : Node} {env mid : Env V} {vs outs : List V}
    (ran : evalNodes S blobs fuel [] nodes env = .ok mid)
    (fetched : fetch EvalError.missing mid (nodeReads n) = .ok vs)
    (result : runNode S blobs fuel [] n vs = .ok outs) :
    evalNodes S blobs fuel [] (nodes ++ [n]) env = .ok (assign mid n.definedIds outs) := by
  rw [evalNodes_eq_execAll] at ran ⊢
  rw [List.map_append]
  refine execAll_append_ok.mpr ⟨mid, ran, ?_⟩
  exact execAll_cons_ok.mpr ⟨_, exec_ok.mpr ⟨vs, outs, fetched, result, rfl⟩, rfl⟩

theorem mapM_snoc {α β : Type} {f : α → Except EvalError β} {xs : List α} {ys : List β} {x : α}
    {y : β} (all : xs.mapM f = .ok ys) (last : f x = .ok y) : (xs ++ [x]).mapM f = .ok (ys ++ [y]) := by
  rw [List.mapM_append]
  simp [all, last, bind, Except.bind, pure, Except.pure]

theorem assign_snoc {env : Env V} {ids : List Nat} {vs : List V} (len : vs.length = ids.length)
    (id : Nat) (v : V) :
    assign env (ids ++ [id]) (vs ++ [v]) = Function.update (assign env ids vs) id (some v) := by
  induction ids generalizing env vs with
  | nil =>
    cases vs with
    | nil => rfl
    | cons _ _ => simp at len
  | cons x rest ih =>
    cases vs with
    | nil => simp at len
    | cons w vs => exact ih (by simpa using len)

theorem Built.runs {is : List InputSpec} {cs : List Constant} {ns : List Node} {E : Env V}
    (built : Built S blobs fuel params is cs ns E) : ∃ base,
      bindParams S blobs params is.reverse cs.reverse = .ok base ∧
        evalNodes S blobs fuel [] ns.reverse base = .ok E := by
  induction built with
  | start => exact ⟨_, rfl, by simp [evalNodes, assign]⟩
  | @input is cs ns E i v _ unset given ih =>
    obtain ⟨base, bound, ran⟩ := ih
    rw [evalNodes_eq_execAll] at ran
    obtain ⟨values, args, made, taken, rfl⟩ := bindParams_ok.mp bound
    refine ⟨_, bindParams_ok.mpr ⟨values, args ++ [v], made, ?_, rfl⟩, ?_⟩
    · rw [List.reverse_cons]
      exact mapM_snoc taken (by simp [given, orFault])
    · rw [evalNodes_eq_execAll, List.reverse_cons, List.map_append, List.map_singleton,
        assign_snoc (by simp [mapM_length taken])]
      exact execAll_update ran unset v
  | @constant is cs ns E c v _ unset given ih =>
    obtain ⟨base, bound, ran⟩ := ih
    rw [evalNodes_eq_execAll] at ran
    obtain ⟨values, args, made, taken, rfl⟩ := bindParams_ok.mp bound
    refine ⟨_, bindParams_ok.mpr ⟨values ++ [v], args, ?_, taken, rfl⟩, ?_⟩
    · rw [List.reverse_cons]
      exact mapM_snoc made given
    · rw [evalNodes_eq_execAll, List.reverse_cons, List.map_append, List.map_singleton,
        assign_snoc (by simp [mapM_length made]), assign_update (execAll_unset ran unset)]
      exact execAll_update ran unset v
  | @node is cs ns E n vs outs _ _ fetched result ih =>
    obtain ⟨base, bound, ran⟩ := ih
    refine ⟨base, bound, ?_⟩
    rw [List.reverse_cons]
    exact evalNodes_snoc ran fetched result

end

theorem runLoop_ok {S : Sem V} {K : Strategy V} {fuel : Nat}
    {test body : List V → Except EvalError (List V)} {init vs : List V} :
    runLoop S K fuel test body init = .ok vs ↔ init.all K.guard = true ∧
      whileLoop { S with isTensor := K.guard } test body fuel init = .ok vs := by
  unfold runLoop
  split
  · rename_i real
    simp only [real, true_and]
  · rename_i mixed
    simp [mixed]

section
variable {S : Sem V} {K : Strategy V} {fuel : Nat} {ρ : Nat → Option V}

theorem eval_strip {e : Expr} {v : V} (h : eval S K fuel ρ e = .ok v) :
    eval S K fuel ρ e.strip = .ok v :=
  strip_of (P := fun e => eval S K fuel ρ e = .ok v)
    (fun _ _ outer => by simpa only [eval] using outer) h

theorem evalList_cons {e : Expr} {rest : List Expr} {vs : List V} :
    evalList S K fuel ρ (e :: rest) = .ok vs ↔ ∃ w ws, eval S K fuel ρ e = .ok w ∧
      evalList S K fuel ρ rest = .ok ws ∧ vs = w :: ws := by
  simp only [evalList, bind_ok, Except.ok.injEq]
  constructor
  · rintro ⟨w, first, ws, tail, rfl⟩
    exact ⟨w, ws, first, tail, rfl⟩
  · rintro ⟨w, ws, first, tail, rfl⟩
    exact ⟨w, first, ws, tail, rfl⟩

theorem evalList_nil : evalList S K fuel ρ [] = .ok [] := by simp only [evalList]

theorem evalList_length {es : List Expr} {vs : List V} (h : evalList S K fuel ρ es = .ok vs) :
    vs.length = es.length := by
  induction es generalizing vs with
  | nil =>
    rw [evalList_nil] at h
    cases h
    rfl
  | cons e rest ih =>
    obtain ⟨w, ws, _, tail, rfl⟩ := evalList_cons.mp h
    simp [ih tail]

theorem eval_block {t : Tag} {inputs : List Expr} {default : Expr} {v : V}
    (kind : default.isTuple = false)
    (h : eval S K fuel ρ (.block t inputs default) = .ok v) : ∃ args,
      evalList S K fuel ρ inputs = .ok args ∧
        eval S K fuel (fun pos => args[pos]?) default = .ok v := by
  cases default with
  | tuple es => cases kind
  | _ => simpa only [eval, bind_ok] using h

theorem eval_tupleBlock {t : Tag} {inputs outputs : List Expr} {v : V}
    (h : eval S K fuel ρ (.block t inputs (.tuple outputs)) = .ok v) : ∃ vs,
      evalTuple S K fuel ρ (.block t inputs (.tuple outputs)) = .ok vs ∧ vs.head? = some v := by
  simp only [eval, evalTuple, bind_ok, orFault_ok] at h ⊢
  obtain ⟨args, ran, vs, outs, head⟩ := h
  exact ⟨vs, ⟨args, ran, outs⟩, head⟩

theorem eval_fold {e a acc body : Expr} {op : FoldOp} {v : V} (fold : e.fold = some (a, acc, op, body))
    (h : eval S K fuel ρ e = .ok v) : ∃ x y, eval S K fuel ρ a = .ok x ∧
      eval S K fuel ρ acc = .ok y ∧
      K.fold op (fun x y => eval S K fuel (fun pos => [x, y][pos]?) body) x y = .ok v := by
  cases e with
  | reduce t a acc axes keepAxes body =>
    simp only [Expr.fold, Option.some.injEq, Prod.mk.injEq] at fold
    obtain ⟨rfl, rfl, rfl, rfl⟩ := fold
    simp only [eval, bind_ok] at h
    obtain ⟨x, first, y, second, folded⟩ := h
    exact ⟨x, y, first, second, folded⟩
  | windowReduce t a acc window strides padding dilations body =>
    simp only [Expr.fold, Option.some.injEq, Prod.mk.injEq] at fold
    obtain ⟨rfl, rfl, rfl, rfl⟩ := fold
    simp only [eval, bind_ok] at h
    obtain ⟨x, first, y, second, folded⟩ := h
    exact ⟨x, y, first, second, folded⟩
  | _ => cases fold

theorem evalDynamic_resolves {starts : List (Int ⊕ Expr)} {ss : List Start}
    (h : evalDynamic S K fuel ρ starts = .ok ss) : ∃ ds,
      evalList S K fuel ρ (dynamicStarts starts) = .ok ds ∧
        ∀ before, resolveStarts S (before ++ ds) [] (sliceStarts before.length starts) = .ok ss := by
  induction starts generalizing ss with
  | nil =>
    simp only [evalDynamic, Except.ok.injEq] at h
    subst h
    exact ⟨[], evalList_nil, fun before => rfl⟩
  | cons start rest ih =>
    cases start with
    | inl n =>
      simp only [evalDynamic, bind_ok, Except.ok.injEq] at h
      obtain ⟨tail, ran, rfl⟩ := h
      obtain ⟨ds, values, resolves⟩ := ih ran
      refine ⟨ds, values, fun before => ?_⟩
      exact except_bind_ok.mpr ⟨_, rfl, except_bind_ok.mpr ⟨_, resolves before, rfl⟩⟩
    | inr e =>
      simp only [evalDynamic, bind_ok, orFault_ok, Except.ok.injEq] at h
      obtain ⟨v, value, s, read, tail, ran, rfl⟩ := h
      obtain ⟨ds, values, resolves⟩ := ih ran
      refine ⟨v :: ds, ?_, fun before => ?_⟩
      · simpa [dynamicStarts] using evalList_cons.mpr ⟨v, ds, value, values, rfl⟩
      · refine except_bind_ok.mpr ⟨s, ?_, except_bind_ok.mpr ⟨tail, ?_, rfl⟩⟩
        · simpa [resolveStart, orFault_ok] using read
        · simpa using resolves (before ++ [v])

theorem evalStarts_resolves (begins : K.start = (Strategy.flow S).start) {starts : List Expr}
    {ss : List Start} : ∀ {before : List V} {specs : List StartSpec},
    evalStarts S K fuel ρ starts = .ok ss →
    putSliceStarts before.length starts = .ok specs → ∃ ds,
      evalList S K fuel ρ (runtimeStarts starts) = .ok ds ∧
        resolveStarts S (before ++ ds) [] specs = .ok ss := by
  induction starts generalizing ss with
  | nil =>
    intro before specs h specified
    simp only [evalStarts, Except.ok.injEq] at h
    subst h
    cases specified
    exact ⟨[], evalList_nil, rfl⟩
  | cons e rest ih =>
    intro before specs h specified
    simp only [evalStarts, bind_ok, orFault_ok, Except.ok.injEq] at h
    obtain ⟨v, value, s, start, tail, ran, rfl⟩ := h
    simp only [putSliceStarts, bind_ok] at specified
    obtain ⟨found, classified, specified⟩ := specified
    have static := classify_ok classified
    simp only [begins, Strategy.flow, classified] at start
    rw [runtimeStarts_cons, static]
    cases found with
    | none =>
      simp only [bind_ok, Except.ok.injEq] at specified
      obtain ⟨rest_specs, later, rfl⟩ := specified
      obtain ⟨ds, values, resolves⟩ := @ih _ (before ++ [v]) _ ran (by simpa using later)
      refine ⟨v :: ds, ?_, except_bind_ok.mpr ⟨s, ?_, except_bind_ok.mpr ⟨tail, ?_, rfl⟩⟩⟩
      · exact evalList_cons.mpr ⟨v, ds, eval_strip value, values, rfl⟩
      · simpa [resolveStart, orFault_ok] using start
      · simpa using resolves
    | some number =>
      cases number with
      | int n =>
        simp only [bind_ok, Except.ok.injEq] at specified
        obtain ⟨rest_specs, later, rfl⟩ := specified
        obtain ⟨ds, values, resolves⟩ := ih ran later
        cases start
        exact ⟨ds, values, except_bind_ok.mpr ⟨_, rfl, except_bind_ok.mpr ⟨tail, resolves, rfl⟩⟩⟩
      | _ => cases specified

theorem eval_plan (begins : K.start = (Strategy.flow S).start) {e : Expr} {args : List Expr}
    {op : NodeOp} {v : V} (plan : e.plan = some (args, op)) (h : eval S K fuel ρ e = .ok v) : ∃ vs,
      evalList S K fuel ρ args = .ok vs ∧
        applyOp S [] op vs e.tag.shape e.tag.dtype = .ok v := by
  cases e with
  | op t o es =>
    simp only [Expr.plan, Option.ite_none_right_eq_some, Option.some.injEq, Prod.mk.injEq] at plan
    obtain ⟨arity, rfl, rfl⟩ := plan
    simp only [eval, arity, if_true, bind_ok] at h
    exact h
  | slice t a starts lengths strides =>
    simp only [Expr.plan, Option.some.injEq, Prod.mk.injEq] at plan
    obtain ⟨rfl, rfl⟩ := plan
    simp only [eval, bind_ok] at h
    obtain ⟨w, value, ss, ran, sliced⟩ := h
    obtain ⟨ds, values, resolves⟩ := evalDynamic_resolves ran
    exact ⟨w :: ds, evalList_cons.mpr ⟨w, ds, value, values, rfl⟩,
      except_bind_ok.mpr ⟨ss, resolves [], sliced⟩⟩
  | putSlice t a starts part =>
    simp only [Expr.plan] at plan
    split at plan
    · rename_i specs specified
      simp only [Option.some.injEq, Prod.mk.injEq] at plan
      obtain ⟨rfl, rfl⟩ := plan
      simp only [eval, bind_ok] at h
      obtain ⟨w, value, x, part_value, ss, ran, put⟩ := h
      obtain ⟨ds, values, resolves⟩ := @evalStarts_resolves _ _ _ _ _ begins _ _ [] _ ran specified
      exact ⟨w :: x :: ds, evalList_cons.mpr ⟨w, _, value,
        evalList_cons.mpr ⟨x, ds, part_value, values, rfl⟩, rfl⟩,
        except_bind_ok.mpr ⟨ss, resolves, put⟩⟩
    · cases plan
  | pad t a fill config =>
    simp only [Expr.plan] at plan
    split at plan
    · rename_i number found
      simp only [Option.some.injEq, Prod.mk.injEq] at plan
      obtain ⟨rfl, rfl⟩ := plan
      simp only [eval, found, bind_ok] at h
      obtain ⟨w, value, padded⟩ := h
      exact ⟨[w], evalList_cons.mpr ⟨w, [], value, evalList_nil, rfl⟩, padded⟩
    · cases plan
  | windowScatter t o a source init window strides padding =>
    simp only [Expr.plan] at plan
    split at plan
    · rename_i number found
      simp only [Option.some.injEq, Prod.mk.injEq] at plan
      obtain ⟨rfl, rfl⟩ := plan
      simp only [eval, found, bind_ok] at h
      obtain ⟨w, value, x, source_value, scattered⟩ := h
      exact ⟨[w, x], evalList_cons.mpr ⟨w, [x], value,
        evalList_cons.mpr ⟨x, [], source_value, evalList_nil, rfl⟩, rfl⟩, scattered⟩
    · cases plan
  | _ => cases plan

end

section
variable {S : Sem V} {fuel : Nat} {ρ : Nat → Option V}

theorem flow_branch {tags : List Tag} {pred : Except EvalError V}
    {expr default : Except EvalError (List V)}
    {vs : List V} : (Strategy.flow S).branch tags pred expr default = .ok vs ↔
      ∃ ys p xs, default = .ok ys ∧ pred = .ok p ∧ expr = .ok xs ∧ selects S tags p xs ys = .ok vs := by
  simp only [Strategy.flow, bind_ok]
  constructor
  · rintro ⟨ys, last, p, tested, xs, value, selected⟩
    exact ⟨ys, p, xs, last, tested, value, selected⟩
  · rintro ⟨ys, p, xs, last, tested, value, selected⟩
    exact ⟨ys, last, p, tested, xs, value, selected⟩

def chain (S : Sem V) (tags : List Tag) : List (V × List V) → List V → Except EvalError (List V)
  | [], ys => .ok ys
  | (p, xs) :: rest, ys => do
      let ys ← chain S tags rest ys
      selects S tags p xs ys

def pick (S : Sem V) (t : Tag) (i : Nat) : List (V × List V) → V → Option V
  | [], y => some y
  | (p, xs) :: rest, y => do
      let y ← pick S t i rest y
      let x ← xs[i]?
      S.prim .select [] [p, x, y] t.shape t.dtype

theorem selects_length {tags : List Tag} {p : V} {xs ys vs : List V}
    (h : selects S tags p xs ys = .ok vs) : vs.length = tags.length := by
  induction tags generalizing xs ys vs with
  | nil =>
    cases h
    rfl
  | cons t rest ih =>
    cases xs with
    | nil => cases h
    | cons x xs =>
      cases ys with
      | nil => cases h
      | cons y ys =>
        simp only [selects, bind_ok, Except.ok.injEq] at h
        obtain ⟨v, _, ws, tail, rfl⟩ := h
        simp [ih tail]

theorem selects_at {tags : List Tag} {p : V} {xs ys vs : List V} (h : selects S tags p xs ys = .ok vs)
    {i : Nat} {t : Tag} (at_i : tags[i]? = some t) : ∃ x y v, xs[i]? = some x ∧ ys[i]? = some y ∧
      S.prim .select [] [p, x, y] t.shape t.dtype = some v ∧ vs[i]? = some v := by
  induction tags generalizing xs ys vs i with
  | nil => simp at at_i
  | cons u rest ih =>
    cases xs with
    | nil => cases h
    | cons x xs =>
      cases ys with
      | nil => cases h
      | cons y ys =>
        simp only [selects, bind_ok, orFault_ok, Except.ok.injEq] at h
        obtain ⟨v, selected, ws, tail, rfl⟩ := h
        cases i with
        | zero =>
          simp only [List.getElem?_cons_zero, Option.some.injEq] at at_i
          exact ⟨x, y, v, rfl, rfl, at_i ▸ selected, rfl⟩
        | succ i => exact ih tail (by simpa using at_i)

theorem chain_at {tags : List Tag} {data : List (V × List V)} {ys vs : List V}
    (len : ys.length = tags.length) (h : chain S tags data ys = .ok vs) {i : Nat} {t : Tag}
    (at_i : tags[i]? = some t) : ∃ y v, ys[i]? = some y ∧ vs[i]? = some v ∧
      pick S t i data y = some v := by
  induction data generalizing vs with
  | nil =>
    cases h
    obtain ⟨small, _⟩ := List.getElem?_eq_some_iff.mp at_i
    have there := List.getElem?_eq_getElem (l := ys) (len ▸ small)
    exact ⟨_, _, there, there, rfl⟩
  | cons c rest ih =>
    simp only [chain, bind_ok] at h
    obtain ⟨zs, tail, selected⟩ := h
    obtain ⟨y, z, at_y, at_z, picked⟩ := ih tail
    obtain ⟨x, z', v, at_x, at_z', made, at_v⟩ := selects_at selected at_i
    obtain rfl := Option.some.inj (at_z.symm.trans at_z')
    refine ⟨y, v, at_y, at_v, ?_⟩
    simp [pick, picked, at_x, made]

theorem chain_length {tags : List Tag} {data : List (V × List V)} {ys vs : List V}
    (len : ys.length = tags.length) (h : chain S tags data ys = .ok vs) :
    vs.length = tags.length := by
  cases data with
  | nil =>
    cases h
    exact len
  | cons c rest =>
    obtain ⟨zs, _, selected⟩ := bind_ok.mp h
    exact selects_length selected

def Strategy.Eager (K : Strategy V) : Prop := ∀ tags p x d vs, K.branch tags p x d = .ok vs →
  ∃ ys, d = .ok ys

theorem flow_eager (S : Sem V) : (Strategy.flow S).Eager := by
  intro tags p x d vs h
  obtain ⟨ys, _, _, last, _⟩ := flow_branch.mp h
  exact ⟨ys, last⟩

theorem evalClauses_default {K : Strategy V} (eager : K.Eager) {t : Tag} {clauses : List (Expr × Expr)}
    {x : Except EvalError V} {vs : List V} (h : evalClauses S K fuel ρ t clauses (only x) = .ok vs) :
    ∃ v, x = .ok v := by
  induction clauses generalizing vs with
  | nil =>
    simp only [evalClauses, only, bind_ok] at h
    obtain ⟨v, value, _⟩ := h
    exact ⟨v, value⟩
  | cons c rest ih =>
    obtain ⟨ys, tail⟩ := eager _ _ _ _ _ (by simpa only [evalClauses] using h)
    exact ih tail

theorem evalTupleClauses_default {K : Strategy V} (eager : K.Eager) {tags : List Tag}
    {clauses : List (Expr × Expr)} {x : Except EvalError (List V)} {vs : List V}
    (h : evalTupleClauses S K fuel ρ tags clauses x = .ok vs) : ∃ ys, x = .ok ys := by
  induction clauses generalizing vs with
  | nil => exact ⟨vs, by simpa only [evalTupleClauses] using h⟩
  | cons c rest ih =>
    obtain ⟨pred, expr⟩ := c
    cases expr with
    | tuple es =>
      obtain ⟨ys, tail⟩ := eager _ _ _ _ _ (by simpa only [evalTupleClauses] using h)
      exact ih tail
    | _ => simp [evalTupleClauses] at h

end

end NxTinygrad.Lowering
