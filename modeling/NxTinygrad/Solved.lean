import NxTinygrad.Meaning

/- The graph computes what its expressions mean exactly when the loops are over real tensors: what a graph
   that runs says of its expressions, or `_run_while` would have raised. -/
namespace NxTinygrad.Lowering
open IR Interpreter StraightLine

variable {V : Type}

/-- The environment at the end of a graph: each input, constant and node has its value there. -/
structure Solves (S : Sem V) (blobs : List Blob) (fuel : Nat) (params : List V) (F : Env V)
    (st : State) : Prop where
  inputs : ∀ i ∈ st.inputs, ∃ v, params[i.index]? = some v ∧ F i.id = some v
  constants : ∀ c ∈ st.constants, ∃ v, makeConstant S blobs c = .ok v ∧ F c.id = some v
  nodes : ∀ n ∈ st.nodes, ∃ vs outs, fetch EvalError.missing F (nodeReads n) = .ok vs ∧
    runNode S blobs fuel [] n vs = .ok outs ∧ Holds F n.definedIds outs

section
variable {S : Sem V} {blobs : List Blob} {fuel : Nat} {params : List V} {F : Env V} {st st' : State}

theorem Solves.before (solves : Solves S blobs fuel params F st') (grows : Grows st st') :
    Solves S blobs fuel params F st where
  inputs i mem := solves.inputs i (grows.inputs.subset mem)
  constants c mem := solves.constants c (grows.constants.subset mem)
  nodes n mem := solves.nodes n (grows.nodes.subset mem)

theorem Solves.unbind {bound : Option (List Nat)} (solves : Solves S blobs fuel params F (st.bind bound)) :
    Solves S blobs fuel params F st :=
  ⟨solves.inputs, solves.constants, solves.nodes⟩

theorem mapM_mem {α β : Type} {f : α → Except EvalError β} {xs : List α} {ys : List β}
    (all : xs.mapM f = .ok ys) {x : α} (mem : x ∈ xs) :
    ∃ (k : Nat) (y : β), xs[k]? = some x ∧ ys[k]? = some y ∧ f x = .ok y := by
  induction xs generalizing ys with
  | nil => cases mem
  | cons z rest ih =>
    simp only [List.mapM_cons, except_bind_ok, pure, Except.pure, Except.ok.injEq] at all
    obtain ⟨y, first, zs, tail, rfl⟩ := all
    rcases List.mem_cons.mp mem with rfl | mem
    · exact ⟨0, y, rfl, rfl, first⟩
    · obtain ⟨k, w, at_x, at_w, value⟩ := ih tail mem
      exact ⟨k + 1, w, at_x, at_w, value⟩

theorem evalNodes_solves {nodes : List Node} {env : Env V}
    (distinct : (nodes.flatMap Node.definedIds).Nodup)
    (unset : ∀ id ∈ nodes.flatMap Node.definedIds, env id = none)
    (ran : evalNodes S blobs fuel [] nodes env = .ok F) :
    Le env F ∧ ∀ n ∈ nodes, ∃ vs outs, fetch EvalError.missing F (nodeReads n) = .ok vs ∧
      runNode S blobs fuel [] n vs = .ok outs ∧ Holds F n.definedIds outs := by
  induction nodes generalizing env with
  | nil =>
    simp only [evalNodes] at ran
    cases ran
    exact ⟨.refl _, List.forall_mem_nil _⟩
  | cons n rest ih =>
    obtain ⟨vs, outs, read, result, tail⟩ := evalNodes_cons.mp ran
    rw [List.flatMap_cons] at distinct unset
    obtain ⟨here, later, apart⟩ := List.nodup_append.mp distinct
    have le : Le env (assign env n.definedIds outs) :=
      le_assign fun id mem => unset id (List.mem_append_left _ mem)
    have unset' : ∀ id ∈ rest.flatMap Node.definedIds, assign env n.definedIds outs id = none := by
      intro id mem
      rw [assign_other fun own => apart id own id mem rfl]
      exact unset id (List.mem_append_right _ mem)
    obtain ⟨le', each⟩ := ih later unset' tail
    refine ⟨le.trans le', fun n' mem => ?_⟩
    rcases List.mem_cons.mp mem with rfl | mem
    · exact ⟨vs, outs, fetch_le (le.trans le') read, result, (holds_assign here outs).mono le'⟩
    · exact each n' mem

theorem solves_of_runs (fill : st.Filled) {base : Env V}
    (bound : bindParams S blobs params st.inputs.reverse st.constants.reverse = .ok base)
    (ran : evalNodes S blobs fuel [] st.nodes.reverse base = .ok F) :
    Solves S blobs fuel params F st := by
  obtain ⟨values, args, made, given, rfl⟩ := bindParams_ok.mp bound
  obtain ⟨own, rest, apart⟩ := List.nodup_append.mp (fill.nodup_iff.mpr List.nodup_range)
  obtain ⟨own', own'', apart'⟩ := List.nodup_append.mp rest
  have inputs : (st.inputs.reverse.map (·.id)).Nodup := by rwa [List.map_reverse, List.nodup_reverse]
  have constants : (st.constants.reverse.map (·.id)).Nodup := by
    rwa [List.map_reverse, List.nodup_reverse]
  have nodes : (st.nodes.reverse.flatMap Node.definedIds).Nodup :=
    ((List.reverse_perm _).flatMap_right _).nodup_iff.mpr own''
  have no_input {id : Nat} (mem : id ∈ st.constants.map (·.id) ++ st.nodes.flatMap Node.definedIds) :
      id ∉ st.inputs.reverse.map (·.id) := by
    rw [List.map_reverse, List.mem_reverse]
    exact fun there => apart id there id mem rfl
  obtain ⟨le, each⟩ := evalNodes_solves nodes (by
    intro id mem
    have mem' := ((List.reverse_perm st.nodes).flatMap_right Node.definedIds).mem_iff.mp mem
    rw [assign_other (no_input (List.mem_append_right _ mem')), assign_other]
    rw [List.map_reverse, List.mem_reverse]
    exact fun there => apart' id there id mem' rfl) ran
  refine ⟨fun i mem => ?_, fun c mem => ?_, fun n mem => each n (List.mem_reverse.mpr mem)⟩
  · obtain ⟨k, v, at_i, at_v, value⟩ := mapM_mem given (List.mem_reverse.mpr mem)
    have at_id : (st.inputs.reverse.map (·.id))[k]? = some i.id := by rw [List.getElem?_map, at_i]; rfl
    exact ⟨v, orFault_ok.mp value, le _ _ (assign_getElem inputs at_id at_v)⟩
  · obtain ⟨k, v, at_c, at_v, value⟩ := mapM_mem made (List.mem_reverse.mpr mem)
    have at_id : (st.constants.reverse.map (·.id))[k]? = some c.id := by rw [List.getElem?_map, at_c]; rfl
    refine ⟨v, value, le _ _ ?_⟩
    rw [assign_other (no_input (List.mem_append_left _ (List.mem_map_of_mem mem)))]
    exact assign_getElem constants at_id at_v

end

section
variable {S : Sem V} {K K' : Strategy V} {fuel : Nat} {ρ : Nat → Option V}

theorem evalList_each {es : List Expr} {vs : List V} (ran : evalList S K fuel ρ es = .ok vs)
    (ran' : evalList S K' fuel ρ es = .ok vs) :
    ∀ e ∈ es, Returns (eval S K fuel ρ e) (eval S K' fuel ρ e) := by
  induction es generalizing vs with
  | nil => exact List.forall_mem_nil _
  | cons e rest ih =>
    obtain ⟨w, ws, first, tail, rfl⟩ := evalList_cons.mp ran
    obtain ⟨w', ws', first', tail', same⟩ := evalList_cons.mp ran'
    cases same
    intro x mem
    rcases List.mem_cons.mp mem with rfl | mem
    · intro v value
      rw [← first.symm.trans value]
      exact first'
    · exact ih tail tail' x mem

theorem evalList_returns {es : List Expr}
    (each : ∀ e ∈ es, Returns (eval S K fuel ρ e) (eval S K' fuel ρ e)) :
    Returns (evalList S K fuel ρ es) (evalList S K' fuel ρ es) := by
  induction es with
  | nil =>
    simp only [evalList]
    exact returns_refl _
  | cons e rest ih =>
    simp only [evalList]
    exact returns_bind (each e (List.mem_cons_self ..)) fun v =>
      returns_bind (ih fun e mem => each e (List.mem_cons_of_mem _ mem)) fun vs => returns_refl _

theorem evalDynamic_returns {starts : List (Int ⊕ Expr)}
    (each : ∀ e ∈ dynamicStarts starts, Returns (eval S K fuel ρ e) (eval S K' fuel ρ e)) :
    Returns (evalDynamic S K fuel ρ starts) (evalDynamic S K' fuel ρ starts) := by
  induction starts with
  | nil =>
    simp only [evalDynamic]
    exact returns_refl _
  | cons start rest ih =>
    cases start with
    | inl n =>
      simp only [evalDynamic]
      exact returns_bind (ih fun e mem => each e (by simpa [dynamicStarts] using mem)) fun ss =>
        returns_refl _
    | inr e =>
      simp only [evalDynamic]
      refine returns_bind (each e (by simp [dynamicStarts])) fun v => returns_bind (returns_refl _) fun s =>
        returns_bind (ih fun e mem => each e ?_) fun ss => returns_refl _
      rw [dynamicStarts, List.filterMap_cons]
      exact List.mem_cons_of_mem _ mem

theorem evalStarts_returns (begins : K'.start = K.start) {starts : List Expr}
    (each : ∀ e ∈ starts, Returns (eval S K fuel ρ e) (eval S K' fuel ρ e)) :
    Returns (evalStarts S K fuel ρ starts) (evalStarts S K' fuel ρ starts) := by
  induction starts with
  | nil =>
    simp only [evalStarts]
    exact returns_refl _
  | cons e rest ih =>
    simp only [evalStarts, begins]
    exact returns_bind (each e (List.mem_cons_self ..)) fun v => returns_bind (returns_refl _) fun s =>
      returns_bind (ih fun e mem => each e (List.mem_cons_of_mem _ mem)) fun ss => returns_refl _

theorem eval_strip_eq (e : Expr) : eval S K fuel ρ e.strip = eval S K fuel ρ e := by
  induction e using Expr.strip.induct with
  | case1 t e ih => simpa only [Expr.strip, eval] using ih
  | case2 e plain =>
    cases e with
    | metadata t e => exact absurd rfl (plain t e)
    | _ => rfl

theorem static_returns {e : Expr} (static : isStatic e = true) :
    Returns (eval S K fuel ρ e) (eval S K' fuel ρ e) := by
  rw [← eval_strip_eq e, ← @eval_strip_eq _ _ K' _ _ e]
  unfold isStatic classifyStart at static
  cases kind : e.strip with
  | constant t number =>
    simp only [eval]
    exact returns_refl _
  | tensor t literal =>
    simp only [eval]
    exact returns_refl _
  | _ => simp [kind] at static

theorem starts_each {starts : List Expr}
    (each : ∀ e ∈ runtimeStarts starts, Returns (eval S K fuel ρ e) (eval S K' fuel ρ e)) :
    ∀ e ∈ starts, Returns (eval S K fuel ρ e) (eval S K' fuel ρ e) := by
  intro e mem
  cases static : isStatic e with
  | true => exact static_returns static
  | false =>
    rw [← eval_strip_eq e, ← @eval_strip_eq _ _ K' _ _ e]
    exact each e.strip (List.mem_map_of_mem (List.mem_filter.mpr ⟨mem, by simp [static]⟩))

theorem plan_returns (begins : K'.start = K.start) {e : Expr} {args : List Expr} {op : NodeOp}
    (plan : e.plan = some (args, op))
    (each : ∀ a ∈ args, Returns (eval S K fuel ρ a) (eval S K' fuel ρ a)) :
    Returns (eval S K fuel ρ e) (eval S K' fuel ρ e) := by
  cases e with
  | op t o es =>
    simp only [Expr.plan, Option.ite_none_right_eq_some, Option.some.injEq, Prod.mk.injEq] at plan
    obtain ⟨arity, rfl, rfl⟩ := plan
    simp only [eval, arity, if_true]
    exact returns_bind (evalList_returns each) fun vs => returns_refl _
  | slice t a starts lengths strides =>
    simp only [Expr.plan, Option.some.injEq, Prod.mk.injEq] at plan
    obtain ⟨rfl, rfl⟩ := plan
    simp only [eval]
    exact returns_bind (each a (List.mem_cons_self ..)) fun v =>
      returns_bind (evalDynamic_returns fun e mem => each e (List.mem_cons_of_mem _ mem)) fun ss =>
        returns_refl _
  | putSlice t a starts part =>
    simp only [Expr.plan] at plan
    split at plan
    · simp only [Option.some.injEq, Prod.mk.injEq] at plan
      obtain ⟨rfl, rfl⟩ := plan
      simp only [eval]
      exact returns_bind (each a (List.mem_cons_self ..)) fun v =>
        returns_bind (each part (by simp)) fun w =>
          returns_bind (evalStarts_returns begins (starts_each fun e mem => each e (by simp [mem])))
            fun ss => returns_refl _
    · cases plan
  | pad t a fill config =>
    simp only [Expr.plan] at plan
    split at plan
    · rename_i number found
      simp only [Option.some.injEq, Prod.mk.injEq] at plan
      obtain ⟨rfl, rfl⟩ := plan
      simp only [eval, found]
      exact returns_bind (each a (List.mem_cons_self ..)) fun v => returns_refl _
    · cases plan
  | windowScatter t o a source init window strides padding =>
    simp only [Expr.plan] at plan
    split at plan
    · rename_i number found
      simp only [Option.some.injEq, Prod.mk.injEq] at plan
      obtain ⟨rfl, rfl⟩ := plan
      simp only [eval, found]
      exact returns_bind (each a (List.mem_cons_self ..)) fun v =>
        returns_bind (each source (by simp)) fun w => returns_refl _
    · cases plan
  | _ => cases plan

theorem eval_of_fold {e a acc body : Expr} {op : FoldOp} {x y v : V}
    (fold : e.fold = some (a, acc, op, body)) (first : eval S K fuel ρ a = .ok x)
    (second : eval S K fuel ρ acc = .ok y)
    (folded : K.fold op (fun x y => eval S K fuel (fun pos => [x, y][pos]?) body) x y = .ok v) :
    eval S K fuel ρ e = .ok v := by
  cases e with
  | reduce t a acc axes keepAxes body =>
    simp only [Expr.fold, Option.some.injEq, Prod.mk.injEq] at fold
    obtain ⟨rfl, rfl, rfl, rfl⟩ := fold
    simp only [eval, bind_ok]
    exact ⟨x, first, y, second, folded⟩
  | windowReduce t a acc window strides padding dilations body =>
    simp only [Expr.fold, Option.some.injEq, Prod.mk.injEq] at fold
    obtain ⟨rfl, rfl, rfl, rfl⟩ := fold
    simp only [eval, bind_ok]
    exact ⟨x, first, y, second, folded⟩
  | _ => cases fold

end

section
variable {S : Sem V}

theorem loops_agree {c c' d b b' a : List V → Except EvalError (List V)}
    (test : ∀ s vs ws, c s = .ok vs → d s = .ok ws → c' s = .ok vs ∧ ws = vs)
    (body : ∀ s vs ws, b s = .ok vs → a s = .ok ws → b' s = .ok vs ∧ ws = vs) {fuel : Nat}
    {state vs ws : List V} (ran : whileLoop { S with isTensor := fun _ => true } c b fuel state = .ok vs)
    (looped : whileLoop S d a fuel state = .ok ws) : whileLoop S c' b' fuel state = .ok vs ∧ ws = vs := by
  induction fuel generalizing state with
  | zero =>
    unfold whileLoop at ran looped ⊢
    obtain ⟨outs, tested, ran⟩ := bind_ok.mp ran
    obtain ⟨outs', tested', looped⟩ := bind_ok.mp looped
    obtain ⟨again, rfl⟩ := test _ _ _ tested tested'
    obtain ⟨go, truth, ran⟩ := bind_ok.mp ran
    obtain ⟨go', truth', looped⟩ := bind_ok.mp looped
    obtain rfl : go' = go := Except.ok.inj (truth'.symm.trans truth)
    cases go' with
    | true => cases ran
    | false =>
      cases ran
      cases looped
      exact ⟨bind_ok.mpr ⟨_, again, bind_ok.mpr ⟨false, truth', rfl⟩⟩, rfl⟩
  | succ fuel ih =>
    unfold whileLoop at ran looped ⊢
    obtain ⟨outs, tested, ran⟩ := bind_ok.mp ran
    obtain ⟨outs', tested', looped⟩ := bind_ok.mp looped
    obtain ⟨again, rfl⟩ := test _ _ _ tested tested'
    obtain ⟨go, truth, ran⟩ := bind_ok.mp ran
    obtain ⟨go', truth', looped⟩ := bind_ok.mp looped
    obtain rfl : go' = go := Except.ok.inj (truth'.symm.trans truth)
    cases go' with
    | false =>
      cases ran
      cases looped
      exact ⟨bind_ok.mpr ⟨_, again, bind_ok.mpr ⟨false, truth', rfl⟩⟩, rfl⟩
    | true =>
      simp only [if_true, bind_ok] at ran looped
      obtain ⟨next, stepped, ran⟩ := ran
      obtain ⟨next', stepped', looped⟩ := looped
      obtain ⟨again', rfl⟩ := body _ _ _ stepped stepped'
      split at looped
      · rename_i real
        rw [if_pos (by simp)] at ran
        obtain ⟨rest, same⟩ := ih ran looped
        refine ⟨bind_ok.mpr ⟨_, again, bind_ok.mpr ⟨true, truth', ?_⟩⟩, same⟩
        simp only [if_true, bind_ok]
        exact ⟨next', again', by rw [if_pos real]; exact rest⟩
      · cases looped

theorem folds_agree {f f' : V → V → Except EvalError V} {fn : List V → Except EvalError (List V)}
    (step : ∀ x y v ws, f x y = .ok v → fn [x, y] = .ok ws → f' x y = .ok v ∧ ws = [v]) {parts : List V}
    {acc v w : V} (ran : foldLeft f acc parts = .ok v) (folded : foldParts fn acc parts = .ok w) :
    foldLeft f' acc parts = .ok v ∧ w = v := by
  induction parts generalizing acc with
  | nil =>
    cases ran
    cases folded
    exact ⟨rfl, rfl⟩
  | cons part rest ih =>
    obtain ⟨next, stepped, ran⟩ := bind_ok.mp ran
    obtain ⟨outs, stepped', folded⟩ := bind_ok.mp folded
    obtain ⟨again, rfl⟩ := step _ _ _ _ stepped stepped'
    obtain ⟨next', head, folded⟩ := bind_ok.mp folded
    cases head
    obtain ⟨rest_ran, same⟩ := ih ran folded
    exact ⟨bind_ok.mpr ⟨next, again, rest_ran⟩, same⟩

end

section
variable {S : Sem V} {T : Types S} {blobs : List Blob} {fuel : Nat} {F : Env V}

theorem firm_same {e : Expr} {ρ : Nat → Option V} {v w : V}
    (firm : eval S (.every T S.isTensor) fuel ρ e = .ok w)
    (loose : eval S (.every T fun _ => true) fuel ρ e = .ok v) : w = v := by
  have order := @every_every _ _ S.isTensor (fun _ => true) T fun _ _ => rfl
  have same := eval_refines order (Nat.le_refl fuel) e ρ w firm
  exact Except.ok.inj (same.symm.trans loose)

theorem firm_same_tuple {e : Expr} {ρ : Nat → Option V} {vs ws : List V}
    (firm : evalTuple S (.every T S.isTensor) fuel ρ e = .ok ws)
    (loose : evalTuple S (.every T fun _ => true) fuel ρ e = .ok vs) : ws = vs := by
  have order := @every_every _ _ S.isTensor (fun _ => true) T fun _ _ => rfl
  have same := evalTuple_refines order (Nat.le_refl fuel) e ρ ws firm
  exact Except.ok.inj (same.symm.trans loose)

section
variable {scopes : Scopes} {params : List V} {st st' : State}

theorem Solves.op (solves : Solves S blobs fuel params F st) {id : Nat} {o : NodeOp} {ids shape : List Nat}
    {dtype : Dtype} {vs : List V} (mem : .op id o ids shape dtype ∈ st.nodes) (held : Held F ids vs) :
    ∃ w, applyOp S [] o vs shape dtype = .ok w ∧ F id = some w := by
  obtain ⟨vs', outs, read, result, holds⟩ := solves.nodes _ mem
  obtain rfl : vs = vs' := Except.ok.inj (held.fetched.symm.trans read)
  obtain ⟨w, applied, outs_eq⟩ := bind_ok.mp result
  cases outs_eq
  exact ⟨w, applied, holds 0 id w rfl rfl⟩

/-- What a fold node has computed, given what its function does. -/
theorem Solves.fold (solves : Solves S blobs fuel params F st) {e a acc body : Expr} {op : FoldOp}
    {id : Nat} {sub : SubGraph} {ids : List Nat} {ρ : Nat → Option V} {x y v : V}
    (fold : e.fold = some (a, acc, op, body))
    (mem : .fold id op sub ids e.tag.shape e.tag.dtype ∈ st.nodes) (held : Held F ids [x, y])
    (first : eval S (.every T S.isTensor) fuel ρ a = .ok x)
    (second : eval S (.every T S.isTensor) fuel ρ acc = .ok y)
    (folded : (Strategy.every T fun _ => true).fold op
      (fun x y => eval S (.every T fun _ => true) fuel (fun pos => [x, y][pos]?) body) x y = .ok v)
    (step : ∀ p q w ws, eval S (.every T fun _ => true) fuel (fun pos => [p, q][pos]?) body = .ok w →
      interpret S blobs fuel sub [] [p, q] = .ok ws →
      eval S (.every T S.isTensor) fuel (fun pos => [p, q][pos]?) body = .ok w ∧ ws = [w]) :
    eval S (.every T S.isTensor) fuel ρ e = .ok v ∧ F id = some v := by
  obtain ⟨vs, outs, read, result, holds⟩ := solves.nodes _ mem
  have pair : ids.length ≤ 2 := Nat.le_of_eq held.length.symm
  have read' : fetch EvalError.missing F (ids.take 2) = .ok [x, y] := by
    rw [List.take_of_length_le pair]
    exact held.fetched
  obtain rfl : vs = [x, y] := Except.ok.inj (read.symm.trans read')
  simp only [runNode, bind_ok, orFault_ok] at result
  obtain ⟨x', at_x, y', at_y, begun, started, parts, split, out, looped, w, finished, outs_eq⟩ := result
  obtain rfl : x = x' := Option.some.inj at_x
  obtain rfl : y = y' := Option.some.inj at_y
  cases outs_eq
  -- the worker and the reference start from the same accumulator and the same parts
  obtain ⟨begun', started', folded⟩ := bind_ok.mp folded
  obtain rfl : begun = begun' := Option.some.inj (started.symm.trans (orFault_ok.mp started'))
  obtain ⟨parts', split', folded⟩ := bind_ok.mp folded
  obtain rfl : parts = parts' := Option.some.inj (split.symm.trans (orFault_ok.mp split'))
  obtain ⟨out', ran', finished'⟩ := bind_ok.mp folded
  obtain ⟨again, rfl⟩ := folds_agree step ran' looped
  obtain rfl : w = v := Option.some.inj (finished.symm.trans (orFault_ok.mp finished'))
  refine ⟨eval_of_fold fold first second (bind_ok.mpr ⟨begun, started', ?_⟩), holds 0 id w rfl rfl⟩
  exact bind_ok.mpr ⟨parts, split', bind_ok.mpr ⟨_, again, finished'⟩⟩

/-- A while node that has run was over real tensors all along. -/
theorem Solves.loop (solves : Solves S blobs fuel params F st) {initIds : List Nat}
    {condSub bodySub : SubGraph} {outputs : List WhileOutput} {state vs : List V}
    {c c' b b' : List V → Except EvalError (List V)}
    (mem : .loop initIds condSub bodySub outputs ∈ st.nodes) (held : Held F initIds state)
    (looped : whileLoop { S with isTensor := fun _ => true } c b fuel state = .ok vs)
    (test : ∀ s vs ws, c s = .ok vs → interpret S blobs fuel condSub [] s = .ok ws →
      c' s = .ok vs ∧ ws = vs)
    (body : ∀ s vs ws, b s = .ok vs → interpret S blobs fuel bodySub [] s = .ok ws →
      b' s = .ok vs ∧ ws = vs) :
    state.all S.isTensor = true ∧ whileLoop S c' b' fuel state = .ok vs ∧
      Holds F (outputs.map (·.id)) vs := by
  obtain ⟨vs', outs, read, result, holds⟩ := solves.nodes _ mem
  obtain rfl : vs' = state := Except.ok.inj (read.symm.trans held.fetched)
  simp only [runNode] at result
  split at result
  · rename_i real
    obtain ⟨again, rfl⟩ := loops_agree test body looped result
    exact ⟨real, again, holds⟩
  · cases result

theorem selectChain_solved {t : Tag} {i : Nat} {data : List (Nat × List Nat)}
    {values : List (V × List V)} {elseId id : Nat} {st st' : State} {y v : V}
    (h : selectChain t i data elseId st = .ok (id, st')) (solves : Solves S blobs fuel params F st')
    (cached : Cached S fuel scopes params (.every T S.isTensor) st F) (held : ClausesHeld F data values)
    (last : F elseId = some y) (picked : pick S t i values y = some v) :
    Cached S fuel scopes params (.every T S.isTensor) st' F ∧ F id = some v := by
  unfold ClausesHeld at held
  induction held generalizing id st' v with
  | nil =>
    cases h
    cases picked
    exact ⟨cached, last⟩
  | @cons clause value rest values here tail ih =>
    simp only [selectChain, bind_ok, Prod.exists] at h
    obtain ⟨mid, st₁, first, h⟩ := h
    simp only [pick, Option.bind_eq_bind, Option.bind_eq_some_iff] at picked
    obtain ⟨z, below, x, at_i, made⟩ := picked
    split at h
    · cases h
    · rename_i exprId found
      cases h
      obtain ⟨cached₁, held₁⟩ := ih first (solves.before (.addRawNode ..)) below
      have read : Held F [clause.1, exprId, mid] [value.1, x, z] :=
        .cons here.1 (.cons (here.2.holds i exprId x found at_i) (.cons held₁ .nil))
      obtain ⟨w, applied, result⟩ := solves.op (List.mem_cons_self ..) read
      obtain rfl : w = v := Except.ok.inj (applied.symm.trans (orFault_ok.mpr made))
      exact ⟨cached₁.extend (.refl F) rfl rfl, result⟩

theorem selectChains_solved {data : List (Nat × List Nat)} {values : List (V × List V)} :
    ∀ {i : Nat} {elems : List (Expr × Nat)} {ids : List Nat} {st st' : State} {vs : List V},
    selectChains data i elems st = .ok (ids, st') → Solves S blobs fuel params F st' →
    Cached S fuel scopes params (.every T S.isTensor) st F → ClausesHeld F data values →
    (∀ k x v, elems[k]? = some x → vs[k]? = some v →
      ∃ y, F x.2 = some y ∧ pick S x.1.tag (i + k) values y = some v) →
    elems.length = vs.length →
    Cached S fuel scopes params (.every T S.isTensor) st' F ∧ Held F ids vs
  | _, [], ids, st, st', vs, h, _, cached, _, _, len => by
    cases h
    cases vs with
    | nil => exact ⟨cached, .nil⟩
    | cons _ _ => cases len
  | i, (e, defaultId) :: rest, ids, st, st', [], h, _, cached, held, want, len => by cases len
  | i, (e, defaultId) :: rest, ids, st, st', v :: vs, h, solves, cached, held, want, len => by
    simp only [selectChains, bind_ok, Prod.exists, Except.ok.injEq, Prod.mk.injEq] at h
    obtain ⟨id, st₁, first, restIds, st₂, second, rfl, rfl⟩ := h
    obtain ⟨y, last, picked⟩ := want 0 _ v rfl rfl
    obtain ⟨cached₁, held₁⟩ := selectChain_solved first (solves.before (selectChains_grows second))
      cached held last picked
    obtain ⟨cached₂, held₂⟩ := selectChains_solved second solves cached₁ held (by
      intro k x w at_x at_w
      obtain ⟨y, last, picked⟩ := want (k + 1) x w at_x at_w
      exact ⟨y, last, by rw [Nat.add_right_comm]; exact picked⟩) (by simpa using len)
    exact ⟨cached₂, .cons held₁ held₂⟩

end

theorem SubRun.cached {roots : List Expr} {st st' : State} {sub : SubGraph} {K : Strategy V}
    {scopes : Scopes} {params : List V} (run : SubRun roots st sub st')
    (cached : Cached S fuel scopes params K st F) : Cached S fuel scopes params K st' F := by
  cases run with
  | mk inner => exact cached.extend (.refl F) rfl rfl

mutual
theorem Run.solved : ∀ {e : Expr} {st st' : State} {id : Nat}, Run e st id st' →
    ∀ {scopes : Scopes} {params : List V} {s : Option Ref} {ρ : Nat → Option V} {v : V} {F : Env V},
    Here S fuel scopes params (.every T S.isTensor) s ρ st F → Scoped scopes s e →
    Cached S fuel scopes params (.every T S.isTensor) st F → st.blobCount = st.blobs.length →
    Solves S blobs fuel params F st' → st'.blobs.reverse <+: blobs →
    eval S (.every T fun _ => true) fuel ρ e = .ok v →
    Cached S fuel scopes params (.every T S.isTensor) st' F ∧
      eval S (.every T S.isTensor) fuel ρ e = .ok v ∧ F id = some v
  | _, _, _, _, .hit kind known, _, _, _, _, _, F, here, inside, cached, _, _, _, ran => by
    obtain ⟨w, value, held⟩ := cached.value kind here.env inside known
    obtain rfl := firm_same value ran
    exact ⟨cached, value, held⟩
  | .parameter t pos, _, _, _, .bound new found, _, _, _, ρ, v, F, here, inside, cached, _, _, _, ran => by
    have value : eval S (.every T S.isTensor) fuel ρ (.parameter t pos) = .ok v := by
      simpa only [eval] using ran
    have held := here.at_bound found (by simpa only [eval, orFault_ok] using ran)
    exact ⟨cached.put (e := .parameter t pos) rfl here.env inside value held, value, held⟩
  | .parameter t pos, st, _, _, .input new missing, _, _, _, ρ, v, F, here, inside, cached, _, solves, _,
      ran => by
    have value : eval S (.every T S.isTensor) fuel ρ (.parameter t pos) = .ok v := by
      simpa only [eval] using ran
    obtain ⟨w, given, held⟩ := solves.inputs ⟨st.counter, pos, t.shape, t.dtype⟩ (List.mem_cons_self ..)
    have given' := here.at_input missing (by simpa only [eval, orFault_ok] using ran)
    obtain rfl : w = v := Option.some.inj (given.symm.trans given')
    exact ⟨(cached.put (e := .parameter t pos) rfl here.env inside value held).extend (.refl F) rfl rfl,
      value, held⟩
  | .constant t number, st, _, _, .constant new, _, _, _, ρ, v, F, here, inside, cached, _, solves, _,
      ran => by
    have value : eval S (.every T S.isTensor) fuel ρ (.constant t number) = .ok v := by
      simpa only [eval] using ran
    obtain ⟨w, made, held⟩ := solves.constants
      ⟨st.counter, .value (encodeNumber number), t.shape, t.dtype⟩ (List.mem_cons_self ..)
    have ran' : orFault (S.number (encodeNumber number) t.shape t.dtype) = .ok v := by
      simpa only [eval] using ran
    obtain rfl : w = v := Except.ok.inj (made.symm.trans ran')
    exact ⟨(cached.put (e := .constant t number) rfl here.env inside value held).extend (.refl F) rfl rfl,
      value, held⟩
  | .tensor t literal, st, _, _, .tensor new, _, _, _, ρ, v, F, here, inside, cached, count, solves, fits,
      ran => by
    have value : eval S (.every T S.isTensor) fuel ρ (.tensor t literal) = .ok v := by
      simpa only [eval] using ran
    obtain ⟨w, made, held⟩ := solves.constants
      ⟨st.counter, .data st.blobCount, t.shape, t.dtype⟩ (List.mem_cons_self ..)
    have found : blobs[st.blobs.length]? = some literal.binary := newest_blob fits
    simp only [makeConstant, count, found, Option.bind_some] at made
    obtain rfl : w = v := Except.ok.inj (made.symm.trans (by simpa only [eval] using ran))
    exact ⟨(cached.put (e := .tensor t literal) rfl here.env inside value held).extend (.refl F) rfl rfl,
      value, held⟩
  | .metadata t e, _, _, _, .metadata new inner, _, _, _, ρ, v, F, here, inside, cached, count, solves,
      fits, ran => by
    obtain ⟨cached₁, inner_value, held⟩ := inner.solved here
      (inside.operand (List.mem_singleton.mpr rfl)) cached count
      (solves.before (.put ..)) fits (by simpa only [eval] using ran)
    have value : eval S (.every T S.isTensor) fuel ρ (.metadata t e) = .ok v := by
      simpa only [eval] using inner_value
    exact ⟨cached₁.put (e := .metadata t e) rfl here.env inside value held, value, held⟩
  | .elem t src k, _, _, _, .elem new tuple at_k, _, _, _, ρ, v, F, here, inside, cached, count, solves,
      fits, ran => by
    simp only [eval, bind_ok, orFault_ok] at ran
    obtain ⟨vs, values, found⟩ := ran
    obtain ⟨cached₁, src_values, holds⟩ := tuple.solved here
      (inside.operand (List.mem_singleton.mpr rfl)) cached count
      (solves.before (.put ..)) fits values
    have held := holds k _ v at_k found
    have value : eval S (.every T S.isTensor) fuel ρ (.elem t src k) = .ok v := by
      simp only [eval, bind_ok, orFault_ok]
      exact ⟨vs, src_values, found⟩
    exact ⟨cached₁.put (e := .elem t src k) rfl here.env inside value held, value, held⟩
  | .block t inputs default, _, _, _, .block new kind ins out, _, _, _, ρ, v, F, here, inside, cached,
      count, solves, fits, ran => by
    obtain ⟨args, given, body⟩ := eval_block kind ran
    have later := Grows.bind out.grows
    obtain ⟨cached₁, input_values, held₁⟩ := ins.solved here inside.inputs cached count
      (solves.before (later.trans (.put ..))) (prefix_before later fits) given
    obtain ⟨cached₂, body_value, held₂⟩ := out.solved
      ⟨.block here.env inside input_values, ⟨_, args, rfl, rfl, held₁⟩⟩ inside.default
      (cached₁.extend (.refl F) rfl rfl) (ins.grows.count count)
      (Solves.unbind (solves.before (.put ..))) fits body
    have value : eval S (.every T S.isTensor) fuel ρ (.block t inputs default) = .ok v := by
      rw [eval_block_eq kind]
      exact bind_ok.mpr ⟨args, input_values, body_value⟩
    exact ⟨(cached₂.put (e := .block t inputs default) rfl here.env inside value held₂).extend
      (.refl F) rfl rfl, value, held₂⟩
  | .block t inputs (.tuple outputs), _, _, _, .first new tuple, _, _, _, ρ, v, F, here, inside, cached,
      count, solves, fits, ran => by
    obtain ⟨vs, values, head⟩ := eval_tupleBlock ran
    obtain ⟨cached₁, tuple_values, holds⟩ := tuple.solved here inside cached count solves fits values
    have value : eval S (.every T S.isTensor) fuel ρ (.block t inputs (.tuple outputs)) = .ok v := by
      simp only [evalTuple, bind_ok] at tuple_values
      obtain ⟨args, given, outs⟩ := tuple_values
      simp only [eval, bind_ok, orFault_ok]
      exact ⟨args, given, vs, outs, head⟩
    rw [List.head?_eq_getElem?] at head
    exact ⟨cached₁, value, holds 0 _ v rfl head⟩
  | .cond t clauses default, _, _, _, .cond new out chosen, _, _, _, ρ, v, F, here, inside, cached, count,
      solves, fits, ran => by
    simp only [eval, bind_ok, orFault_ok] at ran
    obtain ⟨vs, values, head⟩ := ran
    obtain ⟨d, last⟩ := evalClauses_default (every_eager T _) values
    obtain ⟨default_in, clauses_in⟩ := inside.clauses
    obtain ⟨cached₁, default_value, held₁⟩ := out.solved here default_in cached count
      (solves.before (chosen.grows.trans (.put ..))) (prefix_before chosen.grows fits) last
    rw [last] at values
    obtain ⟨cached₂, clause_values, w, rfl, held₂⟩ := chosen.solved (here.mono out.grows.paramBind (.refl F))
      clauses_in cached₁ (out.grows.count count) (solves.before (.put ..)) fits held₁ values
    obtain rfl : w = v := by simpa using head
    have value : eval S (.every T S.isTensor) fuel ρ (.cond t clauses default) = .ok w := by
      simp only [eval, bind_ok, orFault_ok]
      rw [default_value]
      exact ⟨[w], clause_values, rfl⟩
    exact ⟨cached₂.put (e := .cond t clauses default) rfl here.env inside value held₂, value, held₂⟩
  | e, _, _, _, .plain new plan args, _, _, _, ρ, v, F, here, inside, cached, count, solves, fits, ran => by
    obtain ⟨vs, values, applied⟩ := eval_plan (K := .every T fun _ => true) rfl plan ran
    obtain ⟨cached₁, arg_values, held₁⟩ := args.solved here (inside.plan plan) cached count
      (solves.before (.addNode ..)) fits values
    have value : eval S (.every T S.isTensor) fuel ρ e = .ok v :=
      @plan_returns _ S (.every T fun _ => true) (.every T S.isTensor) fuel ρ rfl e _ _ plan
        (evalList_each values arg_values) v ran
    obtain ⟨w, result, held⟩ := solves.op (List.mem_cons_self ..) held₁
    obtain rfl : w = v := Except.ok.inj (result.symm.trans applied)
    exact ⟨(cached₁.put (Run.not_tuple (.plain new plan args)) here.env inside value held).extend
      (.refl F) rfl rfl, value, held⟩
  | e, _, _, _, @Run.fold _ a acc op body _ ids st₁ sub st₂ new fold args fn, _, _, _, ρ, v, F, here, inside,
      cached, count, solves, fits, ran => by
    obtain ⟨args_in, subScopes, body_in⟩ := inside.fold fold
    obtain ⟨x, y, first, second, folded⟩ := eval_fold fold ran
    obtain ⟨cached₁, arg_values, held₁⟩ := args.solved here args_in cached count
      (solves.before (fn.grows.trans (.addFold ..))) (prefix_before fn.grows fits)
      (evalList_cons.mpr ⟨x, [y], first, evalList_cons.mpr ⟨y, [], second, evalList_nil, rfl⟩, rfl⟩)
    obtain ⟨x', _, first', tail, same⟩ := evalList_cons.mp arg_values
    obtain ⟨y', _, second', _, rfl⟩ := evalList_cons.mp tail
    cases same
    have step : ∀ p q w ws, eval S (.every T fun _ => true) fuel (fun pos => [p, q][pos]?) body = .ok w →
        interpret S blobs fuel sub [] [p, q] = .ok ws →
        eval S (.every T S.isTensor) fuel (fun pos => [p, q][pos]?) body = .ok w ∧ ws = [w] := by
      intro p q w ws value result
      obtain ⟨values, same⟩ := fn.solved body_in (args.grows.count count) fits
        (evalList_cons.mpr ⟨w, [], value, evalList_nil, rfl⟩) result
      obtain ⟨w', _, value', _, eq⟩ := evalList_cons.mp values
      cases eq
      exact ⟨value', same⟩
    obtain ⟨value, held⟩ := solves.fold fold (List.mem_cons_self ..) held₁ first' second' folded step
    exact ⟨((fn.cached cached₁).put (Run.not_tuple (.fold new fold args fn)) here.env inside value
      held).extend (.refl F) rfl rfl, value, held⟩

theorem TupleRun.solved : ∀ {e : Expr} {st st' : State} {ids : List Nat}, TupleRun e st ids st' →
    ∀ {scopes : Scopes} {params : List V} {s : Option Ref} {ρ : Nat → Option V} {vs : List V}
      {F : Env V},
    Here S fuel scopes params (.every T S.isTensor) s ρ st F → Scoped scopes s e →
    Cached S fuel scopes params (.every T S.isTensor) st F → st.blobCount = st.blobs.length →
    Solves S blobs fuel params F st' → st'.blobs.reverse <+: blobs →
    evalTuple S (.every T fun _ => true) fuel ρ e = .ok vs →
    Cached S fuel scopes params (.every T S.isTensor) st' F ∧
      evalTuple S (.every T S.isTensor) fuel ρ e = .ok vs ∧ Holds F ids vs
  | _, _, _, _, .tuple es, _, _, _, _, _, F, here, inside, cached, count, solves, fits, ran => by
    simp only [evalTuple] at ran ⊢
    obtain ⟨cached₁, values, held⟩ := es.solved here inside.tuple cached count solves fits ran
    exact ⟨cached₁, values, held.holds⟩
  | _, _, _, _, .metadata inner, _, _, _, _, _, F, here, inside, cached, count, solves, fits, ran => by
    simp only [evalTuple] at ran ⊢
    exact inner.solved here (inside.operand (List.mem_singleton.mpr rfl)) cached count solves fits ran
  | _, _, _, _, .hitBlock known, _, _, _, _, _, F, here, inside, cached, _, _, _, ran => by
    obtain ⟨ws, values, holds⟩ := cached.values rfl here.env inside known
    obtain rfl := firm_same_tuple values ran
    exact ⟨cached, values, holds⟩
  | _, _, _, _, .hitLoop known, _, _, _, _, _, F, here, inside, cached, _, _, _, ran => by
    obtain ⟨ws, values, holds⟩ := cached.values rfl here.env inside known
    obtain rfl := firm_same_tuple values ran
    exact ⟨cached, values, holds⟩
  | .block t inputs (.tuple outputs), _, _, _, .block new ins outs, _, _, _, ρ, vs, F, here, inside, cached,
      count, solves, fits, ran => by
    simp only [evalTuple, bind_ok] at ran
    obtain ⟨args, given, body⟩ := ran
    have later := Grows.bind outs.grows
    obtain ⟨cached₁, input_values, held₁⟩ := ins.solved here inside.inputs cached count
      (solves.before (later.trans (.putTuple ..))) (prefix_before later fits) given
    obtain ⟨cached₂, body_values, held₂⟩ := outs.solved
      ⟨.block here.env inside input_values, ⟨_, args, rfl, rfl, held₁⟩⟩ inside.default.tuple
      (cached₁.extend (.refl F) rfl rfl) (ins.grows.count count)
      (Solves.unbind (solves.before (.putTuple ..))) fits body
    have value : evalTuple S (.every T S.isTensor) fuel ρ (.block t inputs (.tuple outputs)) = .ok vs := by
      simp only [evalTuple, bind_ok]
      exact ⟨args, input_values, body_values⟩
    exact ⟨(cached₂.putTuple (e := .block t inputs (.tuple outputs)) rfl here.env inside value
      held₂.holds).extend (.refl F) rfl rfl, value, held₂.holds⟩
  | .loop t init test body, _, _, _, @TupleRun.loop _ _ _ _ _ initIds _ condSub st₂ bodySub st₃ new out
      cond stepped nonempty, _, _, _, ρ, vs, F, here, inside, cached, count, solves, fits, ran => by
    simp only [evalTuple, bind_ok, runLoop_ok] at ran
    obtain ⟨state, given, _, looped⟩ := ran
    obtain ⟨subScopes, subs⟩ := inside.sub
    have body_in := subs body (List.mem_cons_of_mem _ (List.mem_singleton.mpr rfl))
    have test_in := subs [test] (List.mem_cons_self ..)
    have later := cond.grows.trans stepped.grows
    obtain ⟨cached₁, init_values, held₁⟩ := out.solved here
      (fun e mem => inside.operand (List.mem_map_of_mem mem)) cached count
      (solves.before (later.trans ((Grows.addLoop ..).trans (.putTuple ..)))) (prefix_before later fits) given
    have count₁ := out.grows.count count
    have tested : ∀ s vs ws,
        only (eval S (.every T fun _ => true) fuel (fun pos => s[pos]?) test) = .ok vs →
        interpret S blobs fuel condSub [] s = .ok ws →
        only (eval S (.every T S.isTensor) fuel (fun pos => s[pos]?) test) = .ok vs ∧ ws = vs := by
      intro s vs ws values result
      obtain ⟨v, value, same⟩ := bind_ok.mp values
      cases same
      obtain ⟨again, rfl⟩ := cond.solved test_in count₁ (prefix_before stepped.grows fits)
        (evalList_cons.mpr ⟨v, [], value, evalList_nil, rfl⟩) result
      obtain ⟨v', _, value', _, eq⟩ := evalList_cons.mp again
      cases eq
      exact ⟨bind_ok.mpr ⟨v, value', rfl⟩, rfl⟩
    obtain ⟨real, again, holds⟩ := solves.loop (List.mem_cons_self ..) held₁ looped tested
      (fun s vs ws value ran => stepped.solved body_in (cond.grows.count count₁) fits value ran)
    have value : evalTuple S (.every T S.isTensor) fuel ρ (.loop t init test body) = .ok vs := by
      simp only [evalTuple, bind_ok, runLoop_ok]
      exact ⟨state, init_values, real, again⟩
    have cached₂ := stepped.cached (cond.cached cached₁)
    exact ⟨(cached₂.putTuple (e := .loop t init test body) rfl here.env inside value holds).extend
      (.refl F) rfl rfl, value, holds⟩
  | .cond t clauses (.tuple elems), _, _, _, .cond out data chains, _, _, _, ρ, vs, F, here, inside, cached,
      count, solves, fits, ran => by
    simp only [evalTuple] at ran
    obtain ⟨ys, last⟩ := evalTupleClauses_default (every_eager T _) ran
    rw [last] at ran
    obtain ⟨default_in, clauses_in⟩ := inside.clauses
    have later := selectChains_grows chains
    obtain ⟨cached₁, default_values, held₁⟩ := out.solved here default_in.tuple cached count
      (solves.before (data.grows.trans later)) (prefix_before (data.grows.trans later) fits) last
    obtain ⟨cached₂, clause_values, values, held₂, chained⟩ := data.solved
      (here.mono out.grows.paramBind (.refl F)) clauses_in cached₁ (out.grows.count count)
      (solves.before later) (prefix_before later fits) ran
    have len : ys.length = (elems.map Expr.tag).length := by
      rw [evalList_length last, List.length_map]
    obtain ⟨cached₃, held₃⟩ := selectChains_solved chains solves cached₂ held₂ (by
      intro k x v at_x at_v
      obtain ⟨at_e, at_id⟩ := List.getElem?_zip_eq_some.mp at_x
      obtain ⟨y, w, at_y, at_w, picked⟩ := chain_at len chained (i := k) (t := x.1.tag) (by simp [at_e])
      obtain rfl := Option.some.inj (at_w.symm.trans at_v)
      exact ⟨y, held₁.holds k _ _ at_id at_y, by rwa [Nat.zero_add]⟩) (by
      rw [chain_length len chained, List.length_zip, ← held₁.length, len]
      simp)
    have value : evalTuple S (.every T S.isTensor) fuel ρ (.cond t clauses (.tuple elems)) = .ok vs := by
      simp only [evalTuple]
      rw [default_values]
      exact clause_values
    exact ⟨cached₃, value, held₃.holds⟩

theorem ListRun.solved : ∀ {es : List Expr} {st st' : State} {ids : List Nat}, ListRun es st ids st' →
    ∀ {scopes : Scopes} {params : List V} {s : Option Ref} {ρ : Nat → Option V} {vs : List V}
      {F : Env V},
    Here S fuel scopes params (.every T S.isTensor) s ρ st F → (∀ e ∈ es, Scoped scopes s e) →
    Cached S fuel scopes params (.every T S.isTensor) st F → st.blobCount = st.blobs.length →
    Solves S blobs fuel params F st' → st'.blobs.reverse <+: blobs →
    evalList S (.every T fun _ => true) fuel ρ es = .ok vs →
    Cached S fuel scopes params (.every T S.isTensor) st' F ∧
      evalList S (.every T S.isTensor) fuel ρ es = .ok vs ∧ Held F ids vs
  | _, _, _, _, .nil, _, _, _, _, _, _, _, _, cached, _, _, _, ran => by
    rw [evalList_nil] at ran
    cases ran
    exact ⟨cached, evalList_nil, .nil⟩
  | _, _, _, _, .cons first rest, _, _, _, _, _, F, here, inside, cached, count, solves, fits, ran => by
    obtain ⟨v, vs, value, values, rfl⟩ := evalList_cons.mp ran
    obtain ⟨cached₁, first_value, held₁⟩ := first.solved here (inside _ (List.mem_cons_self ..)) cached
      count (solves.before rest.grows) (prefix_before rest.grows fits) value
    obtain ⟨cached₂, rest_values, held₂⟩ := rest.solved (here.mono first.grows.paramBind (.refl F))
      (fun e mem => inside e (List.mem_cons_of_mem _ mem)) cached₁ (first.grows.count count) solves fits
      values
    exact ⟨cached₂, evalList_cons.mpr ⟨v, vs, first_value, rest_values, rfl⟩, .cons held₁ held₂⟩

theorem SubRun.solved : ∀ {roots : List Expr} {st st' : State} {sub : SubGraph},
    SubRun roots st sub st' → ∀ {subScopes : Scopes} {params vs outs : List V},
    (∀ e ∈ roots, Scoped subScopes none e) → st.blobCount = st.blobs.length →
    st'.blobs.reverse <+: blobs →
    evalList S (.every T fun _ => true) fuel (fun pos => params[pos]?) roots = .ok vs →
    interpret S blobs fuel sub [] params = .ok outs →
    evalList S (.every T S.isTensor) fuel (fun pos => params[pos]?) roots = .ok vs ∧ outs = vs
  | roots, _, _, _, .mk run, subScopes, params, vs, outs, inside, count, fits, ran, result => by
    obtain ⟨base, E, bound, evaluated, read⟩ := interpret_ok.mp result
    have solves := solves_of_runs (run.grows.fill (List.Perm.refl _)) bound evaluated
    obtain ⟨_, values, held⟩ := run.solved ⟨.root, rfl⟩ inside (.start _ _) count solves fits ran
    refine ⟨values, ?_⟩
    rw [State.graph, SubGraph.outputs, outputSpecs_nodes (by rw [← held.length, evalList_length ran]),
      held.fetched] at read
    exact (Except.ok.inj read).symm

theorem ClauseRun.solved : ∀ {t : Tag} {clauses : List (Expr × Expr)} {defaultId id : Nat}
    {st st' : State}, ClauseRun t clauses defaultId st id st' →
    ∀ {scopes : Scopes} {params : List V} {s : Option Ref} {ρ : Nat → Option V} {d : V} {vs : List V}
      {F : Env V},
    Here S fuel scopes params (.every T S.isTensor) s ρ st F →
    (∀ c ∈ clauses, Scoped scopes s c.1 ∧ Scoped scopes s c.2) →
    Cached S fuel scopes params (.every T S.isTensor) st F → st.blobCount = st.blobs.length →
    Solves S blobs fuel params F st' → st'.blobs.reverse <+: blobs → F defaultId = some d →
    evalClauses S (.every T fun _ => true) fuel ρ t clauses (only (.ok d)) = .ok vs →
    Cached S fuel scopes params (.every T S.isTensor) st' F ∧
      evalClauses S (.every T S.isTensor) fuel ρ t clauses (only (.ok d)) = .ok vs ∧
        ∃ v, vs = [v] ∧ F id = some v
  | _, _, _, _, _, _, .nil, _, _, _, _, d, _, _, _, _, cached, _, _, _, last, ran => by
    simp only [evalClauses] at ran ⊢
    cases ran
    exact ⟨cached, rfl, d, rfl, last⟩
  | t, _, _, _, _, _, @ClauseRun.cons _ _ _ _ _ _ elseId st₁ predId st₂ exprId st₃ rest pred expr, _, _,
      _, _, _, _, F, here, inside, cached, count, solves, fits, last, ran => by
    rw [evalClauses] at ran ⊢
    obtain ⟨ys, p, xs, go, below, pred_value, expr_values, truth, scalar, fit, fit', rfl⟩ :=
      every_branch.mp ran
    obtain ⟨pred_in, expr_in⟩ := inside _ (List.mem_cons_self ..)
    have solves₃ := solves.before (.addRawNode ..)
    obtain ⟨cached₁, rest_values, y, rfl, held₁⟩ := rest.solved here
      (fun c mem => inside c (List.mem_cons_of_mem _ mem)) cached count
      (solves₃.before (pred.grows.trans expr.grows)) (prefix_before (pred.grows.trans expr.grows) fits)
      last below
    have here₁ := here.mono rest.grows.paramBind (.refl F)
    have count₁ := rest.grows.count count
    obtain ⟨cached₂, pred_again, held₂⟩ := pred.solved here₁ pred_in cached₁ count₁
      (solves₃.before expr.grows) (prefix_before expr.grows fits) pred_value
    obtain ⟨x, expr_value, same⟩ := bind_ok.mp expr_values
    cases same
    obtain ⟨cached₃, expr_again, held₃⟩ := expr.solved (here₁.mono pred.grows.paramBind (.refl F)) expr_in
      cached₂ (pred.grows.count count₁) solves₃ fits expr_value
    obtain ⟨w, applied, value⟩ := solves.op (List.mem_cons_self ..)
      (.cons held₂ (.cons held₃ (.cons held₁ .nil)) : Held F [predId, exprId, elseId] [p, x, y])
    have picked := selects_pick scalar truth fit fit'
    simp only [selects, bind_ok, Except.ok.injEq] at picked
    obtain ⟨w', made, _, rfl, eq⟩ := picked
    obtain rfl : w = w' := Except.ok.inj (applied.symm.trans made)
    refine ⟨cached₃.extend (.refl F) rfl rfl, every_branch.mpr ⟨[y], p, [x], go, rest_values, pred_again,
      bind_ok.mpr ⟨x, expr_again, rfl⟩, truth, scalar, fit, fit', rfl⟩, w, eq.symm, value⟩

theorem DataRun.solved : ∀ {clauses : List (Expr × Expr)} {st st' : State}
    {data : List (Nat × List Nat)}, DataRun clauses st data st' →
    ∀ {scopes : Scopes} {params : List V} {s : Option Ref} {ρ : Nat → Option V} {tags : List Tag}
      {ys vs : List V} {F : Env V},
    Here S fuel scopes params (.every T S.isTensor) s ρ st F →
    (∀ c ∈ clauses, Scoped scopes s c.1 ∧ Scoped scopes s c.2) →
    Cached S fuel scopes params (.every T S.isTensor) st F → st.blobCount = st.blobs.length →
    Solves S blobs fuel params F st' → st'.blobs.reverse <+: blobs →
    evalTupleClauses S (.every T fun _ => true) fuel ρ tags clauses (.ok ys) = .ok vs →
    Cached S fuel scopes params (.every T S.isTensor) st' F ∧
      evalTupleClauses S (.every T S.isTensor) fuel ρ tags clauses (.ok ys) = .ok vs ∧
        ∃ values, ClausesHeld F data values ∧ chain S tags values ys = .ok vs
  | _, _, _, _, .nil, _, _, _, _, _, _, _, _, _, _, cached, _, _, _, ran => by
    simp only [evalTupleClauses] at ran ⊢
    exact ⟨cached, ran, [], .nil, ran⟩
  | _, _, _, _, .cons pred es rest, _, _, _, _, _, _, _, F, here, inside, cached, count, solves, fits,
      ran => by
    rw [evalTupleClauses] at ran ⊢
    obtain ⟨zs, p, xs, go, below, pred_value, expr_values, truth, scalar, fit, fit', rfl⟩ :=
      every_branch.mp ran
    obtain ⟨pred_in, es_in⟩ := inside _ (List.mem_cons_self ..)
    obtain ⟨cached₁, pred_again, held₁⟩ := pred.solved here pred_in cached count
      (solves.before (es.grows.trans rest.grows)) (prefix_before (es.grows.trans rest.grows) fits)
      pred_value
    have here₁ := here.mono pred.grows.paramBind (.refl F)
    have count₁ := pred.grows.count count
    obtain ⟨cached₂, expr_again, held₂⟩ := es.solved here₁ es_in.tuple cached₁ count₁
      (solves.before rest.grows) (prefix_before rest.grows fits) expr_values
    obtain ⟨cached₃, rest_values, values, held₃, chained⟩ := rest.solved
      (here₁.mono es.grows.paramBind (.refl F)) (fun c mem => inside c (List.mem_cons_of_mem _ mem))
      cached₂ (es.grows.count count₁) solves fits below
    exact ⟨cached₃, every_branch.mpr ⟨zs, p, xs, go, rest_values, pred_again, expr_again, truth, scalar,
      fit, fit', rfl⟩, (p, xs) :: values, .cons ⟨held₁, held₂⟩ held₃,
      bind_ok.mpr ⟨zs, chained, selects_pick scalar truth fit fit'⟩⟩
end

/-- Lowering preserves meaning: where every branch has a value, the graph computes the values of its
    expressions just when the loops were over real tensors; it never returns others. -/
theorem toGraph_means {scopes : Scopes} {outputs : List Expr} {g : Graph} {params vs : List V}
    (inside : ∀ e ∈ outputs, Scoped scopes none e) (lowered : toGraph outputs = .ok g)
    (valued : evalList S (.every T fun _ => true) fuel (fun pos => params[pos]?) outputs = .ok vs) :
    evalList S (.taken S) fuel (fun pos => params[pos]?) outputs = .ok vs ∧
      (interpret S g.blobs fuel (.mk g.inputs g.constants g.nodes g.outputs) [] params = .ok vs ↔
        evalList S (.every T S.isTensor) fuel (fun pos => params[pos]?) outputs = .ok vs) ∧
      ∀ outs, interpret S g.blobs fuel (.mk g.inputs g.constants g.nodes g.outputs) [] params = .ok outs →
        outs = vs := by
  have le : fuel ≤ fuel := Nat.le_refl _
  have reference := evalList_refines (every_taken T fun _ => true) le outputs _ vs valued
  have back : ∀ outs, interpret S g.blobs fuel (.mk g.inputs g.constants g.nodes g.outputs) [] params =
      .ok outs → evalList S (.every T S.isTensor) fuel (fun pos => params[pos]?) outputs = .ok vs ∧
        outs = vs := by
    intro outs result
    obtain ⟨ids, st, run, rfl⟩ := toGraph_run lowered
    have sub : SubRun outputs (.start [] 0) (st.graph (outputSpecs outputs ids))
        ((State.start [] 0).adopt st) :=
      .mk run
    exact sub.solved inside rfl (List.prefix_refl _) valued result
  refine ⟨reference, ⟨fun result => (back vs result).1, fun firm => ?_⟩,
    fun outs result => (back outs result).2⟩
  exact toGraph_flow inside lowered (evalList_refines (every_flow T) le outputs _ vs firm)

end

theorem choice_means : ∃ g, toGraph [choice, given 0] = .ok g ∧
    evalList Scalar.sem (.taken Scalar.sem) 1 (fun pos => [Scalar.real 1][pos]?)
      [choice, given 0] = .ok [.real 0, .real 1] ∧
    interpret Scalar.sem g.blobs 1 (.mk g.inputs g.constants g.nodes g.outputs) [] [.real 1] =
      .ok [.real 0, .real 1] := by
  obtain ⟨g, lowered⟩ : ∃ g, toGraph [choice, given 0] = .ok g := ⟨_, rfl⟩
  obtain ⟨reference, computes, _⟩ := @toGraph_means _ Scalar.sem Scalar.types 1 choiceScopes _ g [.real 1]
    [.real 0, .real 1] choice_scoped lowered rfl
  exact ⟨g, lowered, reference, computes.mpr rfl⟩

def idle : Expr :=
  loopResult ⟨3, [], .c64⟩ ⟨4, [], .c64⟩ (.parameter ⟨0, [], .c64⟩ 0) (number 1 0)
    (.parameter ⟨2, [], .c64⟩ 0)

def idleNames : List Expr :=
  [.parameter ⟨0, [], .c64⟩ 0, number 1 0, .parameter ⟨2, [], .c64⟩ 0,
    .loop ⟨3, [], .c64⟩ [.parameter ⟨0, [], .c64⟩ 0] (number 1 0) [.parameter ⟨2, [], .c64⟩ 0], idle]

theorem idle_scoped : ∀ e ∈ [idle], Scoped (scopesOf idleNames) none e := by
  intro e mem
  obtain rfl := List.mem_singleton.mp mem
  refine scoped_loop rfl rfl ?_
  intro x mem
  simp only [List.mem_cons, List.not_mem_nil, or_false] at mem
  rcases mem with rfl | rfl | rfl <;> exact scoped_leaf rfl rfl rfl

theorem complex_loop_raises : ∃ g, (∀ e ∈ [idle], Scoped (scopesOf idleNames) none e) ∧
    toGraph [idle] = .ok g ∧
    evalList Scalar.sem (.every Scalar.types fun _ => true) 0 (fun pos => [Scalar.cx][pos]?) [idle] =
      .ok [.cx] ∧
    ∀ fuel, interpret Scalar.sem g.blobs fuel (.mk g.inputs g.constants g.nodes g.outputs) [] [.cx] =
      .error .fault := by
  refine ⟨_, idle_scoped, rfl, rfl, ?_⟩
  intro fuel
  simp only [interpret]
  rfl

end NxTinygrad.Lowering
