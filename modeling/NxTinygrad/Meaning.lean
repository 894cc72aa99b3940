import NxTinygrad.Computed

/- What a lowered expression means. The reference tests the predicates of a cond in order and computes
   the branch it takes; the graph computes every branch and selects. -/
namespace NxTinygrad.Lowering
open IR Interpreter StraightLine

variable {V α β : Type}

def Returns (a b : Except EvalError α) : Prop := ∀ v, a = .ok v → b = .ok v

theorem returns_refl (a : Except EvalError α) : Returns a a := fun _ h => h

theorem returns_bind {a b : Except EvalError α} {f g : α → Except EvalError β} (first : Returns a b)
    (rest : ∀ x, Returns (f x) (g x)) : Returns (a >>= f) (b >>= g) := by
  intro v h
  obtain ⟨x, ran, more⟩ := bind_ok.mp h
  exact bind_ok.mpr ⟨x, first x ran, rest x v more⟩

theorem returns_only {a b : Except EvalError V} (both : Returns a b) : Returns (only a) (only b) :=
  returns_bind both fun _ => returns_refl _

structure Refines (K K' : Strategy V) : Prop where
  guard : ∀ v, K.guard v = true → K'.guard v = true
  branch : ∀ tags {p p' : Except EvalError V} {x x' d d' : Except EvalError (List V)}, Returns p p' →
    Returns x x' → Returns d d' → Returns (K.branch tags p x d) (K'.branch tags p' x' d')
  start : ∀ e v, Returns (orFault (K.start e v)) (orFault (K'.start e v))
  fold : ∀ op {f f' : V → V → Except EvalError V}, (∀ x y, Returns (f x y) (f' x y)) →
    ∀ v w, Returns (K.fold op f v w) (K'.fold op f' v w)

theorem whileLoop_refines {S : Sem V} {guard guard' : V → Bool}
    {c c' b b' : List V → Except EvalError (List V)} (more : ∀ v, guard v = true → guard' v = true)
    (test : ∀ s, Returns (c s) (c' s)) (body : ∀ s, Returns (b s) (b' s)) {fuel fuel' : Nat}
    (le : fuel ≤ fuel') (state : List V) :
    Returns (whileLoop { S with isTensor := guard } c b fuel state)
      (whileLoop { S with isTensor := guard' } c' b' fuel' state) := by
  induction fuel generalizing fuel' state with
  | zero =>
    unfold whileLoop
    refine returns_bind (test state) fun outs => returns_bind (returns_refl _) fun go => ?_
    cases go with
    | false => exact returns_refl _
    | true =>
      intro v h
      cases h
  | succ fuel ih =>
    obtain ⟨fuel', rfl⟩ : ∃ k, fuel' = k + 1 := ⟨fuel' - 1, by omega⟩
    unfold whileLoop
    refine returns_bind (test state) fun outs => returns_bind (returns_refl _) fun go => ?_
    cases go with
    | false => exact returns_refl _
    | true =>
      refine returns_bind (body state) fun next => ?_
      intro v h
      split at h
      · rename_i real
        have real' : next.all guard' = true :=
          List.all_eq_true.mpr fun x mem => more x (List.all_eq_true.mp real x mem)
        rw [if_pos real']
        exact ih (Nat.le_of_succ_le_succ le) next v h
      · cases h

theorem foldLeft_refines {f f' : V → V → Except EvalError V} (each : ∀ x y, Returns (f x y) (f' x y))
    (parts : List V) (acc : V) : Returns (foldLeft f acc parts) (foldLeft f' acc parts) := by
  induction parts generalizing acc with
  | nil => exact returns_refl _
  | cons part rest ih => exact returns_bind (each acc part) fun acc => ih acc

theorem eval_block_eq {S : Sem V} {K : Strategy V} {fuel : Nat} {ρ : Nat → Option V} {t : Tag}
    {inputs : List Expr} {default : Expr} (kind : default.isTuple = false) :
    eval S K fuel ρ (.block t inputs default) = (do
      let args ← evalList S K fuel ρ inputs
      eval S K fuel (fun pos => args[pos]?) default) := by
  cases default with
  | tuple es => cases kind
  | _ => simp only [eval]

section
variable {S : Sem V} {K K' : Strategy V} {fuel fuel' : Nat} (order : Refines K K') (le : fuel ≤ fuel')
include order le

theorem runLoop_refines {test test' body body' : List V → Except EvalError (List V)}
    (tests : ∀ s, Returns (test s) (test' s)) (bodies : ∀ s, Returns (body s) (body' s))
    (init : List V) :
    Returns (runLoop S K fuel test body init) (runLoop S K' fuel' test' body' init) := by
  intro vs h
  obtain ⟨real, ran⟩ := runLoop_ok.mp h
  refine runLoop_ok.mpr ⟨?_, whileLoop_refines order.guard tests bodies le init vs ran⟩
  exact List.all_eq_true.mpr fun x mem => order.guard x (List.all_eq_true.mp real x mem)

set_option linter.unusedSectionVars false

mutual
theorem eval_refines : ∀ (e : Expr) (ρ : Nat → Option V), Returns (eval S K fuel ρ e)
    (eval S K' fuel' ρ e)
  | .parameter _ _, _ | .constant _ _, _ | .tensor _ _, _ | .tuple _, _ | .loop _ _ _ _, _
  | .other _ _, _ => by
    simp only [eval]
    exact returns_refl _
  | .metadata _ inner, ρ => by
    simp only [eval]
    exact eval_refines inner ρ
  | .elem _ src k, ρ => by
    simp only [eval]
    exact returns_bind (evalTuple_refines src ρ) fun vs => returns_refl _
  | .block t inputs default, ρ => by
    cases default with
    | tuple outputs =>
      simp only [eval]
      exact returns_bind (evalList_refines inputs ρ) fun args =>
        returns_bind (evalList_refines outputs _) fun vs => returns_refl _
    | _ =>
      rw [eval_block_eq rfl, eval_block_eq rfl]
      exact returns_bind (evalList_refines inputs ρ) fun args => eval_refines _ _
  | .cond t clauses default, ρ => by
    simp only [eval]
    exact returns_bind (evalClauses_refines clauses ρ t (returns_only (eval_refines default ρ)))
      fun vs => returns_refl _
  | .op t o args, ρ => by
    simp only [eval]
    split
    · exact returns_bind (evalList_refines args ρ) fun vs => returns_refl _
    · exact returns_refl _
  | .reduce t a acc axes keepAxes body, ρ => by
    simp only [eval]
    exact returns_bind (eval_refines a ρ) fun v => returns_bind (eval_refines acc ρ) fun w =>
      order.fold _ (fun x y => eval_refines body _) v w
  | .windowReduce t a acc window strides padding dilations body, ρ => by
    simp only [eval]
    exact returns_bind (eval_refines a ρ) fun v => returns_bind (eval_refines acc ρ) fun w =>
      order.fold _ (fun x y => eval_refines body _) v w
  | .slice t a starts lengths strides, ρ => by
    simp only [eval]
    exact returns_bind (eval_refines a ρ) fun v => returns_bind (evalDynamic_refines starts ρ) fun ss =>
      returns_refl _
  | .putSlice t a starts part, ρ => by
    simp only [eval]
    exact returns_bind (eval_refines a ρ) fun v => returns_bind (eval_refines part ρ) fun w =>
      returns_bind (evalStarts_refines starts ρ) fun ss => returns_refl _
  | .pad t a value config, ρ => by
    simp only [eval]
    exact returns_bind (eval_refines a ρ) fun v => returns_refl _
  | .windowScatter t o a source init window strides padding, ρ => by
    simp only [eval]
    exact returns_bind (eval_refines a ρ) fun v => returns_bind (eval_refines source ρ) fun w =>
      returns_refl _

theorem evalTuple_refines : ∀ (e : Expr) (ρ : Nat → Option V),
    Returns (evalTuple S K fuel ρ e) (evalTuple S K' fuel' ρ e)
  | .tuple es, ρ => by
    simp only [evalTuple]
    exact evalList_refines es ρ
  | .metadata _ inner, ρ => by
    simp only [evalTuple]
    exact evalTuple_refines inner ρ
  | .block t inputs default, ρ => by
    cases default with
    | tuple outputs =>
      simp only [evalTuple]
      exact returns_bind (evalList_refines inputs ρ) fun args => evalList_refines outputs _
    | _ =>
      simp only [evalTuple]
      exact returns_refl _
  | .loop t init test body, ρ => by
    simp only [evalTuple]
    exact returns_bind (evalList_refines init ρ) fun state => runLoop_refines order le
      (fun s => returns_only (eval_refines test _)) (fun s => evalList_refines body _) state
  | .cond t clauses default, ρ => by
    cases default with
    | tuple elems =>
      simp only [evalTuple]
      exact evalTupleClauses_refines clauses ρ _ (evalList_refines elems ρ)
    | _ =>
      simp only [evalTuple]
      exact returns_refl _
  | .parameter _ _, _ | .constant _ _, _ | .tensor _ _, _ | .elem _ _ _, _ | .op _ _ _, _
  | .reduce _ _ _ _ _ _, _ | .windowReduce _ _ _ _ _ _ _ _, _ | .slice _ _ _ _ _, _
  | .putSlice _ _ _ _, _ | .pad _ _ _ _, _ | .windowScatter _ _ _ _ _ _ _ _, _ | .other _ _, _ => by
    simp only [evalTuple]
    exact returns_refl _

theorem evalList_refines : ∀ (es : List Expr) (ρ : Nat → Option V),
    Returns (evalList S K fuel ρ es) (evalList S K' fuel' ρ es)
  | [], _ => by
    simp only [evalList]
    exact returns_refl _
  | e :: rest, ρ => by
    simp only [evalList]
    exact returns_bind (eval_refines e ρ) fun v => returns_bind (evalList_refines rest ρ) fun vs =>
      returns_refl _

theorem evalClauses_refines : ∀ (clauses : List (Expr × Expr)) (ρ : Nat → Option V) (t : Tag)
    {d d' : Except EvalError (List V)}, Returns d d' →
    Returns (evalClauses S K fuel ρ t clauses d) (evalClauses S K' fuel' ρ t clauses d')
  | [], _, _, _, _, last => by
    simp only [evalClauses]
    exact last
  | (pred, expr) :: rest, ρ, t, _, _, last => by
    simp only [evalClauses]
    exact order.branch _ (eval_refines pred ρ) (returns_only (eval_refines expr ρ))
      (evalClauses_refines rest ρ t last)

theorem evalTupleClauses_refines :
    ∀ (clauses : List (Expr × Expr)) (ρ : Nat → Option V) (tags : List Tag)
    {d d' : Except EvalError (List V)}, Returns d d' →
    Returns (evalTupleClauses S K fuel ρ tags clauses d) (evalTupleClauses S K' fuel' ρ tags clauses d')
  | [], _, _, _, _, last => by
    simp only [evalTupleClauses]
    exact last
  | (pred, expr) :: rest, ρ, tags, _, _, last => by
    cases expr with
    | tuple es =>
      simp only [evalTupleClauses]
      exact order.branch _ (eval_refines pred ρ) (evalList_refines es ρ)
        (evalTupleClauses_refines rest ρ tags last)
    | _ =>
      simp only [evalTupleClauses]
      exact returns_refl _

theorem evalDynamic_refines : ∀ (starts : List (Int ⊕ Expr)) (ρ : Nat → Option V),
    Returns (evalDynamic S K fuel ρ starts) (evalDynamic S K' fuel' ρ starts)
  | [], _ => by
    simp only [evalDynamic]
    exact returns_refl _
  | .inl n :: rest, ρ => by
    simp only [evalDynamic]
    exact returns_bind (evalDynamic_refines rest ρ) fun ss => returns_refl _
  | .inr e :: rest, ρ => by
    simp only [evalDynamic]
    exact returns_bind (eval_refines e ρ) fun v => returns_bind (returns_refl _) fun s =>
      returns_bind (evalDynamic_refines rest ρ) fun ss => returns_refl _

theorem evalStarts_refines : ∀ (starts : List Expr) (ρ : Nat → Option V),
    Returns (evalStarts S K fuel ρ starts) (evalStarts S K' fuel' ρ starts)
  | [], _ => by
    simp only [evalStarts]
    exact returns_refl _
  | e :: rest, ρ => by
    simp only [evalStarts]
    exact returns_bind (eval_refines e ρ) fun v => returns_bind (order.start e v) fun s =>
      returns_bind (evalStarts_refines rest ρ) fun ss => returns_refl _
end
end

structure Types (S : Sem V) where
  scalar : V → Bool
  fits : V → List Nat → Dtype → Bool
  picks : ∀ p x y shape dtype go, scalar p = true → S.truthy p = some go → fits x shape dtype = true →
    fits y shape dtype = true → S.prim .select [] [p, x, y] shape dtype = some (if go then x else y)

def Types.fitAll {S : Sem V} (T : Types S) : List V → List Tag → Bool
  | [], [] => true
  | v :: vs, t :: ts => T.fits v t.shape t.dtype && T.fitAll vs ts
  | _, _ => false

/-- The reference: predicates in order, and only the branch that is taken. Operations, the starts they are
    given and what a custom reduction does with its function mean the same as in the graph. -/
def Strategy.taken (S : Sem V) : Strategy V where
  guard := fun _ => true
  branch _ pred expr default := do
    let p ← pred
    let go ← orFault (S.truthy p)
    if go then expr else default
  start := (Strategy.flow S).start
  fold := (Strategy.flow S).fold

/-- The reference where every branch has a value, taken or not: one of the type the cond declares, and the
    predicate is a scalar. The loops are over values that pass `loopVar`. -/
def Strategy.every {S : Sem V} (T : Types S) (loopVar : V → Bool) : Strategy V where
  guard := loopVar
  branch tags pred expr default := do
    let ys ← default
    let p ← pred
    let xs ← expr
    let go ← orFault (S.truthy p)
    if T.scalar p && T.fitAll xs tags && T.fitAll ys tags then .ok (if go then xs else ys)
    else .error .fault
  start := (Strategy.flow S).start
  fold := (Strategy.flow S).fold

section
variable {S : Sem V} {T : Types S}

theorem flow_fold_returns (op : FoldOp) {f f' : V → V → Except EvalError V}
    (each : ∀ x y, Returns (f x y) (f' x y)) (v w : V) :
    Returns ((Strategy.flow S).fold op f v w) ((Strategy.flow S).fold op f' v w) :=
  returns_bind (returns_refl _) fun first => returns_bind (returns_refl _) fun parts =>
    returns_bind (foldLeft_refines each parts first) fun _ => returns_refl _

theorem every_branch {loopVar : V → Bool} {tags : List Tag} {pred : Except EvalError V}
    {expr default : Except EvalError (List V)} {vs : List V} :
    (Strategy.every T loopVar).branch tags pred expr default = .ok vs ↔ ∃ ys p xs go,
      default = .ok ys ∧ pred = .ok p ∧ expr = .ok xs ∧ S.truthy p = some go ∧ T.scalar p = true ∧
        T.fitAll xs tags = true ∧ T.fitAll ys tags = true ∧ vs = if go then xs else ys := by
  constructor
  · intro h
    obtain ⟨ys, last, h⟩ := bind_ok.mp h
    obtain ⟨p, tested, h⟩ := bind_ok.mp h
    obtain ⟨xs, first, h⟩ := bind_ok.mp h
    obtain ⟨go, truth, h⟩ := bind_ok.mp h
    split at h
    · rename_i kinds
      simp only [Bool.and_eq_true] at kinds
      cases h
      exact ⟨ys, p, xs, go, last, tested, first, orFault_ok.mp truth, kinds.1.1, kinds.1.2, kinds.2, rfl⟩
    · cases h
  · rintro ⟨ys, p, xs, go, last, tested, first, truth, scalar, fit, fit', rfl⟩
    refine bind_ok.mpr ⟨ys, last, bind_ok.mpr ⟨p, tested, bind_ok.mpr ⟨xs, first,
      bind_ok.mpr ⟨go, orFault_ok.mpr truth, ?_⟩⟩⟩⟩
    simp [scalar, fit, fit']

theorem every_eager (T : Types S) (loopVar : V → Bool) : (Strategy.every T loopVar).Eager := by
  intro tags p x d vs h
  obtain ⟨ys, _, _, _, last, _⟩ := every_branch.mp h
  exact ⟨ys, last⟩

theorem selects_pick {p : V} {go : Bool} (scalar : T.scalar p = true) (truth : S.truthy p = some go) :
    ∀ {tags : List Tag} {xs ys : List V}, T.fitAll xs tags = true → T.fitAll ys tags = true →
      selects S tags p xs ys = .ok (if go then xs else ys)
  | [], [], [], _, _ => by cases go <;> rfl
  | t :: tags, x :: xs, y :: ys, first, second => by
    simp only [Types.fitAll, Bool.and_eq_true] at first second
    have here := T.picks p x y t.shape t.dtype go scalar truth first.1 second.1
    rw [selects, here, selects_pick scalar truth first.2 second.2]
    cases go <;> rfl

theorem every_taken (T : Types S) (loopVar : V → Bool) : Refines (.every T loopVar) (.taken S) where
  guard _ _ := rfl
  branch tags p p' x x' d d' pred expr default vs h := by
    obtain ⟨ys, q, xs, go, last, tested, first, truth, _, _, _, rfl⟩ := every_branch.mp h
    refine bind_ok.mpr ⟨q, pred q tested, bind_ok.mpr ⟨go, orFault_ok.mpr truth, ?_⟩⟩
    cases go with
    | false => exact default ys last
    | true => exact expr xs first
  start _ _ := returns_refl _
  fold op _ _ each v w := flow_fold_returns op each v w

theorem every_every {loopVar loopVar' : V → Bool} (T : Types S)
    (more : ∀ v, loopVar v = true → loopVar' v = true) :
    Refines (.every T loopVar) (.every T loopVar') where
  guard := more
  branch tags p p' x x' d d' pred expr default vs h := by
    obtain ⟨ys, q, xs, go, last, tested, first, more⟩ := every_branch.mp h
    exact every_branch.mpr ⟨ys, q, xs, go, default ys last, pred q tested, expr xs first, more⟩
  start _ _ := returns_refl _
  fold op _ _ each v w := flow_fold_returns op each v w

theorem taken_taken (S : Sem V) : Refines (.taken S) (.taken S) where
  guard _ _ := rfl
  branch tags p p' x x' d d' pred expr default := by
    refine returns_bind pred fun q => returns_bind (returns_refl _) fun go => ?_
    cases go with
    | false => exact default
    | true => exact expr
  start _ _ := returns_refl _
  fold op _ _ each v w := flow_fold_returns op each v w

theorem every_flow (T : Types S) : Refines (.every T S.isTensor) (.flow S) where
  guard _ real := real
  branch tags p p' x x' d d' pred expr default vs h := by
    obtain ⟨ys, q, xs, go, last, tested, first, truth, scalar, fit, fit', rfl⟩ := every_branch.mp h
    exact bind_ok.mpr ⟨ys, default ys last,
      bind_ok.mpr ⟨q, pred q tested, bind_ok.mpr ⟨xs, expr xs first,
      selects_pick scalar truth fit fit'⟩⟩⟩
  start _ _ := returns_refl _
  fold op _ _ each v w := flow_fold_returns op each v w

theorem toGraph_flow {scopes : Scopes} {outputs : List Expr} {g : Graph} {fuel : Nat}
    {params vs : List V}
    (inside : ∀ e ∈ outputs, Scoped scopes none e) (lowered : toGraph outputs = .ok g)
    (ran : evalList S (.flow S) fuel (fun pos => params[pos]?) outputs = .ok vs) :
    interpret S g.blobs fuel (.mk g.inputs g.constants g.nodes g.outputs) [] params = .ok vs := by
  obtain ⟨ids, st, run, rfl⟩ := toGraph_run lowered
  have sub : SubRun outputs (.start [] 0) (st.graph (outputSpecs outputs ids))
      ((State.start [] 0).adopt st) :=
    .mk run
  exact sub.sim inside rfl (List.prefix_refl _) ran

/-- The loops of the branches that are not taken run as well: where the expression has a value, the graph
    computes it once every branch has one. -/
theorem toGraph_terminates {scopes : Scopes} {outputs : List Expr} {g : Graph} {fuel fuel' : Nat}
    {params vs ws : List V} (inside : ∀ e ∈ outputs, Scoped scopes none e)
    (lowered : toGraph outputs = .ok g)
    (taken : evalList S (.taken S) fuel (fun pos => params[pos]?) outputs = .ok vs)
    (every : evalList S (.every T S.isTensor) fuel' (fun pos => params[pos]?) outputs = .ok ws) :
    ∃ k, interpret S g.blobs k (.mk g.inputs g.constants g.nodes g.outputs) [] params = .ok vs := by
  have more := Nat.le_max_left fuel fuel'
  have more' := Nat.le_max_right fuel fuel'
  have reference := evalList_refines (taken_taken S) more outputs _ vs taken
  have reference' := evalList_refines (every_taken T S.isTensor) more' outputs _ ws every
  obtain rfl : vs = ws := Except.ok.inj (reference.symm.trans reference')
  exact ⟨max fuel fuel',
    toGraph_flow inside lowered (evalList_refines (every_flow T) more' outputs _ vs every)⟩

end

/-! Scalars, and a tensor of complex numbers: `Cx` has no `realize` and no `item`. -/

inductive Scalar where
  | real (n : Int)
  | cx
  deriving DecidableEq, Repr

def Scalar.real? : Scalar → Option Int
  | .real n => some n
  | .cx => none

def Scalar.sem : Sem Scalar where
  number j _ _ := match j with
    | .int n => some (.real n)
    | _ => none
  literal _ _ _ := none
  prim op _ vs _ _ := match op, vs with
    | .select, [p, x, y] => p.real?.map fun n => if n ≠ 0 then x else y
    | _, _ => none
  slice _ _ _ _ _ _ := none
  putSlice _ _ _ _ _ := none
  isTensor v := v.real?.isSome
  item := Scalar.real?
  truthy v := v.real?.map (· ≠ 0)
  foldAcc _ _ _ := none
  foldParts _ _ := none
  foldFinish _ _ _ := none

def Scalar.types : Types Scalar.sem where
  scalar v := v.real?.isSome
  fits _ _ _ := true
  picks p x y shape dtype go _ truth _ _ := by
    obtain ⟨n, real, rfl⟩ := Option.map_eq_some_iff.mp truth
    simp [Scalar.sem, real]

/-- An expression of the table `named`, by its reference. -/
def named (es : List Expr) (ref : Ref) : Expr := es[ref]?.getD (.tuple [])

def scopesOf (es : List Expr) : Scopes := ⟨named es, fun _ => none⟩

section
variable {es : List Expr} {e : Expr}

theorem scoped_plain (here : e.isTuple = false → named es e.tag.ref = e)
    (operands : ∀ c ∈ e.operands none (some e.tag.ref), Scoped (scopesOf es) c.1 c.2)
    (subs : ∀ sub ∈ e.subs, ∀ x ∈ sub, Scoped (scopesOf es) none x) : Scoped (scopesOf es) none e :=
  .mk (fun _ => scopesOf es) here (fun _ _ _ => rfl) operands subs

theorem scoped_leaf (here : named es e.tag.ref = e) (operands : e.operands none (some e.tag.ref) = [])
    (subs : e.subs = []) : Scoped (scopesOf es) none e :=
  scoped_plain (fun _ => here) (fun c mem => by rw [operands] at mem; cases mem)
    (fun sub mem => by rw [subs] at mem; cases mem)

def loopResult (t t' : Tag) (init test body : Expr) : Expr := .elem t' (.loop t [init] test [body]) 0

theorem scoped_loop {t t' : Tag} {init test body : Expr}
    (here : named es t.ref = .loop t [init] test [body])
    (result : named es t'.ref = loopResult t t' init test body)
    (leaves : ∀ x ∈ [init, test, body], Scoped (scopesOf es) none x) :
    Scoped (scopesOf es) none (loopResult t t' init test body) := by
  refine scoped_plain (fun _ => result) ?_ (fun _ mem => nomatch mem)
  intro c mem
  obtain rfl := List.mem_singleton.mp mem
  refine scoped_plain (fun _ => here) ?_ ?_
  · intro c mem
    obtain rfl := List.mem_singleton.mp mem
    exact leaves init (by simp)
  · intro sub mem x inside
    refine leaves x ?_
    simp only [Expr.subs, List.mem_cons, List.not_mem_nil, or_false] at mem
    rcases mem with rfl | rfl
    · simp [List.mem_singleton.mp inside]
    · simp [List.mem_singleton.mp inside]

end

def number (ref : Ref) (n : Int) : Expr := .constant ⟨ref, [], .s64⟩ (.int n)

def given (ref : Ref) : Expr := .parameter ⟨ref, [], .s64⟩ 0

def once : Expr := loopResult ⟨4, [], .s64⟩ ⟨5, [], .s64⟩ (number 1 1) (given 2) (number 3 0)

def second : Expr := .block ⟨6, [], .s64⟩ [given 0, number 9 7] (.parameter ⟨8, [], .s64⟩ 1)

/-- `if p, do: (while x, do: 0), else: second(p, 7)`. -/
def choice : Expr := .cond ⟨7, [], .s64⟩ [(given 0, once)] second

def choiceNames : List Expr :=
  [given 0, number 1 1, given 2, number 3 0, .loop ⟨4, [], .s64⟩ [number 1 1] (given 2) [number 3 0], once,
    second, choice, .parameter ⟨8, [], .s64⟩ 1, number 9 7]

def choiceScopes : Scopes := ⟨named choiceNames, fun ref => if ref = 8 then some 6 else none⟩

theorem choice_scoped : ∀ e ∈ [choice, given 0], Scoped choiceScopes none e := by
  have leaf {e : Expr} {s : Option Ref} (here : named choiceNames e.tag.ref = e)
      (owned : ∀ t pos, e = .parameter t pos → choiceScopes.home t.ref = s)
      (operands : e.operands s (some e.tag.ref) = []) (subs : e.subs = []) : Scoped choiceScopes s e :=
    .mk (fun _ => choiceScopes) (fun _ => here) owned (fun c mem => by rw [operands] at mem; cases mem)
      (fun sub mem => by rw [subs] at mem; cases mem)
  have param (ref : Ref) (here : named choiceNames ref = given ref) (owned : choiceScopes.home ref = none) :
      Scoped choiceScopes none (given ref) :=
    leaf here (fun t pos same => by cases same; exact owned) rfl rfl
  have value (ref : Ref) (n : Int) (here : named choiceNames ref = number ref n) :
      Scoped choiceScopes none (number ref n) :=
    leaf here (fun t pos same => by cases same) rfl rfl
  have loop : Scoped choiceScopes none once := by
    refine .mk (fun _ => choiceScopes) (fun _ => rfl) (fun t pos same => by cases same) ?_ (List.forall_mem_nil _)
    intro c mem
    obtain rfl := List.mem_singleton.mp mem
    refine .mk (fun _ => choiceScopes) (fun _ => rfl) (fun t pos same => by cases same) ?_ ?_
    · intro c mem
      obtain rfl := List.mem_singleton.mp mem
      exact value 1 1 rfl
    · intro sub mem x inside
      simp only [Expr.subs, List.mem_cons, List.not_mem_nil, or_false] at mem
      rcases mem with rfl | rfl
      · obtain rfl := List.mem_singleton.mp inside
        exact param 2 rfl rfl
      · obtain rfl := List.mem_singleton.mp inside
        exact value 3 0 rfl
  have block : Scoped choiceScopes none second := by
    refine .mk (fun _ => choiceScopes) (fun _ => rfl) (fun t pos same => by cases same) ?_ (List.forall_mem_nil _)
    intro c mem
    have each : c ∈ [(some 6, Expr.parameter ⟨8, [], .s64⟩ 1), (none, given 0), (none, number 9 7)] := mem
    simp only [List.mem_cons, List.not_mem_nil, or_false] at each
    rcases each with rfl | rfl | rfl
    · exact leaf rfl (fun t pos same => by cases same; rfl) rfl rfl
    · exact param 0 rfl rfl
    · exact value 9 7 rfl
  intro e mem
  simp only [List.mem_cons, List.not_mem_nil, or_false] at mem
  rcases mem with rfl | rfl
  · refine .mk (fun _ => choiceScopes) (fun _ => rfl) (fun t pos same => by cases same) ?_ (List.forall_mem_nil _)
    intro c mem
    have each : c ∈ [(none, second), (none, given 0), (none, once)] := mem
    simp only [List.mem_cons, List.not_mem_nil, or_false] at each
    rcases each with rfl | rfl | rfl
    · exact block
    · exact param 0 rfl rfl
    · exact loop
  · exact param 0 rfl rfl

def endless : Expr := loopResult ⟨4, [], .s64⟩ ⟨5, [], .s64⟩ (number 1 0) (number 2 1) (given 3)

def guarded : Expr := .cond ⟨7, [], .s64⟩ [(number 0 0, endless)] (number 6 7)

def guardedNames : List Expr :=
  [number 0 0, number 1 0, number 2 1, given 3, .loop ⟨4, [], .s64⟩ [number 1 0] (number 2 1) [given 3],
    endless, number 6 7, guarded]

theorem guarded_scoped : ∀ e ∈ [guarded], Scoped (scopesOf guardedNames) none e := by
  intro e mem
  obtain rfl := List.mem_singleton.mp mem
  refine scoped_plain (fun _ => rfl) ?_ (fun _ mem => nomatch mem)
  intro c mem
  have each : c ∈ [(none, number 6 7), (none, number 0 0), (none, endless)] := mem
  simp only [List.mem_cons, List.not_mem_nil, or_false] at each
  rcases each with rfl | rfl | rfl
  · exact scoped_leaf rfl rfl rfl
  · exact scoped_leaf rfl rfl rfl
  · refine scoped_loop rfl rfl ?_
    intro x mem
    simp only [List.mem_cons, List.not_mem_nil, or_false] at mem
    rcases mem with rfl | rfl | rfl <;> exact scoped_leaf rfl rfl rfl

def endlessTest : SubGraph := .mk [] [⟨0, .value (.int 1), [], .s64⟩] [] [⟨0, [], .s64⟩]

def endlessBody : SubGraph := .mk [⟨0, 0, [], .s64⟩] [] [] [⟨0, [], .s64⟩]

def endlessNode : Node := .loop [2] endlessTest endlessBody [⟨3, [], .s64⟩]

def guardedGraph : Graph where
  inputs := []
  constants := [⟨0, .value (.int 7), [], .s64⟩, ⟨1, .value (.int 0), [], .s64⟩,
    ⟨2, .value (.int 0), [], .s64⟩]
  nodes := [endlessNode, .op 4 (.prim .select []) [1, 3, 0] [] .s64]
  outputs := [⟨4, [], .s64⟩]
  blobs := []

theorem outOfFuel_of_fixed {cond body : List Scalar → Except EvalError (List Scalar)}
    {state : List Scalar}
    (test : cond state = .ok [.real 1]) (step : body state = .ok state)
    (real : state.all Scalar.sem.isTensor = true) :
    ∀ fuel : Nat, whileLoop Scalar.sem cond body fuel state = .error .outOfFuel
  | 0 => by
    rw [whileLoop, test]
    rfl
  | fuel + 1 => by
    have next := outOfFuel_of_fixed test step real fuel
    rw [whileLoop, test]
    change (body state >>= fun next =>
      if next.all Scalar.sem.isTensor then whileLoop Scalar.sem cond body fuel next
      else .error .fault) = _
    rw [step]
    change (if state.all Scalar.sem.isTensor then _ else _) = _
    rw [if_pos real]
    exact next

theorem endless_outOfFuel (fuel : Nat) :
    runNode Scalar.sem [] fuel [] endlessNode [.real 0] = .error .outOfFuel := by
  have test : interpret Scalar.sem [] fuel endlessTest [] [.real 0] = .ok [.real 1] := by
    simp only [endlessTest, interpret]
    rfl
  have step : interpret Scalar.sem [] fuel endlessBody [] [.real 0] = .ok [.real 0] := by
    simp only [endlessBody, interpret]
    rfl
  have real : [Scalar.real 0].all Scalar.sem.isTensor = true := rfl
  rw [endlessNode, runNode, if_pos real]
  exact outOfFuel_of_fixed test step rfl fuel

/-- The loop of a branch that is not taken runs all the same. -/
theorem hoisted_loop_runs : (∀ e ∈ [guarded], Scoped (scopesOf guardedNames) none e) ∧
    toGraph [guarded] = .ok guardedGraph ∧
    evalList Scalar.sem (.taken Scalar.sem) 0 (fun pos => ([] : List Scalar)[pos]?)
    [guarded] = .ok [.real 7] ∧
      ∀ fuel, interpret Scalar.sem guardedGraph.blobs fuel
      (.mk guardedGraph.inputs guardedGraph.constants
        guardedGraph.nodes guardedGraph.outputs) [] [] = .error .outOfFuel := by
  refine ⟨guarded_scoped, rfl, rfl, ?_⟩
  intro fuel
  have inside : ∀ E : Env Scalar, E 2 = some (.real 0) →
      evalNodes Scalar.sem [] fuel [] guardedGraph.nodes E = .error .outOfFuel := by
    intro E start
    have read : fetch EvalError.missing E (nodeReads endlessNode) = .ok [.real 0] := by
      rw [fetch_ok_iff]
      simp [nodeReads, endlessNode, start]
    rw [guardedGraph, evalNodes, read]
    change (runNode Scalar.sem [] fuel [] endlessNode [.real 0] >>= _) = _
    rw [endless_outOfFuel]
    rfl
  have bound : ∃ E : Env Scalar, E 2 = some (.real 0) ∧
      bindParams Scalar.sem guardedGraph.blobs [] guardedGraph.inputs guardedGraph.constants =
      .ok E := ⟨_, rfl, rfl⟩
  obtain ⟨E, start, bound⟩ := bound
  rw [interpret, bound]
  change (evalNodes Scalar.sem [] fuel [] guardedGraph.nodes E >>= _) = _
  rw [inside E start]
  rfl

theorem choice_terminates : ∃ g, toGraph [choice, given 0] = .ok g ∧ ∃ k, interpret Scalar.sem g.blobs k
    (.mk g.inputs g.constants g.nodes g.outputs) [] [.real 0] = .ok [.real 7, .real 0] := by
  have taken : evalList Scalar.sem (.taken Scalar.sem) 0 (fun pos => [Scalar.real 0][pos]?)
      [choice, given 0] = .ok [.real 7, .real 0] := rfl
  have every : evalList Scalar.sem (.every Scalar.types Scalar.sem.isTensor) 1
      (fun pos => [Scalar.real 0][pos]?) [choice, given 0] = .ok [.real 7, .real 0] := rfl
  exact ⟨_, rfl, toGraph_terminates choice_scoped rfl taken every⟩

end NxTinygrad.Lowering
