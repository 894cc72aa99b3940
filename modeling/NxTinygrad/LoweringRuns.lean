import NxTinygrad.Lowering

/- What a traversal that raises nothing did, one rule for each way it goes on. -/
namespace NxTinygrad.Lowering
open IR

def Expr.isTuple : Expr → Bool
  | .tuple _ => true
  | _ => false

def dynamicStarts (starts : List (Int ⊕ Expr)) : List Expr := starts.filterMap Sum.getRight?

def isStatic (e : Expr) : Bool :=
  match classifyStart e with
  | .ok (some _) => true
  | _ => false

def runtimeStarts (starts : List Expr) : List Expr :=
  (starts.filter fun e => !isStatic e).map Expr.strip

def Expr.plan : Expr → Option (List Expr × NodeOp)
  | .op t o args =>
      if o.takes args.length then
        some (args, .prim o.prim (o.attrs ((args.head?.map (·.rank)).getD 0) t.shape))
      else none
  | .slice _ a starts lengths strides =>
      some (a :: dynamicStarts starts, .slice (sliceStarts 0 starts) lengths strides)
  | .putSlice _ a starts part => match putSliceStarts 0 starts with
      | .ok specs => some (a :: part :: runtimeStarts starts, .putSlice specs)
      | .error _ => none
  | .pad _ a value config => match scalarConstant "pad" value with
      | .ok number => some ([a], .prim .pad (padAttrs config number))
      | .error _ => none
  | .windowScatter _ o a source init window strides padding =>
      match scalarConstant (PrimOp.windowScatter o).name init with
      | .ok number => some ([a, source],
          .prim (.windowScatter o) (windowScatterAttrs number window strides padding))
      | .error _ => none
  | _ => none

/-- The operand, the accumulator, the operation and the function of a custom reduction. -/
def Expr.fold : Expr → Option (Expr × Expr × FoldOp × Expr)
  | .reduce _ a acc axes keepAxes body =>
      some (a, acc, .reduce (normalizeAxes axes a.rank) keepAxes, body)
  | .windowReduce _ a acc window strides padding dilations body =>
      some (a, acc, .windowReduce window strides padding dilations, body)
  | _ => none

/-- The state of a block's default, and the state after it. -/
def State.bind (st : State) (paramBind : Option (List Nat)) : State :=
  { st with paramBind := paramBind }

def State.addInput (st : State) (t : Tag) (pos : Nat) : State :=
  { st.alloc t.ref with inputs := ⟨st.counter, pos, t.shape, t.dtype⟩ :: st.inputs }

def State.addConstant (st : State) (t : Tag) (body : ConstBody) : State :=
  { st.alloc t.ref with constants := ⟨st.counter, body, t.shape, t.dtype⟩ :: st.constants }

def State.addBlob (st : State) (blob : Blob) : State :=
  { st with blobs := blob :: st.blobs, blobCount := st.blobCount + 1 }

def State.adopt (st sub : State) : State :=
  { st with blobs := sub.blobs, blobCount := sub.blobCount }

def State.addLoop (st : State) (initIds : List Nat) (cond body : SubGraph) (exprs : List Expr) :
    State :=
  { st with
    counter := st.counter + exprs.length
    nodes := .loop initIds cond body (whileOutputs st.counter exprs) :: st.nodes }

def State.graph (st : State) (outputs : List OutputSpec) : SubGraph :=
  .mk st.inputs.reverse st.constants.reverse st.nodes.reverse outputs

def outputSpecs (roots : List Expr) (ids : List Nat) : List OutputSpec :=
  List.zipWith outputSpec roots ids

mutual
inductive Run : Expr → State → Nat → State → Prop where
  | hit {e st id} : e.isTuple = false → st.ids e.tag.ref = some id → Run e st id st
  | bound {t pos st id} : st.ids t.ref = none → st.bound pos = some id →
      Run (.parameter t pos) st id (st.put t.ref id)
  | input {t pos st} : st.ids t.ref = none → st.bound pos = none →
      Run (.parameter t pos) st st.counter (st.addInput t pos)
  | constant {t number st} : st.ids t.ref = none →
      Run (.constant t number) st st.counter (st.addConstant t (.value (encodeNumber number)))
  | tensor {t literal st} : st.ids t.ref = none →
      Run (.tensor t literal) st st.counter
        ((st.addConstant t (.data st.blobCount)).addBlob literal.binary)
  | metadata {t inner st id st'} : st.ids t.ref = none → Run inner st id st' →
      Run (.metadata t inner) st id (st'.put t.ref id)
  | elem {t src k st ids id st'} : st.ids t.ref = none → TupleRun src st ids st' →
      ids[k]? = some id → Run (.elem t src k) st id (st'.put t.ref id)
  | block {t inputs default st inputIds st₁ id st₂} : st.ids t.ref = none →
      default.isTuple = false → ListRun inputs st inputIds st₁ →
      Run default (st₁.bind (some inputIds)) id st₂ →
      Run (.block t inputs default) st id ((st₂.bind st₁.paramBind).put t.ref id)
  | first {t inputs outputs st id ids st'} : st.ids t.ref = none →
      TupleRun (.block t inputs (.tuple outputs)) st (id :: ids) st' →
      Run (.block t inputs (.tuple outputs)) st id st'
  | cond {t clauses default st defaultId st₁ id st₂} : st.ids t.ref = none →
      Run default st defaultId st₁ → ClauseRun t clauses defaultId st₁ id st₂ →
      Run (.cond t clauses default) st id (st₂.put t.ref id)
  | plain {e args op st ids st'} : st.ids e.tag.ref = none → e.plan = some (args, op) →
      ListRun args st ids st' → Run e st st'.counter (st'.addNode e.tag op ids).2
  | fold {e a acc op body st ids st₁ fn st₂} : st.ids e.tag.ref = none →
      e.fold = some (a, acc, op, body) → ListRun [a, acc] st ids st₁ →
      SubRun [body] st₁ fn st₂ → Run e st st₂.counter (st₂.addFold e.tag op fn ids).2

inductive TupleRun : Expr → State → List Nat → State → Prop where
  | tuple {es st ids st'} : ListRun es st ids st' → TupleRun (.tuple es) st ids st'
  | metadata {t inner st ids st'} : TupleRun inner st ids st' →
      TupleRun (.metadata t inner) st ids st'
  | hitBlock {t inputs outputs st ids} : st.tuples t.ref = some ids →
      TupleRun (.block t inputs (.tuple outputs)) st ids st
  | hitLoop {t init test body st ids} : st.tuples t.ref = some ids →
      TupleRun (.loop t init test body) st ids st
  | block {t inputs outputs st inputIds st₁ ids st₂} : st.tuples t.ref = none →
      ListRun inputs st inputIds st₁ → ListRun outputs (st₁.bind (some inputIds)) ids st₂ →
      TupleRun (.block t inputs (.tuple outputs)) st ids
        ((st₂.bind st₁.paramBind).putTuple t.ref ids)
  | loop {t init test body st initIds st₁ condSub st₂ bodySub st₃} : st.tuples t.ref = none →
      ListRun init st initIds st₁ → SubRun [test] st₁ condSub st₂ →
      SubRun body st₂ bodySub st₃ → body ≠ [] →
      TupleRun (.loop t init test body) st ((whileOutputs st₃.counter body).map (·.id))
        ((st₃.addLoop initIds condSub bodySub body).putTuple t.ref
          ((whileOutputs st₃.counter body).map (·.id)))
  | cond {t clauses elems st defaultIds st₁ data st₂ ids st₃} :
      ListRun elems st defaultIds st₁ → DataRun clauses st₁ data st₂ →
      selectChains data 0 (elems.zip defaultIds) st₂ = .ok (ids, st₃) →
      TupleRun (.cond t clauses (.tuple elems)) st ids st₃

inductive ListRun : List Expr → State → List Nat → State → Prop where
  | nil {st} : ListRun [] st [] st
  | cons {e rest st id st₁ ids st₂} : Run e st id st₁ → ListRun rest st₁ ids st₂ →
      ListRun (e :: rest) st (id :: ids) st₂

inductive SubRun : List Expr → State → SubGraph → State → Prop where
  | mk {roots st ids sub} : ListRun roots (.start st.blobs st.blobCount) ids sub →
      SubRun roots st (sub.graph (outputSpecs roots ids)) (st.adopt sub)

inductive ClauseRun : Tag → List (Expr × Expr) → Nat → State → Nat → State → Prop where
  | nil {t elseId st} : ClauseRun t [] elseId st elseId st
  | cons {t pred expr rest defaultId st elseId st₁ predId st₂ exprId st₃} :
      ClauseRun t rest defaultId st elseId st₁ → Run pred st₁ predId st₂ →
      Run expr st₂ exprId st₃ →
      ClauseRun t ((pred, expr) :: rest) defaultId st st₃.counter
        (st₃.addRawNode selectOp [predId, exprId, elseId] t.shape t.dtype).2

inductive DataRun : List (Expr × Expr) → State → List (Nat × List Nat) → State → Prop where
  | nil {st} : DataRun [] st [] st
  | cons {pred es rest st predId st₁ exprIds st₂ data st₃} : Run pred st predId st₁ →
      ListRun es st₁ exprIds st₂ → DataRun rest st₂ data st₃ →
      DataRun ((pred, .tuple es) :: rest) st ((predId, exprIds) :: data) st₃
end

theorem bind_ok {ε α β : Type} {x : Except ε α} {f : α → Except ε β} {b : β} :
    (x >>= f) = .ok b ↔ ∃ a, x = .ok a ∧ f a = .ok b := by
  cases x <;> simp [bind, Except.bind]

theorem cached_ok {t : Tag} {st st' : State} {f : State → Except Raised (Nat × State)} {id : Nat}
    (h : cached t st f = .ok (id, st')) :
    (st.ids t.ref = some id ∧ st' = st) ∨ (st.ids t.ref = none ∧ f st = .ok (id, st')) := by
  unfold cached at h
  cases known : st.ids t.ref with
  | none => exact .inr ⟨rfl, by simpa [known] using h⟩
  | some id' =>
    simp only [known, Except.ok.injEq, Prod.mk.injEq] at h
    exact .inl ⟨by rw [h.1], h.2.symm⟩

theorem cachedTuple_ok {t : Tag} {st st' : State} {f : State → Except Raised (List Nat × State)}
    {ids : List Nat} (h : cachedTuple t st f = .ok (ids, st')) :
    (st.tuples t.ref = some ids ∧ st' = st) ∨ (st.tuples t.ref = none ∧
      ∃ mid, f st = .ok (ids, mid) ∧ st' = mid.putTuple t.ref ids) := by
  unfold cachedTuple at h
  cases known : st.tuples t.ref with
  | none =>
    simp only [known, bind_ok, Prod.exists, Except.ok.injEq, Prod.mk.injEq] at h
    obtain ⟨_, mid, ran, rfl, rfl⟩ := h
    exact .inr ⟨rfl, mid, ran, rfl⟩
  | some ids' =>
    simp only [known, Except.ok.injEq, Prod.mk.injEq] at h
    exact .inl ⟨by rw [h.1], h.2.symm⟩

theorem lowerIsolated_ok {st st' : State} {fn : SubGraph}
    {outputs : State → Except Raised (List OutputSpec × State)}
    (h : lowerIsolated outputs st = .ok (fn, st')) : ∃ specs sub,
      outputs (.start st.blobs st.blobCount) = .ok (specs, sub) ∧ fn = sub.graph specs ∧
        st' = st.adopt sub := by
  simp only [lowerIsolated, bind_ok, Prod.exists, Except.ok.injEq, Prod.mk.injEq] at h
  obtain ⟨specs, sub, ran, rfl, rfl⟩ := h
  exact ⟨specs, sub, ran, rfl, rfl⟩

theorem lowerBlock_ok {st st' : State} {ids : List Nat}
    {inputs outputs : State → Except Raised (List Nat × State)}
    (h : lowerBlock inputs outputs st = .ok (ids, st')) : ∃ inputIds st₁ st₂,
      inputs st = .ok (inputIds, st₁) ∧ outputs (st₁.bind (some inputIds)) = .ok (ids, st₂) ∧
        st' = st₂.bind st₁.paramBind := by
  simp only [lowerBlock, bind_ok, Prod.exists, Except.ok.injEq, Prod.mk.injEq] at h
  obtain ⟨inputIds, st₁, first, _, st₂, second, rfl, rfl⟩ := h
  exact ⟨inputIds, st₁, st₂, first, second, rfl⟩

theorem addWhile_ok {st st' : State} {initIds ids : List Nat} {cond body : SubGraph}
    {exprs : List Expr} (h : addWhile st initIds cond body exprs = .ok (ids, st')) :
    exprs ≠ [] ∧ ids = (whileOutputs st.counter exprs).map (·.id) ∧
      st' = st.addLoop initIds cond body exprs := by
  cases exprs with
  | nil => simp [addWhile] at h
  | cons e rest =>
    simp only [addWhile, List.isEmpty_cons, Bool.false_eq_true, if_false, Except.ok.injEq,
      Prod.mk.injEq] at h
    exact ⟨by simp, h.1.symm, h.2.symm⟩

theorem classify_ok {e : Expr} {found : Option Number} (h : classifyStart e = .ok found) :
    isStatic e = found.isSome := by
  simp only [isStatic, h]
  cases found <;> rfl

theorem runtimeStarts_cons (e : Expr) (rest : List Expr) : runtimeStarts (e :: rest) =
    if isStatic e then runtimeStarts rest else e.strip :: runtimeStarts rest := by
  unfold runtimeStarts
  cases static : isStatic e <;> simp [static]

theorem isTuple_iff {e : Expr} : e.isTuple = true ↔ ∃ es, e = .tuple es := by
  cases e <;> simp [Expr.isTuple]

theorem lower_block {bare : Bool} {t : Tag} {inputs : List Expr} {default : Expr} {st : State}
    (kind : default.isTuple = false) : lower bare (.block t inputs default) st =
      (cached t st fun st => do
        let (ids, st) ← lowerBlock (fun st => lowerChildren inputs st) (fun st => do
          let (id, st) ← lower false default st
          .ok ([id], st)) st
        match ids.head? with
        | none => .error .argumentError
        | some id => .ok (id, st.put t.ref id)) := by
  cases default with
  | tuple es => cases kind
  | _ => exact (lower.eq_def bare (.block t inputs _) st).trans rfl

theorem lowerTuple_block {t : Tag} {inputs : List Expr} {default : Expr} {st : State}
    {r : List Nat × State} (kind : default.isTuple = false) :
    lowerTuple (.block t inputs default) st ≠ .ok r := by
  cases default with
  | tuple es => cases kind
  | _ => simp [lowerTuple]

theorem lowerTuple_cond {t : Tag} {clauses : List (Expr × Expr)} {default : Expr} {st : State}
    {r : List Nat × State} (kind : default.isTuple = false) :
    lowerTuple (.cond t clauses default) st ≠ .ok r := by
  cases default with
  | tuple es => cases kind
  | _ => simp [lowerTuple]

theorem lowerTupleClauses_cons {pred expr : Expr} {rest : List (Expr × Expr)} {st : State}
    {r : List (Nat × List Nat) × State} (kind : expr.isTuple = false) :
    lowerTupleClauses ((pred, expr) :: rest) st ≠ .ok r := by
  cases expr with
  | tuple es => cases kind
  | _ => simp [lowerTupleClauses]

theorem tupleRun_tuple {es : List Expr} {st st' : State} {ids : List Nat} :
    TupleRun (.tuple es) st ids st' ↔ ListRun es st ids st' :=
  ⟨fun | .tuple run => run, .tuple⟩

theorem bare_run {bare : Bool} {e : Expr} {st st' : State} {id : Nat} (plain : e.strip = e)
    (run : Run e st id st') : Run (if bare then e.strip else e) st id st' := by
  rwa [plain, ite_self]

theorem cached_run {e : Expr} {st st' : State} {id : Nat} {f : State → Except Raised (Nat × State)}
    (kind : e.isTuple = false) (h : cached e.tag st f = .ok (id, st'))
    (fresh : st.ids e.tag.ref = none → f st = .ok (id, st') → Run e st id st') : Run e st id st' := by
  rcases cached_ok h with ⟨known, rfl⟩ | ⟨new, h⟩
  · exact .hit kind known
  · exact fresh new h

theorem parameter_run {t : Tag} {pos : Nat} {st st' : State} {id : Nat} (new : st.ids t.ref = none)
    (h : lowerParameter t pos st = .ok (id, st')) : Run (.parameter t pos) st id st' := by
  unfold lowerParameter at h
  split at h
  · rename_i found
    cases h
    exact .bound new found
  · rename_i found
    cases h
    exact .input new found

/-- The function of a reduction is lowered last, in an id space of its own. -/
theorem fold_run {e a acc body : Expr} {op : FoldOp} {st st₁ st₂ st₃ : State} {aId accId : Nat}
    {fn : SubGraph} (new : st.ids e.tag.ref = none) (fold : e.fold = some (a, acc, op, body))
    (first : Run a st aId st₁) (second : Run acc st₁ accId st₂)
    (sub : lowerIsolated (fun st => do
      let (id, st) ← lower false body st
      .ok ([outputSpec body id], st)) st₂ = .ok (fn, st₃))
    (inner : ∀ {st st' : State} {id : Nat}, lower false body st = .ok (id, st') → Run body st id st') :
    Run e st st₃.counter (st₃.addFold e.tag op fn [aId, accId]).2 := by
  obtain ⟨_, _, ran, rfl, rfl⟩ := lowerIsolated_ok sub
  simp only [bind_ok, Prod.exists, Except.ok.injEq, Prod.mk.injEq] at ran
  obtain ⟨bodyId, _, folded, rfl, rfl⟩ := ran
  exact .fold new fold (.cons first (.cons second .nil)) (.mk (.cons (inner folded) .nil))

section
variable {t : Tag} {inputs : List Expr} {st st' : State} {id : Nat}
  (ins : ∀ {st st' : State} {ids : List Nat}, lowerChildren inputs st = .ok (ids, st') →
    ListRun inputs st ids st')
include ins

theorem block_run {bare : Bool} {default : Expr} (kind : default.isTuple = false)
    (inner : ∀ {st st' : State} {id : Nat}, lower false default st = .ok (id, st') →
      Run default st id st')
    (h : lower bare (.block t inputs default) st = .ok (id, st')) :
    Run (.block t inputs default) st id st' := by
  rw [lower_block kind] at h
  refine cached_run rfl h fun new h => ?_
  simp only [bind_ok, Prod.exists] at h
  obtain ⟨ids, mid, first, h⟩ := h
  obtain ⟨inputIds, st₁, st₂, ran, out, rfl⟩ := lowerBlock_ok first
  simp only [bind_ok, Prod.exists, Except.ok.injEq, Prod.mk.injEq] at out
  obtain ⟨rootId, _, out, rfl, rfl⟩ := out
  cases h
  exact .block new kind (ins ran) (inner out)

theorem tupleBlock_run {outputs : List Expr} {ids : List Nat}
    (outs : ∀ {st st' : State} {ids : List Nat}, lowerChildren outputs st = .ok (ids, st') →
      ListRun outputs st ids st')
    (h : cachedTuple t st (lowerBlock (fun st => lowerChildren inputs st)
      (fun st => lowerChildren outputs st)) = .ok (ids, st')) :
    TupleRun (.block t inputs (.tuple outputs)) st ids st' := by
  rcases cachedTuple_ok h with ⟨known, rfl⟩ | ⟨missing, mid, ran, rfl⟩
  · exact .hitBlock known
  · obtain ⟨inputIds, st₁, st₂, first, second, rfl⟩ := lowerBlock_ok ran
    exact .block missing (ins first) (outs second)

/-- Where a tensor is asked for, a block of a tuple is its first element. -/
theorem first_run {bare : Bool} {outputs : List Expr}
    (outs : ∀ {st st' : State} {ids : List Nat}, lowerChildren outputs st = .ok (ids, st') →
      ListRun outputs st ids st')
    (h : lower bare (.block t inputs (.tuple outputs)) st = .ok (id, st')) :
    Run (.block t inputs (.tuple outputs)) st id st' := by
  simp only [lower] at h
  refine cached_run rfl h fun new h => ?_
  simp only [bind_ok, Prod.exists] at h
  obtain ⟨ids, mid, first, h⟩ := h
  cases ids with
  | nil => cases h
  | cons head ids =>
    cases h
    exact .first new (tupleBlock_run ins outs first)
end

mutual
theorem lower_run : ∀ (bare : Bool) (e : Expr) {st st' : State} {id : Nat},
    lower bare e st = .ok (id, st') → Run (if bare then e.strip else e) st id st'
  | bare, .parameter t pos, st, st', id, h => by
    simp only [lower] at h
    exact bare_run rfl (cached_run rfl h parameter_run)
  | bare, .constant t number, st, st', id, h => by
    simp only [lower] at h
    refine bare_run rfl (cached_run rfl h fun new h => ?_)
    cases h
    exact .constant new
  | bare, .tensor t literal, st, st', id, h => by
    simp only [lower] at h
    refine bare_run rfl (cached_run rfl h fun new h => ?_)
    cases h
    exact .tensor new
  | true, .metadata t inner, st, st', id, h => by
    simp only [lower] at h
    exact lower_run true inner h
  | false, .metadata t inner, st, st', id, h => by
    simp only [lower] at h
    refine cached_run (e := .metadata t inner) rfl h fun new h => ?_
    simp only [bind_ok, Prod.exists, Except.ok.injEq, Prod.mk.injEq] at h
    obtain ⟨_, mid, first, rfl, rfl⟩ := h
    exact .metadata new (lower_run false inner first)
  | bare, .tuple es, st, st', id, h => by simp [lower] at h
  | bare, .elem t src index, st, st', id, h => by
    simp only [lower] at h
    refine bare_run rfl (cached_run rfl h fun new h => ?_)
    simp only [bind_ok, Prod.exists] at h
    obtain ⟨ids, mid, first, h⟩ := h
    split at h
    · cases h
    · rename_i at_index
      cases h
      exact .elem new (lowerTuple_run src first) at_index
  | bare, .block t inputs default, st, st', id, h => by
    refine bare_run rfl ?_
    have tensor := @lower_run false default
    have tuple := @lowerTuple_run default
    cases kind : default.isTuple with
    | false => exact block_run (lowerChildren_run inputs) kind tensor h
    | true =>
      obtain ⟨outputs, rfl⟩ := isTuple_iff.mp kind
      exact first_run (lowerChildren_run inputs)
        (fun outs => tupleRun_tuple.mp (tuple (by simpa only [lowerTuple] using outs))) h
  | bare, .cond t clauses default, st, st', id, h => by
    simp only [lower] at h
    refine bare_run rfl (cached_run rfl h fun new h => ?_)
    simp only [bind_ok, Prod.exists, Except.ok.injEq, Prod.mk.injEq] at h
    obtain ⟨defaultId, st₁, first, _, st₂, second, rfl, rfl⟩ := h
    exact .cond new (lower_run false default first) (lowerClauses_run t clauses second)
  | bare, .loop t init test body, st, st', id, h => by
    simp only [lower] at h
    refine bare_run rfl (cached_run rfl h fun _ h => ?_)
    cases h
  | bare, .op t op args, st, st', id, h => by
    simp only [lower] at h
    refine bare_run rfl (cached_run rfl h fun new h => ?_)
    split at h
    · rename_i arity
      simp only [bind_ok, Prod.exists] at h
      obtain ⟨ids, mid, first, h⟩ := h
      cases h
      exact .plain new (by simp [Expr.plan, arity]) (lowerChildren_run args first)
    · cases h
  | bare, .reduce t a acc axes keepAxes body, st, st', id, h => by
    simp only [lower] at h
    refine bare_run rfl (cached_run rfl h fun new h => ?_)
    simp only [bind_ok, Prod.exists] at h
    obtain ⟨aId, st₁, first, accId, st₂, second, fn, st₃, sub, h⟩ := h
    cases h
    exact fold_run new rfl (lower_run false a first) (lower_run false acc second) sub (lower_run false body)
  | bare, .windowReduce t a acc window strides padding dilations body, st, st', id, h => by
    simp only [lower] at h
    refine bare_run rfl (cached_run rfl h fun new h => ?_)
    simp only [bind_ok, Prod.exists] at h
    obtain ⟨aId, st₁, first, accId, st₂, second, fn, st₃, sub, h⟩ := h
    cases h
    exact fold_run new rfl (lower_run false a first) (lower_run false acc second) sub (lower_run false body)
  | bare, .slice t a starts lengths strides, st, st', id, h => by
    simp only [lower] at h
    refine bare_run rfl (cached_run rfl h fun new h => ?_)
    simp only [bind_ok, Prod.exists] at h
    obtain ⟨aId, st₁, first, dynIds, st₂, second, h⟩ := h
    cases h
    exact .plain new rfl (.cons (lower_run false a first) (lowerDynamic_run starts second))
  | bare, .putSlice t a starts part, st, st', id, h => by
    simp only [lower] at h
    refine bare_run rfl (cached_run rfl h fun new h => ?_)
    simp only [bind_ok, Prod.exists] at h
    obtain ⟨aId, st₁, first, partId, st₂, second, specs, found, dynIds, st₃, third, h⟩ := h
    cases h
    exact .plain new (by simp [Expr.plan, found]) (.cons (lower_run false a first)
      (.cons (lower_run false part second) (lowerStarts_run starts third)))
  | bare, .pad t a value config, st, st', id, h => by
    simp only [lower] at h
    refine bare_run rfl (cached_run rfl h fun new h => ?_)
    simp only [bind_ok, Prod.exists] at h
    obtain ⟨aId, st₁, first, number, found, h⟩ := h
    cases h
    exact .plain new (by simp [Expr.plan, found]) (.cons (lower_run false a first) .nil)
  | bare, .windowScatter t op a source init window strides padding, st, st', id, h => by
    simp only [lower] at h
    refine bare_run rfl (cached_run rfl h fun new h => ?_)
    simp only [bind_ok, Prod.exists] at h
    obtain ⟨aId, st₁, first, sourceId, st₂, second, number, found, h⟩ := h
    cases h
    exact .plain new (by simp [Expr.plan, found])
      (.cons (lower_run false a first) (.cons (lower_run false source second) .nil))
  | bare, .other t name, st, st', id, h => by
    simp only [lower] at h
    refine bare_run rfl (cached_run rfl h fun _ h => ?_)
    cases h

theorem lowerTuple_run : ∀ (e : Expr) {st st' : State} {ids : List Nat},
    lowerTuple e st = .ok (ids, st') → TupleRun e st ids st'
  | .tuple es, st, st', ids, h => by
    simp only [lowerTuple] at h
    exact .tuple (lowerChildren_run es h)
  | .metadata t inner, st, st', ids, h => by
    simp only [lowerTuple] at h
    exact .metadata (lowerTuple_run inner h)
  | .block t inputs default, st, st', ids, h => by
    have tuple := @lowerTuple_run default
    cases kind : default.isTuple with
    | false => exact absurd h (lowerTuple_block kind)
    | true =>
      obtain ⟨outputs, rfl⟩ := isTuple_iff.mp kind
      simp only [lowerTuple] at h
      exact tupleBlock_run (lowerChildren_run inputs)
        (fun outs => tupleRun_tuple.mp (tuple (by simpa only [lowerTuple] using outs))) h
  | .loop t init test body, st, st', ids, h => by
    simp only [lowerTuple] at h
    rcases cachedTuple_ok h with ⟨known, rfl⟩ | ⟨missing, mid, ran, rfl⟩
    · exact .hitLoop known
    · simp only [bind_ok, Prod.exists] at ran
      obtain ⟨initIds, st₁, first, condSub, st₂, cond, bodySub, st₃, sub, added⟩ := ran
      obtain ⟨some, rfl, rfl⟩ := addWhile_ok added
      obtain ⟨_, inner, ran, rfl, rfl⟩ := lowerIsolated_ok cond
      simp only [bind_ok, Prod.exists, Except.ok.injEq, Prod.mk.injEq] at ran
      obtain ⟨condId, _, tested, rfl, rfl⟩ := ran
      obtain ⟨_, inner', outs, rfl, rfl⟩ := lowerIsolated_ok sub
      obtain ⟨bodyIds, stepped, rfl⟩ := lowerOutputs_run body outs
      exact .loop missing (lowerChildren_run init first)
        (.mk (.cons (lower_run false test tested) .nil)) (.mk stepped) some
  | .cond t clauses default, st, st', ids, h => by
    have tuple := @lowerTuple_run default
    cases kind : default.isTuple with
    | false => exact absurd h (lowerTuple_cond kind)
    | true =>
      obtain ⟨elems, rfl⟩ := isTuple_iff.mp kind
      simp only [lowerTuple, bind_ok, Prod.exists] at h
      obtain ⟨defaultIds, st₁, first, data, st₂, second, chains⟩ := h
      exact .cond (tupleRun_tuple.mp (tuple (by simpa only [lowerTuple] using first)))
        (lowerTupleClauses_run clauses second) chains
  | .parameter _ _, _, _, _, h | .constant _ _, _, _, _, h | .tensor _ _, _, _, _, h
  | .elem _ _ _, _, _, _, h | .op _ _ _, _, _, _, h | .reduce _ _ _ _ _ _, _, _, _, h
  | .windowReduce _ _ _ _ _ _ _ _, _, _, _, h | .slice _ _ _ _ _, _, _, _, h
  | .putSlice _ _ _ _, _, _, _, h | .pad _ _ _ _, _, _, _, h
  | .windowScatter _ _ _ _ _ _ _ _, _, _, _, h | .other _ _, _, _, _, h => by
    simp [lowerTuple] at h

theorem lowerChildren_run : ∀ (es : List Expr) {st st' : State} {ids : List Nat},
    lowerChildren es st = .ok (ids, st') → ListRun es st ids st'
  | [], st, st', ids, h => by
    simp only [lowerChildren, Except.ok.injEq, Prod.mk.injEq] at h
    obtain ⟨rfl, rfl⟩ := h
    exact .nil
  | e :: rest, st, st', ids, h => by
    simp only [lowerChildren, bind_ok, Prod.exists, Except.ok.injEq, Prod.mk.injEq] at h
    obtain ⟨id, st₁, first, restIds, st₂, second, rfl, rfl⟩ := h
    exact .cons (lower_run false e first) (lowerChildren_run rest second)

theorem lowerOutputs_run : ∀ (roots : List Expr) {st st' : State} {specs : List OutputSpec},
    lowerOutputs roots st = .ok (specs, st') →
      ∃ ids, ListRun roots st ids st' ∧ specs = outputSpecs roots ids
  | [], st, st', specs, h => by
    simp only [lowerOutputs, Except.ok.injEq, Prod.mk.injEq] at h
    obtain ⟨rfl, rfl⟩ := h
    exact ⟨[], .nil, rfl⟩
  | e :: rest, st, st', specs, h => by
    simp only [lowerOutputs, bind_ok, Prod.exists, Except.ok.injEq, Prod.mk.injEq] at h
    obtain ⟨id, st₁, first, restSpecs, st₂, second, rfl, rfl⟩ := h
    obtain ⟨ids, ran, rfl⟩ := lowerOutputs_run rest second
    exact ⟨id :: ids, .cons (lower_run false e first) ran, rfl⟩

theorem lowerClauses_run (t : Tag) : ∀ (clauses : List (Expr × Expr)) {defaultId : Nat}
    {st st' : State} {id : Nat}, lowerClauses t clauses defaultId st = .ok (id, st') →
      ClauseRun t clauses defaultId st id st'
  | [], defaultId, st, st', id, h => by
    simp only [lowerClauses, Except.ok.injEq, Prod.mk.injEq] at h
    obtain ⟨rfl, rfl⟩ := h
    exact .nil
  | (pred, expr) :: rest, defaultId, st, st', id, h => by
    simp only [lowerClauses, bind_ok, Prod.exists] at h
    obtain ⟨elseId, st₁, first, predId, st₂, second, exprId, st₃, third, h⟩ := h
    cases h
    exact .cons (lowerClauses_run t rest first) (lower_run false pred second)
      (lower_run false expr third)

theorem lowerTupleClauses_run : ∀ (clauses : List (Expr × Expr)) {st st' : State}
    {data : List (Nat × List Nat)}, lowerTupleClauses clauses st = .ok (data, st') →
      DataRun clauses st data st'
  | [], st, st', data, h => by
    simp only [lowerTupleClauses, Except.ok.injEq, Prod.mk.injEq] at h
    obtain ⟨rfl, rfl⟩ := h
    exact .nil
  | (pred, expr) :: rest, st, st', data, h => by
    have tuple := @lowerTuple_run expr
    cases kind : expr.isTuple with
    | false => exact absurd h (lowerTupleClauses_cons kind)
    | true =>
      obtain ⟨es, rfl⟩ := isTuple_iff.mp kind
      simp only [lowerTupleClauses, bind_ok, Prod.exists, Except.ok.injEq, Prod.mk.injEq] at h
      obtain ⟨predId, st₁, first, exprIds, st₂, second, restData, st₃, third, rfl, rfl⟩ := h
      exact .cons (lower_run false pred first)
        (tupleRun_tuple.mp (tuple (by simpa only [lowerTuple] using second)))
        (lowerTupleClauses_run rest third)

theorem lowerDynamic_run : ∀ (starts : List (Int ⊕ Expr)) {st st' : State} {ids : List Nat},
    lowerDynamic starts st = .ok (ids, st') → ListRun (dynamicStarts starts) st ids st'
  | [], st, st', ids, h => by
    simp only [lowerDynamic, Except.ok.injEq, Prod.mk.injEq] at h
    obtain ⟨rfl, rfl⟩ := h
    exact .nil
  | .inl n :: rest, st, st', ids, h => by
    simp only [lowerDynamic] at h
    exact lowerDynamic_run rest h
  | .inr e :: rest, st, st', ids, h => by
    simp only [lowerDynamic, bind_ok, Prod.exists, Except.ok.injEq, Prod.mk.injEq] at h
    obtain ⟨id, st₁, first, restIds, st₂, second, rfl, rfl⟩ := h
    exact .cons (lower_run false e first) (lowerDynamic_run rest second)

theorem lowerStarts_run : ∀ (starts : List Expr) {st st' : State} {ids : List Nat},
    lowerStarts starts st = .ok (ids, st') → ListRun (runtimeStarts starts) st ids st'
  | [], st, st', ids, h => by
    simp only [lowerStarts, Except.ok.injEq, Prod.mk.injEq] at h
    obtain ⟨rfl, rfl⟩ := h
    exact .nil
  | e :: rest, st, st', ids, h => by
    simp only [lowerStarts, bind_ok] at h
    obtain ⟨found, classified, h⟩ := h
    rw [runtimeStarts_cons, classify_ok classified]
    cases found with
    | some number => exact lowerStarts_run rest h
    | none =>
      simp only [bind_ok, Prod.exists, Except.ok.injEq, Prod.mk.injEq] at h
      obtain ⟨id, st₁, first, restIds, st₂, second, rfl, rfl⟩ := h
      exact .cons (lower_run true e first) (lowerStarts_run rest second)
end

theorem toGraph_run {outputs : List Expr} {g : Graph} (h : toGraph outputs = .ok g) :
    ∃ ids st, ListRun outputs (.start [] 0) ids st ∧
      g = ⟨st.inputs.reverse, st.constants.reverse, st.nodes.reverse, outputSpecs outputs ids,
        st.blobs.reverse⟩ := by
  simp only [toGraph, bind_ok, Prod.exists, Except.ok.injEq] at h
  obtain ⟨specs, st, ran, rfl⟩ := h
  obtain ⟨ids, run, rfl⟩ := lowerOutputs_run outputs ran
  exact ⟨ids, st, run, rfl⟩

theorem strip_of {P : Expr → Prop} (inner : ∀ t e, P (.metadata t e) → P e) {e : Expr} (h : P e) :
    P e.strip := by
  induction e using Expr.strip.induct with
  | case1 t e ih => exact ih (inner t e h)
  | case2 e plain =>
    cases e with
    | metadata t e => exact absurd rfl (plain t e)
    | _ => exact h

def nextIds (c k : Nat) : List Nat := (List.range k).map (c + ·)

theorem fill_next {ids new : List Nat} {c k : Nat} (fill : ids.Perm (List.range c))
    (next : new.Perm (nextIds c k)) : (new ++ ids).Perm (List.range (c + k)) := by
  rw [List.range_add]
  exact (List.perm_append_comm.trans (fill.append next))

theorem mem_nextIds {c k id : Nat} : id ∈ nextIds c k ↔ c ≤ id ∧ id < c + k := by
  simp only [nextIds, List.mem_map, List.mem_range]
  constructor
  · rintro ⟨i, small, rfl⟩
    omega
  · rintro ⟨low, high⟩
    exact ⟨id - c, by omega, by omega⟩

theorem whileOutputs_ids (c : Nat) (exprs : List Expr) :
    (whileOutputs c exprs).map (·.id) = nextIds c exprs.length := by
  induction exprs generalizing c with
  | nil => rfl
  | cons e rest ih =>
    simp only [whileOutputs, List.map_cons, ih, nextIds, List.length_cons, List.range_succ_eq_map,
      List.map_map, Nat.add_zero]
    congr 1
    exact List.map_congr_left fun i _ => by simp; omega

def State.defined (st : State) : List Nat :=
  st.inputs.map (·.id) ++ (st.constants.map (·.id) ++ st.nodes.flatMap Node.definedIds)

def State.Filled (st : State) : Prop := st.defined.Perm (List.range st.counter)

theorem filled_next {st st' : State} {k : Nat} (fill : st.Filled)
    (more : st'.defined.Perm (nextIds st.counter k ++ st.defined)) (counter : st'.counter = st.counter + k) :
    st'.Filled := by
  unfold State.Filled
  rw [counter]
  exact more.trans (fill_next fill (List.Perm.refl _))

theorem filled_emit {st st' : State} {n : Node} {k : Nat} (fill : st.Filled)
    (inputs : st'.inputs = st.inputs) (constants : st'.constants = st.constants)
    (nodes : st'.nodes = n :: st.nodes) (counter : st'.counter = st.counter + k)
    (ids : n.definedIds = nextIds st.counter k) : st'.Filled := by
  refine filled_next fill ?_ counter
  rw [State.defined, State.defined, inputs, constants, nodes, List.flatMap_cons, ids]
  exact ((List.perm_append_comm_assoc _ _ _).append_left _).trans (List.perm_append_comm_assoc _ _ _)

structure Grows (st st' : State) : Prop where
  inputs : st.inputs <:+ st'.inputs
  constants : st.constants <:+ st'.constants
  nodes : st.nodes <:+ st'.nodes
  blobs : st.blobs <:+ st'.blobs
  counter : st.counter ≤ st'.counter
  paramBind : st'.paramBind = st.paramBind
  count : st.blobCount = st.blobs.length → st'.blobCount = st'.blobs.length
  fill : st.Filled → st'.Filled

namespace Grows

theorem refl (st : State) : Grows st st where
  inputs := List.suffix_refl _
  constants := List.suffix_refl _
  nodes := List.suffix_refl _
  blobs := List.suffix_refl _
  counter := Nat.le_refl _
  paramBind := rfl
  count := id
  fill := id

theorem trans {a b c : State} (first : Grows a b) (second : Grows b c) : Grows a c where
  inputs := first.inputs.trans second.inputs
  constants := first.constants.trans second.constants
  nodes := first.nodes.trans second.nodes
  blobs := first.blobs.trans second.blobs
  counter := Nat.le_trans first.counter second.counter
  paramBind := second.paramBind.trans first.paramBind
  count := second.count ∘ first.count
  fill := second.fill ∘ first.fill

theorem put (st : State) (ref : Ref) (id : Nat) : Grows st (st.put ref id) :=
  { refl st with }

theorem putTuple (st : State) (ref : Ref) (ids : List Nat) : Grows st (st.putTuple ref ids) :=
  { refl st with }

theorem addInput (st : State) (t : Tag) (pos : Nat) : Grows st (st.addInput t pos) :=
  { refl st with
    inputs := List.suffix_cons ..
    counter := Nat.le_succ _
    fill := fun fill => filled_next (k := 1) fill (List.Perm.refl _) rfl }

theorem addConstant (st : State) (t : Tag) (body : ConstBody) : Grows st (st.addConstant t body) :=
  { refl st with
    constants := List.suffix_cons ..
    counter := Nat.le_succ _
    fill := fun fill => filled_next (k := 1) fill List.perm_middle rfl }

theorem addBlob (st : State) (blob : Blob) : Grows st (st.addBlob blob) :=
  { refl st with blobs := List.suffix_cons .., count := congrArg Nat.succ }

theorem addNode (st : State) (t : Tag) (op : NodeOp) (inputs : List Nat) :
    Grows st (st.addNode t op inputs).2 :=
  { refl st with
    nodes := List.suffix_cons ..
    counter := Nat.le_succ _
    fill := fun fill => filled_emit (k := 1) fill rfl rfl rfl rfl rfl }

theorem addFold (st : State) (t : Tag) (op : FoldOp) (fn : SubGraph) (inputs : List Nat) :
    Grows st (st.addFold t op fn inputs).2 :=
  { refl st with
    nodes := List.suffix_cons ..
    counter := Nat.le_succ _
    fill := fun fill => filled_emit (k := 1) fill rfl rfl rfl rfl rfl }

theorem addRawNode (st : State) (op : NodeOp) (inputs shape : List Nat) (dtype : Dtype) :
    Grows st (st.addRawNode op inputs shape dtype).2 :=
  { refl st with
    nodes := List.suffix_cons ..
    counter := Nat.le_succ _
    fill := fun fill => filled_emit (k := 1) fill rfl rfl rfl rfl rfl }

theorem addLoop (st : State) (initIds : List Nat) (cond body : SubGraph) (exprs : List Expr) :
    Grows st (st.addLoop initIds cond body exprs) :=
  { refl st with
    nodes := List.suffix_cons ..
    counter := Nat.le_add_right _ _
    fill := fun fill => filled_emit fill rfl rfl rfl rfl (whileOutputs_ids _ _) }

theorem bind {a b : State} {bound : Option (List Nat)} (inner : Grows (a.bind bound) b) :
    Grows a (b.bind a.paramBind) :=
  { inner with paramBind := rfl }

end Grows

theorem selectChain_grows {t : Tag} {i : Nat} : ∀ {clauses : List (Nat × List Nat)}
    {elseId : Nat} {st st' : State} {id : Nat},
    selectChain t i clauses elseId st = .ok (id, st') → Grows st st'
  | [], elseId, st, st', id, h => by
    cases h
    exact .refl _
  | (predId, exprIds) :: rest, elseId, st, st', id, h => by
    simp only [selectChain, bind_ok, Prod.exists] at h
    obtain ⟨_, mid, first, h⟩ := h
    split at h
    · cases h
    · cases h
      exact (selectChain_grows first).trans (.addRawNode ..)

theorem selectChains_grows {clauses : List (Nat × List Nat)} : ∀ {i : Nat}
    {elems : List (Expr × Nat)} {st st' : State} {ids : List Nat},
    selectChains clauses i elems st = .ok (ids, st') → Grows st st'
  | _, [], st, st', ids, h => by
    cases h
    exact .refl _
  | i, (e, defaultId) :: rest, st, st', ids, h => by
    simp only [selectChains, bind_ok, Prod.exists, Except.ok.injEq, Prod.mk.injEq] at h
    obtain ⟨id, mid, first, restIds, st₂, second, rfl, rfl⟩ := h
    exact (selectChain_grows first).trans (selectChains_grows second)

mutual
theorem Run.grows : ∀ {e : Expr} {st st' : State} {id : Nat}, Run e st id st' → Grows st st'
  | _, _, _, _, .hit _ _ => .refl _
  | _, _, _, _, .bound _ _ => .put ..
  | _, _, _, _, .input _ _ => .addInput ..
  | _, _, _, _, .constant _ => .addConstant ..
  | _, _, _, _, .tensor _ => (Grows.addConstant ..).trans (.addBlob ..)
  | _, _, _, _, .metadata _ inner => inner.grows.trans (.put ..)
  | _, _, _, _, .elem _ src _ => src.grows.trans (.put ..)
  | _, _, _, _, .block _ _ inputs default =>
      (inputs.grows.trans (Grows.bind default.grows)).trans (.put ..)
  | _, _, _, _, .first _ tuple => tuple.grows
  | _, _, _, _, .cond _ default clauses => (default.grows.trans clauses.grows).trans (.put ..)
  | _, _, _, _, .plain _ _ args => args.grows.trans (.addNode ..)
  | _, _, _, _, .fold _ _ args fn => (args.grows.trans fn.grows).trans (.addFold ..)

theorem TupleRun.grows : ∀ {e : Expr} {st st' : State} {ids : List Nat},
    TupleRun e st ids st' → Grows st st'
  | _, _, _, _, .tuple es => es.grows
  | _, _, _, _, .metadata inner => inner.grows
  | _, _, _, _, .hitBlock _ => .refl _
  | _, _, _, _, .hitLoop _ => .refl _
  | _, _, _, _, .block _ inputs outputs =>
      (inputs.grows.trans (Grows.bind outputs.grows)).trans (.putTuple ..)
  | _, _, _, _, .loop _ init cond body _ =>
      (((init.grows.trans cond.grows).trans body.grows).trans (.addLoop ..)).trans (.putTuple ..)
  | _, _, _, _, .cond elems data chains =>
      (elems.grows.trans data.grows).trans (selectChains_grows chains)

theorem ListRun.grows : ∀ {es : List Expr} {st st' : State} {ids : List Nat},
    ListRun es st ids st' → Grows st st'
  | _, _, _, _, .nil => .refl _
  | _, _, _, _, .cons first rest => first.grows.trans rest.grows

theorem SubRun.grows : ∀ {roots : List Expr} {st st' : State} {sub : SubGraph},
    SubRun roots st sub st' → Grows st st'
  | _, _, _, _, .mk run => { Grows.refl _ with blobs := run.grows.blobs, count := run.grows.count }

theorem ClauseRun.grows : ∀ {t : Tag} {clauses : List (Expr × Expr)} {defaultId id : Nat}
    {st st' : State}, ClauseRun t clauses defaultId st id st' → Grows st st'
  | _, _, _, _, _, _, .nil => .refl _
  | _, _, _, _, _, _, .cons rest pred expr =>
      ((rest.grows.trans pred.grows).trans expr.grows).trans (.addRawNode ..)

theorem DataRun.grows : ∀ {clauses : List (Expr × Expr)} {st st' : State}
    {data : List (Nat × List Nat)}, DataRun clauses st data st' → Grows st st'
  | _, _, _, _, .nil => .refl _
  | _, _, _, _, .cons pred es rest => (pred.grows.trans es.grows).trans rest.grows
end

end NxTinygrad.Lowering
