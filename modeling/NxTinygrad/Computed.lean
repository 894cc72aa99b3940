import NxTinygrad.Simulation

/- What every id of a graph computes: the traversal of the lowering keeps the values of the
   expressions it has met, of those it has cached included. -/
namespace NxTinygrad.Lowering
open IR Interpreter StraightLine

variable {V : Type}

/-- The ids hold these values, as far as there are both. -/
def Holds (E : Env V) (ids : List Nat) (vs : List V) : Prop :=
  ∀ (k id : Nat) (v : V), ids[k]? = some id → vs[k]? = some v → E id = some v

def Held (E : Env V) (ids : List Nat) (vs : List V) : Prop :=
  List.Forall₂ (fun id v => E id = some v) ids vs

section
variable {E E' : Env V} {ids : List Nat} {vs : List V}

theorem Held.mono (held : Held E ids vs) (le : Le E E') : Held E' ids vs :=
  List.Forall₂.imp (fun id v value => le id v value) held

theorem Held.length (held : Held E ids vs) : vs.length = ids.length :=
  (List.Forall₂.length_eq held).symm

theorem Held.holds (held : Held E ids vs) : Holds E ids vs := by
  induction held with
  | nil =>
    intro k id v at_id
    simp at at_id
  | cons here _ ih =>
    intro k id v at_id at_v
    cases k with
    | zero =>
      simp only [List.getElem?_cons_zero, Option.some.injEq] at at_id at_v
      rw [← at_id, ← at_v]
      exact here
    | succ k => exact ih k id v (by simpa using at_id) (by simpa using at_v)

theorem Held.fetched (held : Held E ids vs) : fetch EvalError.missing E ids = .ok vs := by
  rw [fetch_ok_iff]
  induction held with
  | nil => rfl
  | cons here _ ih => simp [here, ih]

theorem Holds.mono (holds : Holds E ids vs) (le : Le E E') : Holds E' ids vs :=
  fun k id v at_id at_v => le id v (holds k id v at_id at_v)

end

section
variable (S : Sem V) (blobs : List Blob) (fuel : Nat) (scopes : Scopes) (params : List V)

variable (K : Strategy V)

structure Cached (st : State) (E : Env V) : Prop where
  known : ∀ ref id, st.ids ref = some id → ∃ s ρ v, EnvOf S K fuel scopes params s ρ ∧
    Scoped scopes s (scopes.table ref) ∧ eval S K fuel ρ (scopes.table ref) = .ok v ∧ E id = some v
  tuples : ∀ ref ids, st.tuples ref = some ids → ∃ s ρ vs, EnvOf S K fuel scopes params s ρ ∧
    Scoped scopes s (scopes.table ref) ∧ evalTuple S K fuel ρ (scopes.table ref) = .ok vs ∧
      Holds E ids vs

structure Here (s : Option Ref) (ρ : Nat → Option V) (st : State) (E : Env V) : Prop where
  env : EnvOf S K fuel scopes params s ρ
  bound : match s with
    | none => st.paramBind = none
    | some _ => ∃ ids args, st.paramBind = some ids ∧ ρ = (fun pos => args[pos]?) ∧ Held E ids args

structure Sim (st : State) (E : Env V) : Prop extends Cached S fuel scopes params (.flow S) st E where
  built : Built S blobs fuel params st.inputs st.constants st.nodes E
  below : ∀ id v, E id = some v → id < st.counter
  count : st.blobCount = st.blobs.length
end

section
variable {S : Sem V} {blobs : List Blob} {fuel : Nat} {scopes : Scopes} {params : List V}
  {K : Strategy V} {s : Option Ref} {ρ : Nat → Option V} {st st' : State} {E E' : Env V}

theorem Here.mono (here : Here S fuel scopes params K s ρ st E) (same : st'.paramBind = st.paramBind)
    (le : Le E E') : Here S fuel scopes params K s ρ st' E' where
  env := here.env
  bound := by
    have bound := here.bound
    cases s with
    | none => exact same.trans bound
    | some b =>
      obtain ⟨ids, args, given, eq, held⟩ := bound
      exact ⟨ids, args, same.trans given, eq, held.mono le⟩

theorem Here.at_bound (here : Here S fuel scopes params K s ρ st E) {pos id : Nat}
    (found : st.bound pos = some id) {v : V} (value : ρ pos = some v) : E id = some v := by
  have bound := here.bound
  cases s with
  | none =>
    dsimp only at bound
    simp [State.bound, bound] at found
  | some b =>
    obtain ⟨ids, args, given, eq, held⟩ := bound
    simp only [State.bound, given, Option.bind_some] at found
    exact held.holds pos id v found (by simpa [eq] using value)

theorem Here.at_input (here : Here S fuel scopes params K s ρ st E) {pos : Nat}
    (missing : st.bound pos = none) {v : V} (value : ρ pos = some v) : params[pos]? = some v := by
  have bound := here.bound
  cases s with
  | none =>
    cases here.env with
    | root => exact value
  | some b =>
    obtain ⟨ids, args, given, eq, held⟩ := bound
    simp only [State.bound, given, Option.bind_some, List.getElem?_eq_none_iff] at missing
    have beyond : args[pos]? = none := List.getElem?_eq_none_iff.mpr (held.length ▸ missing)
    simp [eq, beyond] at value

namespace Cached

theorem start (before : List Blob) (n : Nat) : Cached S fuel scopes params K (.start before n) E where
  known _ _ known := nomatch known
  tuples _ _ known := nomatch known

theorem put (cached : Cached S fuel scopes params K st E) {e : Expr} {id : Nat} {v : V}
    (kind : e.isTuple = false) (env : EnvOf S K fuel scopes params s ρ) (inside : Scoped scopes s e)
    (ran : eval S K fuel ρ e = .ok v) (value : E id = some v) :
    Cached S fuel scopes params K (st.put e.tag.ref id) E where
  tuples := cached.tuples
  known := by
    intro ref id' known
    by_cases same : ref = e.tag.ref
    · subst same
      have eq : id' = id := by simpa [State.put] using known.symm
      rw [inside.table kind, eq]
      exact ⟨s, ρ, v, env, inside, ran, value⟩
    · exact cached.known ref id' (by simpa [State.put, Function.update_of_ne same] using known)

theorem putTuple (cached : Cached S fuel scopes params K st E) {e : Expr} {ids : List Nat}
    {vs : List V} (kind : e.isTuple = false) (env : EnvOf S K fuel scopes params s ρ)
    (inside : Scoped scopes s e) (ran : evalTuple S K fuel ρ e = .ok vs)
    (values : Holds E ids vs) : Cached S fuel scopes params K (st.putTuple e.tag.ref ids) E where
  known := cached.known
  tuples := by
    intro ref ids' known
    by_cases same : ref = e.tag.ref
    · subst same
      have eq : ids' = ids := by simpa [State.putTuple] using known.symm
      rw [inside.table kind, eq]
      exact ⟨s, ρ, vs, env, inside, ran, values⟩
    · exact cached.tuples ref ids' (by simpa [State.putTuple, Function.update_of_ne same] using known)

theorem extend (cached : Cached S fuel scopes params K st E) (le : Le E E') (ids : st'.ids = st.ids)
    (tuples : st'.tuples = st.tuples) : Cached S fuel scopes params K st' E' where
  known := by
    intro ref id known
    obtain ⟨s, ρ, v, env, inside, ran, value⟩ := cached.known ref id (ids ▸ known)
    exact ⟨s, ρ, v, env, inside, ran, le id v value⟩
  tuples := by
    intro ref ids known
    obtain ⟨s, ρ, vs, env, inside, ran, values⟩ := cached.tuples ref ids (tuples ▸ known)
    exact ⟨s, ρ, vs, env, inside, ran, values.mono le⟩

theorem value (cached : Cached S fuel scopes params K st E) {e : Expr} {id : Nat}
    (kind : e.isTuple = false) (env : EnvOf S K fuel scopes params s ρ) (inside : Scoped scopes s e)
    (known : st.ids e.tag.ref = some id) : ∃ v, eval S K fuel ρ e = .ok v ∧ E id = some v := by
  obtain ⟨s', ρ', v, env', inside', ran, value⟩ := cached.known _ _ known
  rw [inside.table kind] at inside' ran
  exact ⟨v, (env.same env' inside inside').1.trans ran, value⟩

theorem values (cached : Cached S fuel scopes params K st E) {e : Expr} {ids : List Nat}
    (kind : e.isTuple = false) (env : EnvOf S K fuel scopes params s ρ) (inside : Scoped scopes s e)
    (known : st.tuples e.tag.ref = some ids) :
    ∃ vs, evalTuple S K fuel ρ e = .ok vs ∧ Holds E ids vs := by
  obtain ⟨s', ρ', vs, env', inside', ran, values⟩ := cached.tuples _ _ known
  rw [inside.table kind] at inside' ran
  exact ⟨vs, (env.same env' inside inside').2.trans ran, values⟩

end Cached

namespace Sim

theorem start {before : List Blob} {n : Nat} (count : n = before.length) :
    Sim S blobs fuel scopes params (.start before n) (fun _ => none) where
  toCached := .start before n
  built := .start
  below _ _ value := nomatch value
  count := count

theorem put (sim : Sim S blobs fuel scopes params st E) {e : Expr} {id : Nat} {v : V}
    (kind : e.isTuple = false) (env : EnvOf S (.flow S) fuel scopes params s ρ)
    (inside : Scoped scopes s e) (ran : eval S (.flow S) fuel ρ e = .ok v) (value : E id = some v) :
    Sim S blobs fuel scopes params (st.put e.tag.ref id) E :=
  { sim with toCached := sim.toCached.put kind env inside ran value }

theorem putTuple (sim : Sim S blobs fuel scopes params st E) {e : Expr} {ids : List Nat}
    {vs : List V} (kind : e.isTuple = false) (env : EnvOf S (.flow S) fuel scopes params s ρ)
    (inside : Scoped scopes s e) (ran : evalTuple S (.flow S) fuel ρ e = .ok vs)
    (values : Holds E ids vs) : Sim S blobs fuel scopes params (st.putTuple e.tag.ref ids) E :=
  { sim with toCached := sim.toCached.putTuple kind env inside ran values }

theorem bind (sim : Sim S blobs fuel scopes params st E) (bound : Option (List Nat)) :
    Sim S blobs fuel scopes params (st.bind bound) E :=
  { sim with }

theorem adopt (sim : Sim S blobs fuel scopes params st E) {sub : State}
    (count : sub.blobCount = sub.blobs.length) : Sim S blobs fuel scopes params (st.adopt sub) E :=
  { sim with count := count }

theorem addBlob (sim : Sim S blobs fuel scopes params st E) (blob : Blob) :
    Sim S blobs fuel scopes params (st.addBlob blob) E :=
  { sim with count := congrArg Nat.succ sim.count }

theorem unset (sim : Sim S blobs fuel scopes params st E) {id : Nat} (new : st.counter ≤ id) :
    E id = none := by
  by_contra set
  obtain ⟨v, value⟩ := Option.ne_none_iff_exists'.mp set
  exact absurd (sim.below id v value) (Nat.not_lt.mpr new)

theorem extend (sim : Sim S blobs fuel scopes params st E) (le : Le E E')
    (built : Built S blobs fuel params st'.inputs st'.constants st'.nodes E')
    (below : ∀ id v, E' id = some v → id < st'.counter) (count : st'.blobCount = st'.blobs.length)
    (ids : st'.ids = st.ids) (tuples : st'.tuples = st.tuples) :
    Sim S blobs fuel scopes params st' E' where
  toCached := sim.toCached.extend le ids tuples
  built := built
  below := below
  count := count

theorem below_update (sim : Sim S blobs fuel scopes params st E) (v : V) :
    ∀ id w, Function.update E st.counter (some v) id = some w → id < st.counter + 1 := by
  intro id w value
  by_cases same : id = st.counter
  · omega
  · rw [Function.update_of_ne same] at value
    exact Nat.lt_succ_of_lt (sim.below id w value)

theorem addInput (sim : Sim S blobs fuel scopes params st E) {t : Tag} {pos : Nat} {v : V}
    (env : EnvOf S (.flow S) fuel scopes params s ρ) (inside : Scoped scopes s (.parameter t pos))
    (ran : eval S (.flow S) fuel ρ (.parameter t pos) = .ok v) (given : params[pos]? = some v) :
    Sim S blobs fuel scopes params (st.addInput t pos) (Function.update E st.counter (some v)) := by
  have unset := sim.unset (Nat.le_refl _)
  have grown : Sim S blobs fuel scopes params
      { st with counter := st.counter + 1, inputs := ⟨st.counter, pos, t.shape, t.dtype⟩ :: st.inputs }
      (Function.update E st.counter (some v)) :=
    sim.extend (le_update unset v)
      (Built.input (i := ⟨st.counter, pos, t.shape, t.dtype⟩) sim.built unset given)
      (sim.below_update v)
      sim.count rfl rfl
  exact grown.put (e := .parameter t pos) rfl env inside ran (by simp)

theorem addConstant (sim : Sim S blobs fuel scopes params st E) {e : Expr} {body : ConstBody} {v : V}
    (kind : e.isTuple = false) (env : EnvOf S (.flow S) fuel scopes params s ρ) (inside : Scoped scopes s e)
    (ran : eval S (.flow S) fuel ρ e = .ok v)
    (made : makeConstant S blobs ⟨st.counter, body, e.tag.shape, e.tag.dtype⟩ = .ok v) :
    Sim S blobs fuel scopes params (st.addConstant e.tag body)
      (Function.update E st.counter (some v)) := by
  have unset := sim.unset (Nat.le_refl _)
  have grown : Sim S blobs fuel scopes params
      { st with
        counter := st.counter + 1
        constants := ⟨st.counter, body, e.tag.shape, e.tag.dtype⟩ :: st.constants }
      (Function.update E st.counter (some v)) :=
    sim.extend (le_update unset v) (Built.constant
      (c := ⟨st.counter, body, e.tag.shape, e.tag.dtype⟩) sim.built unset made) (sim.below_update v)
      sim.count rfl rfl
  exact grown.put kind env inside ran (by simp)

theorem emit (sim : Sim S blobs fuel scopes params st E) {k : Nat} {n : Node} {vs outs : List V}
    (ids : n.definedIds = nextIds st.counter k)
    (fetched : fetch EvalError.missing E (nodeReads n) = .ok vs)
    (ran : runNode S blobs fuel [] n vs = .ok outs) :
    Le E (assign E n.definedIds outs) ∧
      Sim S blobs fuel scopes params (st.emit k n) (assign E n.definedIds outs) := by
  have unset : ∀ id ∈ n.definedIds, E id = none := by
    intro id mem
    rw [ids] at mem
    exact sim.unset (mem_nextIds.mp mem).1
  refine ⟨le_assign unset, sim.extend (le_assign unset) (.node sim.built unset fetched ran) ?_
    sim.count rfl rfl⟩
  intro id v value
  refine @assign_forall _ _ (fun id _ => id < st.counter + k) _ _ ?_ ?_ _ _ value
  · exact fun id v old => Nat.lt_add_right k (sim.below id v old)
  · intro pair mem
    have new := (List.of_mem_zip mem).1
    rw [ids] at new
    exact (mem_nextIds.mp new).2

theorem emitOne (sim : Sim S blobs fuel scopes params st E) {n : Node} {vs : List V} {v : V}
    (ids : n.definedIds = [st.counter]) (fetched : fetch EvalError.missing E (nodeReads n) = .ok vs)
    (ran : runNode S blobs fuel [] n vs = .ok [v]) : ∃ E', Le E E' ∧
      Sim S blobs fuel scopes params (st.emit 1 n) E' ∧ E' st.counter = some v := by
  obtain ⟨le, after⟩ := sim.emit (k := 1) (by simpa [nextIds] using ids) fetched ran
  exact ⟨_, le, after, by simp [ids, assign]⟩

theorem hit (sim : Sim S blobs fuel scopes params st E) {e : Expr} {id : Nat} {v : V}
    (kind : e.isTuple = false) (env : EnvOf S (.flow S) fuel scopes params s ρ)
    (inside : Scoped scopes s e) (ran : eval S (.flow S) fuel ρ e = .ok v)
    (known : st.ids e.tag.ref = some id) : E id = some v := by
  obtain ⟨w, ran', value⟩ := sim.toCached.value kind env inside known
  rw [ran, Except.ok.injEq] at ran'
  exact ran' ▸ value

theorem hitTuple (sim : Sim S blobs fuel scopes params st E) {e : Expr} {ids : List Nat} {vs : List V}
    (kind : e.isTuple = false) (env : EnvOf S (.flow S) fuel scopes params s ρ)
    (inside : Scoped scopes s e) (ran : evalTuple S (.flow S) fuel ρ e = .ok vs)
    (known : st.tuples e.tag.ref = some ids) : Holds E ids vs := by
  obtain ⟨ws, ran', values⟩ := sim.toCached.values kind env inside known
  rw [ran, Except.ok.injEq] at ran'
  exact ran' ▸ values

end Sim

theorem whileLoop_ok {c c' b b' : List V → Except EvalError (List V)}
    (test : ∀ s vs, c s = .ok vs → c' s = .ok vs) (body : ∀ s vs, b s = .ok vs → b' s = .ok vs)
    {fuel : Nat} {state out : List V} (h : whileLoop S c b fuel state = .ok out) :
    whileLoop S c' b' fuel state = .ok out := by
  induction fuel generalizing state with
  | zero =>
    unfold whileLoop at h ⊢
    obtain ⟨outs, tested, h⟩ := bind_ok.mp h
    exact bind_ok.mpr ⟨outs, test _ _ tested, h⟩
  | succ fuel ih =>
    unfold whileLoop at h ⊢
    obtain ⟨outs, tested, h⟩ := bind_ok.mp h
    obtain ⟨go, truth, h⟩ := bind_ok.mp h
    refine bind_ok.mpr ⟨outs, test _ _ tested, bind_ok.mpr ⟨go, truth, ?_⟩⟩
    cases go with
    | false => exact h
    | true =>
      simp only [if_true, bind_ok] at h ⊢
      obtain ⟨next, stepped, h⟩ := h
      refine ⟨next, body _ _ stepped, ?_⟩
      split at h
      · rename_i real
        rw [if_pos real]
        exact ih h
      · cases h

theorem foldParts_ok {f : V → V → Except EvalError V} {fn : List V → Except EvalError (List V)}
    (same : ∀ x y v, f x y = .ok v → fn [x, y] = .ok [v]) {acc out : V} {parts : List V}
    (h : foldLeft f acc parts = .ok out) : foldParts fn acc parts = .ok out := by
  induction parts generalizing acc with
  | nil => exact h
  | cons part rest ih =>
    obtain ⟨next, stepped, h⟩ := bind_ok.mp h
    exact bind_ok.mpr ⟨[next], same _ _ _ stepped, bind_ok.mpr ⟨next, rfl, ih h⟩⟩

theorem outputSpecs_nodes {roots : List Expr} {ids : List Nat} (len : roots.length = ids.length) :
    (outputSpecs roots ids).map (·.node) = ids := by
  induction roots generalizing ids with
  | nil => exact (List.length_eq_zero_iff.mp len.symm).symm ▸ rfl
  | cons e rest ih =>
    cases ids with
    | nil => cases len
    | cons id ids => exact congrArg (id :: ·) (ih (by simpa using len))

end

variable {S : Sem V} {blobs : List Blob} {fuel : Nat} {params : List V}

theorem SubRun.sim_adopt {roots : List Expr} {st st' : State} {sub : SubGraph} {scopes : Scopes}
    {E : Env V} (run : SubRun roots st sub st') (sim : Sim S blobs fuel scopes params st E) :
    Sim S blobs fuel scopes params st' E := by
  cases run with
  | mk inner => exact sim.adopt (inner.grows.count sim.count)

theorem holds_assign {E : Env V} {ids : List Nat} (distinct : ids.Nodup) (outs : List V) :
    Holds (assign E ids outs) ids outs :=
  fun _ _ _ at_id at_v => assign_getElem distinct at_id at_v

theorem nextIds_nodup (c k : Nat) : (nextIds c k).Nodup :=
  List.nodup_range.map fun _ _ same => by simpa using same

def ClausesHeld (E : Env V) (data : List (Nat × List Nat)) (values : List (V × List V)) : Prop :=
  List.Forall₂ (fun c w => E c.1 = some w.1 ∧ Held E c.2 w.2) data values

theorem ClausesHeld.mono {E E' : Env V} {data : List (Nat × List Nat)} {values : List (V × List V)}
    (held : ClausesHeld E data values) (le : Le E E') : ClausesHeld E' data values :=
  List.Forall₂.imp (fun _ _ both => ⟨le _ _ both.1, both.2.mono le⟩) held

theorem selectChain_sim {scopes : Scopes} {t : Tag} {i : Nat} : ∀ {data : List (Nat × List Nat)}
    {values : List (V × List V)} {elseId id : Nat} {st st' : State} {E : Env V} {y v : V},
    selectChain t i data elseId st = .ok (id, st') → Sim S blobs fuel scopes params st E →
    ClausesHeld E data values → E elseId = some y → pick S t i values y = some v →
    ∃ E', Le E E' ∧ Sim S blobs fuel scopes params st' E' ∧ E' id = some v
  | [], _, elseId, id, st, st', E, y, v, h, sim, .nil, last, picked => by
    cases h
    cases picked
    exact ⟨E, .refl E, sim, last⟩
  | (predId, exprIds) :: rest, (p, xs) :: values, elseId, id, st, st', E, y, v, h, sim,
      .cons here tail, last, picked => by
    simp only [selectChain, bind_ok, Prod.exists] at h
    obtain ⟨mid, st₁, first, h⟩ := h
    simp only [pick, Option.bind_eq_bind, Option.bind_eq_some_iff] at picked
    obtain ⟨z, below, x, at_i, made⟩ := picked
    obtain ⟨E₁, le₁, sim₁, held₁⟩ := selectChain_sim first sim tail last below
    split at h
    · cases h
    · rename_i exprId found
      cases h
      have read : fetch EvalError.missing E₁ [predId, exprId, mid] = .ok [p, x, z] := by
        refine Held.fetched (.cons (le₁ _ _ here.1) (.cons ?_ (.cons held₁ .nil)))
        exact le₁ _ _ (here.2.holds i exprId x found at_i)
      obtain ⟨E₂, le₂, sim₂, value⟩ := sim₁.emitOne
        (n := .op st₁.counter selectOp [predId, exprId, mid] t.shape t.dtype) rfl read
        (bind_ok.mpr ⟨v, orFault_ok.mpr made, rfl⟩)
      exact ⟨E₂, le₁.trans le₂, sim₂, value⟩

theorem selectChains_sim {scopes : Scopes} {data : List (Nat × List Nat)}
    {values : List (V × List V)} : ∀ {i : Nat} {elems : List (Expr × Nat)} {ids : List Nat}
    {st st' : State} {E : Env V} {vs : List V},
    selectChains data i elems st = .ok (ids, st') → Sim S blobs fuel scopes params st E →
    ClausesHeld E data values →
    (∀ k x v, elems[k]? = some x → vs[k]? = some v →
      ∃ y, E x.2 = some y ∧ pick S x.1.tag (i + k) values y = some v) →
    elems.length = vs.length →
    ∃ E', Le E E' ∧ Sim S blobs fuel scopes params st' E' ∧ Held E' ids vs
  | _, [], ids, st, st', E, vs, h, sim, _, _, len => by
    cases h
    cases vs with
    | nil => exact ⟨E, .refl E, sim, .nil⟩
    | cons _ _ => cases len
  | i, (e, defaultId) :: rest, ids, st, st', E, [], h, sim, held, want, len => by cases len
  | i, (e, defaultId) :: rest, ids, st, st', E, v :: vs, h, sim, held, want, len => by
    simp only [selectChains, bind_ok, Prod.exists, Except.ok.injEq, Prod.mk.injEq] at h
    obtain ⟨id, st₁, first, restIds, st₂, second, rfl, rfl⟩ := h
    obtain ⟨y, last, picked⟩ := want 0 _ v rfl rfl
    obtain ⟨E₁, le₁, sim₁, held₁⟩ := selectChain_sim first sim held last picked
    obtain ⟨E₂, le₂, sim₂, held₂⟩ := selectChains_sim second sim₁ (held.mono le₁) (by
      intro k x w at_x at_w
      obtain ⟨y, last, picked⟩ := want (k + 1) x w at_x at_w
      exact ⟨y, le₁ _ _ last, by rw [Nat.add_right_comm] ; exact picked⟩) (by simpa using len)
    exact ⟨E₂, le₁.trans le₂, sim₂, .cons (le₂ _ _ held₁) held₂⟩

/-- The node of a custom reduction, given what the graph of its function computes. -/
theorem Sim.emitFold {scopes : Scopes} {st : State} {E : Env V}
    (sim : Sim S blobs fuel scopes params st E) {t : Tag} {op : FoldOp} {sub : SubGraph}
    {ids : List Nat} {f : V → V → Except EvalError V} {x y v : V} (held : Held E ids [x, y])
    (folded : (Strategy.flow S).fold op f x y = .ok v)
    (step : ∀ p q w, f p q = .ok w → interpret S blobs fuel sub [] [p, q] = .ok [w]) : ∃ E', Le E E' ∧
      Sim S blobs fuel scopes params (st.emit 1 (.fold st.counter op sub ids t.shape t.dtype)) E' ∧
        E' st.counter = some v := by
  simp only [Strategy.flow, bind_ok, orFault_ok] at folded
  obtain ⟨begun, started, parts, split, out, looped, finished⟩ := folded
  have pair : ids.length ≤ 2 := Nat.le_of_eq held.length.symm
  have read : fetch EvalError.missing E (ids.take 2) = .ok [x, y] := by
    rw [List.take_of_length_le pair]
    exact held.fetched
  refine sim.emitOne (v := v) rfl read ?_
  simp only [runNode]
  refine bind_ok.mpr ⟨x, rfl, bind_ok.mpr ⟨y, rfl, bind_ok.mpr ⟨begun, orFault_ok.mpr started, ?_⟩⟩⟩
  refine bind_ok.mpr ⟨parts, orFault_ok.mpr split, bind_ok.mpr ⟨out, foldParts_ok step looped, ?_⟩⟩
  exact bind_ok.mpr ⟨v, orFault_ok.mpr finished, rfl⟩

mutual
theorem Run.sim : ∀ {e : Expr} {st st' : State} {id : Nat}, Run e st id st' →
    ∀ {scopes : Scopes} {params : List V} {s : Option Ref} {ρ : Nat → Option V} {E : Env V} {v : V},
    Here S fuel scopes params (.flow S) s ρ st E → Scoped scopes s e →
    Sim S blobs fuel scopes params st E → st'.blobs.reverse <+: blobs →
    eval S (.flow S) fuel ρ e = .ok v →
    ∃ E', Le E E' ∧ Sim S blobs fuel scopes params st' E' ∧ E' id = some v
  | _, _, _, _, .hit kind known, _, _, _, _, E, _, here, inside, sim, _, ran =>
    ⟨E, .refl E, sim, sim.hit kind here.env inside ran known⟩
  | _, _, _, _, .bound new found, _, _, _, _, E, _, here, inside, sim, _, ran => by
    have value := here.at_bound found (by simpa only [eval, orFault_ok] using ran)
    exact ⟨E, .refl E, sim.put (e := .parameter _ _) rfl here.env inside ran value, value⟩
  | _, _, _, _, .input new missing, _, _, _, _, E, v, here, inside, sim, _, ran => by
    have given := here.at_input missing (by simpa only [eval, orFault_ok] using ran)
    exact ⟨_, le_update (sim.unset (Nat.le_refl _)) v, sim.addInput here.env inside ran given,
      by simp⟩
  | .constant t number, _, _, _, .constant new, _, _, _, _, E, v, here, inside, sim, _, ran => by
    have made : orFault (S.number (encodeNumber number) t.shape t.dtype) = .ok v := by
      simpa only [eval] using ran
    exact ⟨_, le_update (sim.unset (Nat.le_refl _)) v,
      sim.addConstant (e := .constant t number) rfl here.env inside ran made, by simp⟩
  | .tensor t literal, st, _, _, .tensor new, _, _, _, _, E, v, here, inside, sim, fits, ran => by
    have made : makeConstant S blobs ⟨st.counter, .data st.blobCount, t.shape, t.dtype⟩ = .ok v := by
      have found : blobs[st.blobs.length]? = some literal.binary := newest_blob fits
      simp only [makeConstant, sim.count, found, Option.bind_some]
      simpa only [eval] using ran
    exact ⟨_, le_update (sim.unset (Nat.le_refl _)) v,
      (sim.addConstant (e := .tensor t literal) rfl here.env inside ran made).addBlob _, by simp⟩
  | .metadata t e, _, _, _, .metadata new inner, _, _, _, ρ, E, v, here, inside, sim, fits, ran => by
    have value : eval S (.flow S) fuel ρ e = .ok v := by simpa only [eval] using ran
    obtain ⟨E', le, sim, held⟩ := inner.sim here (inside.operand (List.mem_singleton.mpr rfl)) sim
      fits value
    exact ⟨E', le, sim.put (e := .metadata t e) rfl here.env inside ran held, held⟩
  | .elem t src k, _, _, _, .elem new tuple at_k, _, _, _, _, E, v, here, inside, sim, fits, ran => by
    have value := ran
    simp only [eval, bind_ok, orFault_ok] at value
    obtain ⟨vs, values, found⟩ := value
    obtain ⟨E', le, sim, holds⟩ := tuple.sim here (inside.operand (List.mem_singleton.mpr rfl)) sim
      fits values
    have held := holds k _ v at_k found
    exact ⟨E', le, sim.put (e := .elem t src k) rfl here.env inside ran held, held⟩
  | .block t inputs default, _, _, _, .block new kind ins out, _, _, _, _, E, v, here, inside, sim,
      fits, ran => by
    obtain ⟨args, given, value⟩ := eval_block kind ran
    obtain ⟨E₁, le₁, sim₁, held₁⟩ := ins.sim here inside.inputs sim
      (prefix_before (Grows.bind out.grows) fits) given
    have here₁ := here.mono ins.grows.paramBind le₁
    obtain ⟨E₂, le₂, sim₂, held₂⟩ := out.sim
      ⟨.block here.env inside given, ⟨_, args, rfl, rfl, held₁⟩⟩ inside.default (sim₁.bind _) fits value
    exact ⟨E₂, le₁.trans le₂,
      (sim₂.bind _).put (e := .block t inputs default) rfl here.env inside ran held₂, held₂⟩
  | .block t inputs (.tuple outputs), _, _, _, .first new tuple, _, _, _, _, E, v, here, inside, sim,
      fits, ran => by
    obtain ⟨vs, values, head⟩ := eval_tupleBlock ran
    obtain ⟨E', le, sim, holds⟩ := tuple.sim here inside sim fits values
    rw [List.head?_eq_getElem?] at head
    exact ⟨E', le, sim, holds 0 _ v rfl head⟩
  | .cond t clauses default, _, _, _, .cond new out chosen, _, _, _, _, E, v, here, inside, sim, fits,
      ran => by
    have value := ran
    simp only [eval, bind_ok, orFault_ok] at value
    obtain ⟨vs, values, head⟩ := value
    obtain ⟨d, last⟩ := evalClauses_default (flow_eager S) values
    obtain ⟨default_in, clauses_in⟩ := inside.clauses
    obtain ⟨E₁, le₁, sim₁, held₁⟩ := out.sim here default_in sim
      (prefix_before chosen.grows fits) last
    rw [last] at values
    obtain ⟨E₂, le₂, sim₂, w, rfl, held₂⟩ :=
      chosen.sim (here.mono out.grows.paramBind le₁) clauses_in sim₁
      fits held₁ values
    obtain rfl : w = v := by simpa using head
    exact ⟨E₂, le₁.trans le₂, sim₂.put (e := .cond t clauses default) rfl here.env inside ran held₂,
      held₂⟩
  | e, _, _, _, .plain new plan args, _, _, _, _, E, v, here, inside, sim, fits, ran => by
    obtain ⟨vs, values, applied⟩ := eval_plan rfl plan ran
    obtain ⟨E₁, le₁, sim₁, held₁⟩ := args.sim here (inside.plan plan) sim fits values
    obtain ⟨E₂, le₂, sim₂, value⟩ := sim₁.emitOne (n := .op _ _ _ e.tag.shape e.tag.dtype) rfl
      held₁.fetched (bind_ok.mpr ⟨v, applied, rfl⟩)
    exact ⟨E₂, le₁.trans le₂, sim₂.put (Run.not_tuple (.plain new plan args)) here.env inside ran value,
      value⟩
  | e, _, _, _, @Run.fold _ a acc op body _ ids st₁ sub st₂ new fold args fn, _, _, _, _, E, v, here,
      inside, sim, fits, ran => by
    obtain ⟨args_in, subScopes, body_in⟩ := inside.fold fold
    obtain ⟨x, y, first, second, folded⟩ := eval_fold fold ran
    obtain ⟨E₁, le₁, sim₁, held₁⟩ := args.sim here args_in sim (prefix_before fn.grows fits)
      (evalList_cons.mpr ⟨x, [y], first, evalList_cons.mpr ⟨y, [], second, evalList_nil, rfl⟩, rfl⟩)
    have step : ∀ a p w, eval S (.flow S) fuel (fun pos => [a, p][pos]?) body = .ok w →
        interpret S blobs fuel sub [] [a, p] = .ok [w] := fun a p w value =>
      fn.sim body_in sim₁.count fits (evalList_cons.mpr ⟨w, [], value, evalList_nil, rfl⟩)
    obtain ⟨E₂, le₂, sim₂, value⟩ := (fn.sim_adopt sim₁).emitFold (t := e.tag) held₁ folded step
    exact ⟨E₂, le₁.trans le₂,
      sim₂.put (Run.not_tuple (.fold new fold args fn)) here.env inside ran value, value⟩

theorem TupleRun.sim : ∀ {e : Expr} {st st' : State} {ids : List Nat}, TupleRun e st ids st' →
    ∀ {scopes : Scopes} {params : List V} {s : Option Ref} {ρ : Nat → Option V} {E : Env V}
      {vs : List V},
    Here S fuel scopes params (.flow S) s ρ st E → Scoped scopes s e →
    Sim S blobs fuel scopes params st E → st'.blobs.reverse <+: blobs →
    evalTuple S (.flow S) fuel ρ e = .ok vs →
    ∃ E', Le E E' ∧ Sim S blobs fuel scopes params st' E' ∧ Holds E' ids vs
  | _, _, _, _, .tuple es, _, _, _, _, E, _, here, inside, sim, fits, ran => by
    obtain ⟨E', le, sim, held⟩ := es.sim here inside.tuple sim fits
      (by simpa only [evalTuple] using ran)
    exact ⟨E', le, sim, held.holds⟩
  | _, _, _, _, .metadata inner, _, _, _, _, E, _, here, inside, sim, fits, ran =>
    inner.sim here (inside.operand (List.mem_singleton.mpr rfl)) sim fits
      (by simpa only [evalTuple] using ran)
  | _, _, _, _, .hitBlock known, _, _, _, _, E, _, here, inside, sim, _, ran =>
    ⟨E, .refl E, sim, sim.hitTuple rfl here.env inside ran known⟩
  | _, _, _, _, .hitLoop known, _, _, _, _, E, _, here, inside, sim, _, ran =>
    ⟨E, .refl E, sim, sim.hitTuple rfl here.env inside ran known⟩
  | .block t inputs (.tuple outputs), _, _, _, .block new ins outs, _, _, _, _, E, vs, here, inside,
      sim, fits, ran => by
    have values := ran
    simp only [evalTuple, bind_ok] at values
    obtain ⟨args, given, values⟩ := values
    obtain ⟨E₁, le₁, sim₁, held₁⟩ := ins.sim here inside.inputs sim
      (prefix_before (Grows.bind outs.grows) fits) given
    obtain ⟨E₂, le₂, sim₂, held₂⟩ := outs.sim
      ⟨.block here.env inside given, ⟨_, args, rfl, rfl, held₁⟩⟩ inside.default.tuple (sim₁.bind _)
      fits values
    exact ⟨E₂, le₁.trans le₂,
      (sim₂.bind _).putTuple (e := .block t inputs (.tuple outputs)) rfl here.env inside ran
      held₂.holds, held₂.holds⟩
  | .loop t init test body, _, _, _, @TupleRun.loop _ _ _ _ _ initIds _ condSub _ bodySub st₃ new out
      cond stepped nonempty, _, _, _, ρ, E, vs, here, inside, sim, fits, ran => by
    have looped := ran
    simp only [evalTuple, bind_ok, runLoop_ok] at looped
    obtain ⟨state, given, real, looped⟩ := looped
    have real : state.all S.isTensor = true := real
    obtain ⟨subScopes, subs⟩ := inside.sub
    have body_in := subs body (List.mem_cons_of_mem _ (List.mem_singleton.mpr rfl))
    obtain ⟨E₁, le₁, sim₁, held₁⟩ := out.sim here
      (fun e mem => inside.operand (List.mem_map_of_mem mem)) sim
      (prefix_before (cond.grows.trans stepped.grows) fits) given
    have sim₂ := cond.sim_adopt sim₁
    have tested : ∀ s vs, only (eval S (.flow S) fuel (fun pos => s[pos]?) test) = .ok vs →
        interpret S blobs fuel condSub [] s = .ok vs := by
      intro s vs values
      obtain ⟨v, value, same⟩ := bind_ok.mp values
      cases same
      exact cond.sim (subs [test] (List.mem_cons_self ..)) sim₁.count
        (prefix_before stepped.grows fits) (evalList_cons.mpr ⟨v, [], value, evalList_nil, rfl⟩)
    have ids := whileOutputs_ids st₃.counter body
    obtain ⟨le₂, sim₃⟩ := (stepped.sim_adopt sim₂).emit (k := body.length)
      (n := .loop initIds condSub bodySub (whileOutputs st₃.counter body)) ids held₁.fetched (by
        simp only [runNode]
        rw [if_pos real]
        exact whileLoop_ok tested (fun s vs value => stepped.sim body_in sim₂.count fits value) looped)
    have holds := holds_assign (E := E₁) (ids ▸ nextIds_nodup _ _) vs
    exact ⟨_, le₁.trans le₂, sim₃.putTuple (e := .loop t init test body) rfl here.env inside ran holds,
      holds⟩
  | .cond t clauses (.tuple elems), _, _, _, .cond out data chains, _, _, _, _, E, vs, here, inside,
      sim, fits, ran => by
    simp only [evalTuple] at ran
    obtain ⟨ys, last⟩ := evalTupleClauses_default (flow_eager S) ran
    rw [last] at ran
    obtain ⟨default_in, clauses_in⟩ := inside.clauses
    have later := selectChains_grows chains
    obtain ⟨E₁, le₁, sim₁, held₁⟩ := out.sim here default_in.tuple sim
      (prefix_before (data.grows.trans later) fits) last
    obtain ⟨E₂, le₂, sim₂, values, held₂, chained⟩ := data.sim (here.mono out.grows.paramBind le₁)
      clauses_in sim₁ (prefix_before later fits) ran
    have len : ys.length = (elems.map Expr.tag).length := by
      rw [evalList_length last, List.length_map]
    obtain ⟨E₃, le₃, sim₃, held₃⟩ := selectChains_sim chains sim₂ held₂ (by
      intro k x v at_x at_v
      obtain ⟨at_e, at_id⟩ := List.getElem?_zip_eq_some.mp at_x
      obtain ⟨y, w, at_y, at_w, picked⟩ := chain_at len chained (i := k) (t := x.1.tag) (by simp [at_e])
      obtain rfl := Option.some.inj (at_w.symm.trans at_v)
      exact ⟨y, le₂ _ _ (held₁.holds k _ _ at_id at_y), by rwa [Nat.zero_add]⟩) (by
      rw [chain_length len chained, List.length_zip, ← held₁.length, len]
      simp)
    exact ⟨E₃, (le₁.trans le₂).trans le₃, sim₃, held₃.holds⟩

theorem ListRun.sim : ∀ {es : List Expr} {st st' : State} {ids : List Nat}, ListRun es st ids st' →
    ∀ {scopes : Scopes} {params : List V} {s : Option Ref} {ρ : Nat → Option V} {E : Env V}
      {vs : List V},
    Here S fuel scopes params (.flow S) s ρ st E → (∀ e ∈ es, Scoped scopes s e) →
    Sim S blobs fuel scopes params st E → st'.blobs.reverse <+: blobs →
    evalList S (.flow S) fuel ρ es = .ok vs →
    ∃ E', Le E E' ∧ Sim S blobs fuel scopes params st' E' ∧ Held E' ids vs
  | _, _, _, _, .nil, _, _, _, _, E, _, here, inside, sim, fits, ran => by
    rw [evalList_nil] at ran
    cases ran
    exact ⟨E, .refl E, sim, .nil⟩
  | _, _, _, _, .cons first rest, _, _, _, _, E, _, here, inside, sim, fits, ran => by
    obtain ⟨v, vs, value, values, rfl⟩ := evalList_cons.mp ran
    obtain ⟨E₁, le₁, sim₁, held₁⟩ := first.sim here (inside _ (List.mem_cons_self ..)) sim
      (prefix_before rest.grows fits) value
    obtain ⟨E₂, le₂, sim₂, held₂⟩ := rest.sim (here.mono first.grows.paramBind le₁)
      (fun e mem => inside e (List.mem_cons_of_mem _ mem)) sim₁ fits values
    exact ⟨E₂, le₁.trans le₂, sim₂, .cons (le₂ _ _ held₁) held₂⟩

theorem SubRun.sim : ∀ {roots : List Expr} {st st' : State} {sub : SubGraph},
    SubRun roots st sub st' → ∀ {subScopes : Scopes} {params vs : List V},
    (∀ e ∈ roots, Scoped subScopes none e) → st.blobCount = st.blobs.length →
    st'.blobs.reverse <+: blobs →
    evalList S (.flow S) fuel (fun pos => params[pos]?) roots = .ok vs →
    interpret S blobs fuel sub [] params = .ok vs
  | roots, _, _, _, .mk run, subScopes, params, vs, inside, count, fits, ran => by
    obtain ⟨E, _, sim, held⟩ := run.sim ⟨.root, rfl⟩ inside (.start count) fits ran
    obtain ⟨base, bound, evaluated⟩ := sim.built.runs
    refine interpret_ok.mpr ⟨base, E, bound, evaluated, ?_⟩
    rw [State.graph, SubGraph.outputs, outputSpecs_nodes]
    · exact held.fetched
    · rw [← held.length, evalList_length ran]

theorem ClauseRun.sim : ∀ {t : Tag} {clauses : List (Expr × Expr)} {defaultId id : Nat}
    {st st' : State}, ClauseRun t clauses defaultId st id st' →
    ∀ {scopes : Scopes} {params : List V} {s : Option Ref} {ρ : Nat → Option V} {E : Env V} {d : V}
      {vs : List V},
    Here S fuel scopes params (.flow S) s ρ st E →
    (∀ c ∈ clauses, Scoped scopes s c.1 ∧ Scoped scopes s c.2) →
    Sim S blobs fuel scopes params st E → st'.blobs.reverse <+: blobs → E defaultId = some d →
    evalClauses S (.flow S) fuel ρ t clauses (only (.ok d)) = .ok vs →
    ∃ E', Le E E' ∧ Sim S blobs fuel scopes params st' E' ∧ ∃ v, vs = [v] ∧ E' id = some v
  | _, _, _, _, _, _, .nil, _, _, _, _, E, d, _, here, inside, sim, fits, last, ran => by
    simp only [evalClauses] at ran
    cases ran
    exact ⟨E, .refl E, sim, d, rfl, last⟩
  | t, _, _, _, _, _, @ClauseRun.cons _ _ _ _ _ _ elseId _ predId _ exprId st₃ rest pred expr, _, _,
      _, _, E, _, _, here, inside, sim, fits, last, ran => by
    rw [evalClauses, flow_branch] at ran
    obtain ⟨ys, p, xs, below, pred_value, expr_values, selected⟩ := ran
    obtain ⟨pred_in, expr_in⟩ := inside _ (List.mem_cons_self ..)
    obtain ⟨E₁, le₁, sim₁, y, rfl, held₁⟩ := rest.sim here
      (fun c mem => inside c (List.mem_cons_of_mem _ mem)) sim
      (prefix_before (pred.grows.trans expr.grows) fits) last below
    have here₁ := here.mono rest.grows.paramBind le₁
    obtain ⟨E₂, le₂, sim₂, held₂⟩ :=
      pred.sim here₁ pred_in sim₁ (prefix_before expr.grows fits) pred_value
    obtain ⟨x, expr_value, same⟩ := bind_ok.mp expr_values
    cases same
    obtain ⟨E₃, le₃, sim₃, held₃⟩ := expr.sim (here₁.mono pred.grows.paramBind le₂) expr_in sim₂ fits
      expr_value
    simp only [selects, bind_ok, orFault_ok, Except.ok.injEq] at selected
    obtain ⟨v, made, ws, rfl, rfl⟩ := selected
    have read : fetch EvalError.missing E₃ [predId, exprId, elseId] = .ok [p, x, y] :=
      Held.fetched (.cons (le₃ _ _ held₂) (.cons held₃ (.cons (le₃ _ _ (le₂ _ _ held₁)) .nil)))
    obtain ⟨E₄, le₄, sim₄, value⟩ := sim₃.emitOne
      (n := .op st₃.counter selectOp [predId, exprId, elseId] t.shape t.dtype) rfl read
      (bind_ok.mpr ⟨v, orFault_ok.mpr made, rfl⟩)
    exact ⟨E₄, ((le₁.trans le₂).trans le₃).trans le₄, sim₄, v, rfl, value⟩

theorem DataRun.sim : ∀ {clauses : List (Expr × Expr)} {st st' : State}
    {data : List (Nat × List Nat)}, DataRun clauses st data st' →
    ∀ {scopes : Scopes} {params : List V} {s : Option Ref} {ρ : Nat → Option V} {E : Env V}
      {tags : List Tag} {ys vs : List V},
    Here S fuel scopes params (.flow S) s ρ st E →
    (∀ c ∈ clauses, Scoped scopes s c.1 ∧ Scoped scopes s c.2) →
    Sim S blobs fuel scopes params st E → st'.blobs.reverse <+: blobs →
    evalTupleClauses S (.flow S) fuel ρ tags clauses (.ok ys) = .ok vs →
    ∃ E', Le E E' ∧ Sim S blobs fuel scopes params st' E' ∧
      ∃ values, ClausesHeld E' data values ∧ chain S tags values ys = .ok vs
  | _, _, _, _, .nil, _, _, _, _, E, _, _, _, here, inside, sim, fits, ran => by
    simp only [evalTupleClauses] at ran
    exact ⟨E, .refl E, sim, [], .nil, ran⟩
  | _, _, _, _, .cons pred es rest, _, _, _, _, E, _, _, _, here, inside, sim, fits, ran => by
    rw [evalTupleClauses, flow_branch] at ran
    obtain ⟨zs, p, xs, below, pred_value, expr_values, selected⟩ := ran
    obtain ⟨pred_in, es_in⟩ := inside _ (List.mem_cons_self ..)
    obtain ⟨E₁, le₁, sim₁, held₁⟩ := pred.sim here pred_in sim
      (prefix_before (es.grows.trans rest.grows) fits) pred_value
    have here₁ := here.mono pred.grows.paramBind le₁
    obtain ⟨E₂, le₂, sim₂, held₂⟩ := es.sim here₁ es_in.tuple sim₁ (prefix_before rest.grows fits)
      expr_values
    obtain ⟨E₃, le₃, sim₃, values, held₃, chained⟩ := rest.sim (here₁.mono es.grows.paramBind le₂)
      (fun c mem => inside c (List.mem_cons_of_mem _ mem)) sim₂ fits below
    exact ⟨E₃, (le₁.trans le₂).trans le₃, sim₃, (p, xs) :: values,
      .cons ⟨le₃ _ _ (le₂ _ _ held₁), held₂.mono le₃⟩ held₃, bind_ok.mpr ⟨zs, chained, selected⟩⟩
end

end NxTinygrad.Lowering
