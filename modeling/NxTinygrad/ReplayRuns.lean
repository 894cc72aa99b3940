import NxTinygrad.Replay

/- Runs with reused buffers against runs over immutable values. A replay is harmless as long
   as nothing that is still needed was kept in the buffers it overwrites. -/
namespace NxTinygrad.ReplayRuns
open IR StraightLine Interpreter Capture SymbolicStep Watch Buffers Replay

variable {V : Type} {S : Sem V} {blobs : List Blob} {fuel : Nat} {views : Views}
variable {m m' : Machine V} {live : List Nat}

structure Fixed (width : Nat) (s : Store V) (outs : List Nat) : Prop where
  count : outs.length = width
  distinct : outs.Nodup
  used : ∀ a ∈ outs, a < s.next

def Good (m : Machine V) : Prop :=
  ∀ site, 2 ≤ (m.jits site).calls → Fixed site.width m.store (m.jits site).outs

def Used (live : List Nat) (m : Machine V) : Prop := ∀ a ∈ live, a < m.store.next

structure Post (live : List Nat) (m : Machine V) (vs : List V) (r : Cells V) : Prop where
  keeps : Keeps live m.store r.2.store
  good : Good r.2
  holds : HoldAll r.2.store r.1 vs

structure PostOne (live : List Nat) (m : Machine V) (v : V) (r : Cell V × Machine V) : Prop where
  keeps : Keeps live m.store r.2.store
  good : Good r.2
  holds : Holds r.2.store r.1 v

def Refines (fit : List V → Prop) (run : List Nat → Machine V → List (Cell V) →
    Watched EvalError (Cells V)) (f : List V → Except EvalError (List V)) : Prop :=
  ∀ live m cs vs outs, Used live m → Good m → HoldAll m.store cs vs → fit vs → f vs = .ok outs →
    Meets (run live m cs) (Post live m outs)

theorem good_fresh (V : Type) : Good (Machine.fresh V) := by
  intro site again
  simp [Machine.fresh] at again

theorem good_grows {s : Store V} (good : Good m) (grows : m.store.next ≤ s.next) :
    Good { m with store := s } := by
  intro site again
  obtain ⟨count, distinct, used⟩ := good site again
  exact ⟨count, distinct, fun a mem => Nat.lt_of_lt_of_le (used a mem) grows⟩

theorem used_keeps {kept : List Nat} (used : Used live m) (keeps : Keeps kept m.store m'.store) :
    Used live m' :=
  fun a mem => Nat.lt_of_lt_of_le (used a mem) keeps.grows

theorem used_append {more : List Nat} (used : Used live m) (used' : Used more m) :
    Used (live ++ more) m := by
  intro a mem
  rcases List.mem_append.mp mem with here | there
  · exact used a here
  · exact used' a there

theorem keeps_left {more : List Nat} {s s' : Store V} (keeps : Keeps (live ++ more) s s') :
    Keeps live s s' :=
  keeps_mono keeps fun _ mem => List.mem_append_left _ mem

theorem holdAll_right {cs : List (Cell V)} {vs : List V} {s s' : Store V} (holds : HoldAll s cs vs)
    (keeps : Keeps (live ++ feet cs) s s') : HoldAll s' cs vs :=
  holdAll_keep holds keeps fun _ mem => List.mem_append_right _ mem

theorem Post.after {vs : List V} {r : Cells V} (post : Post live m' vs r)
    (first : Keeps live m.store m'.store) : Post live m vs r :=
  ⟨keeps_trans first post.keeps, post.good, post.holds⟩

theorem PostOne.after {v : V} {r : Cell V × Machine V} (post : PostOne live m' v r)
    (first : Keeps live m.store m'.store) : PostOne live m v r :=
  ⟨keeps_trans first post.keeps, post.good, post.holds⟩

theorem readCell_ok {c : Cell V} {v : V} (holds : Holds m.store c v) :
    orFault (c.value m.store.heap) = .ok v :=
  orFault_ok.mpr holds.value

theorem readCells_ok {cs : List (Cell V)} {vs : List V} (holds : HoldAll m.store cs vs) :
    orFault (values m.store.heap cs) = .ok vs :=
  orFault_ok.mpr (holdAll_values holds)

theorem resultCell_holds {s : Store V} (isView : Bool) {f : List V → Option V} {cs : List (Cell V)}
    {vs : List V} {v : V} (holds : HoldAll s cs vs) (computed : f vs = some v) :
    Holds s (resultCell isView f cs) v := by
  unfold resultCell
  split
  · cases holds with
    | cons here rest =>
      cases rest
      refine ⟨?_, here.used⟩
      have value := here.value
      simp only [Cell.value] at value ⊢
      rw [value, Option.bind_some, computed]
  · cases holds with
    | cons here rest =>
      cases rest
      refine ⟨?_, here.used⟩
      have value := here.value
      simp only [Cell.value, Option.bind_eq_some_iff] at value ⊢
      obtain ⟨base, at_base, viewed⟩ := value
      exact ⟨base, at_base, _, viewed, computed⟩
  · exact combine_holds holds computed

theorem realize_meets {c : Cell V} {v : V} (used : Used live m) (good : Good m)
    (holds : Holds m.store c v) : Meets (realize m c) (PostOne live m v) := by
  cases c with
  | buffer a => exact meets_pure ⟨keeps_refl _ _, good, holds⟩
  | view a f => exact meets_pure ⟨keeps_refl _ _, good, holds⟩
  | computed c =>
    refine meets_lift_bind (readCell_ok holds) (meets_pure ?_)
    have keeps := alloc_keeps used v
    exact ⟨keeps, good_grows good keeps.grows, alloc_holds m.store v⟩

theorem realizeAll_meets {cs : List (Cell V)} {vs : List V} (used : Used live m) (good : Good m)
    (holds : HoldAll m.store cs vs) : Meets (realizeAll m cs) (Post live m vs) := by
  induction cs generalizing vs m live with
  | nil =>
    cases holds
    exact meets_pure ⟨keeps_refl _ _, good, List.Forall₂.nil⟩
  | cons c rest ih =>
    obtain ⟨v, vs, here, tail, rfl⟩ := List.forall₂_cons_left_iff.mp holds
    refine meets_bind (realize_meets (used_append used (holdAll_used tail)) good here) ?_
    rintro ⟨c', m₁⟩ first
    have used₁ : Used (live ++ c'.foot) m₁ :=
      used_append (used_keeps used first.keeps) first.holds.used
    refine meets_bind (ih used₁ first.good (holdAll_right tail first.keeps)) ?_
    rintro ⟨cs', m₂⟩ second
    refine meets_pure ⟨keeps_trans (keeps_left first.keeps) (keeps_left second.keeps), second.good, ?_⟩
    exact List.Forall₂.cons
      (holds_keep first.holds second.keeps fun _ mem => List.mem_append_right _ mem) second.holds

theorem realizeState_meets {cs : List (Cell V)} {vs : List V} (used : Used live m) (good : Good m)
    (holds : HoldAll m.store cs vs) (tensors : vs.all S.isTensor = true) :
    Meets (realizeState S m cs) (Post live m vs) := by
  refine meets_bind (realizeAll_meets used good holds) ?_
  rintro ⟨cs', m'⟩ post
  refine meets_lift_bind (readCells_ok post.holds) ?_
  simp only [tensors, if_true]
  exact meets_pure post

theorem applyCells_meets {op : NodeOp} {cs : List (Cell V)} {vs : List V} {shape : List Nat}
    {dtype : Dtype} {v : V} (holds : HoldAll m.store cs vs)
    (applied : applyOp S [] op vs shape dtype = .ok v) :
    Meets (applyCells S views m op cs shape dtype) fun c => Holds m.store c v := by
  cases op with
  | prim p attrs => exact meets_pure (resultCell_holds _ holds (orFault_ok.mp applied))
  | slice starts lengths strides =>
    cases holds with
    | nil => cases applied
    | cons here rest =>
      obtain ⟨resolved, ok, sliced⟩ := except_bind_ok.mp applied
      refine meets_lift_bind (readCells_ok rest) (meets_lift_bind ok (meets_pure ?_))
      exact resultCell_holds _ (holds_one here) (orFault_ok.mp sliced)
  | putSlice starts =>
    cases holds with
    | nil => cases applied
    | cons here rest =>
      cases rest with
      | nil => cases applied
      | cons slice dyn =>
        obtain ⟨resolved, ok, put⟩ := except_bind_ok.mp applied
        refine meets_lift_bind (readCells_ok dyn) (meets_lift_bind ok (meets_pure ?_))
        exact resultCell_holds _ (List.Forall₂.cons here (holds_one slice)) (orFault_ok.mp put)

theorem keepInvariant_holds {inv : Nat → Bool} {j : Nat} {s : Store V} {cs : List (Cell V)}
    {vs : List V} (holds : HoldAll s cs vs) :
    HoldAll s (keepInvariant inv j cs) (keepInvariant inv j vs) := by
  induction holds generalizing j with
  | nil => exact List.Forall₂.nil
  | cons here _ ih =>
    simp only [keepInvariant]
    split
    · exact List.Forall₂.cons here ih
    · exact ih

theorem merge_holds {inv : Nat → Bool} {j : Nat} {s : Store V} {cs cells : List (Cell V)}
    {vs results outs : List V} (len : cs.length = vs.length)
    (kept : HoldAll s (keepInvariant inv j cs) (keepInvariant inv j vs))
    (holds : HoldAll s cells results) (merged : mergeState inv j vs results = .ok outs) :
    ∃ cs', mergeState inv j cs cells = .ok cs' ∧ HoldAll s cs' outs := by
  induction cs generalizing vs cells results outs j with
  | nil =>
    cases vs with
    | cons v vs => simp at len
    | nil =>
      cases merged
      exact ⟨[], rfl, List.Forall₂.nil⟩
  | cons c cs ih =>
    cases vs with
    | nil => simp at len
    | cons v vs =>
      have len : cs.length = vs.length := by simpa using len
      cases here : inv j with
      | true =>
        simp only [keepInvariant, here, if_true] at kept
        simp only [mergeState, here, if_true, except_bind_ok, Except.ok.injEq] at merged ⊢
        obtain ⟨outs, tail, rfl⟩ := merged
        cases kept with
        | cons first kept =>
          obtain ⟨cs', ok, all⟩ := ih len kept holds tail
          exact ⟨c :: cs', ⟨cs', ok, rfl⟩, List.Forall₂.cons first all⟩
      | false =>
        simp only [keepInvariant, here, Bool.false_eq_true, if_false] at kept
        simp only [mergeState, here, Bool.false_eq_true, if_false] at merged ⊢
        cases holds with
        | nil => cases merged
        | @cons cell w cells results first holds =>
          obtain ⟨outs, tail, same⟩ := except_bind_ok.mp merged
          cases same
          obtain ⟨cs', ok, all⟩ := ih len kept holds tail
          exact ⟨cell :: cs', except_bind_ok.mpr ⟨cs', ok, rfl⟩, List.Forall₂.cons first all⟩

theorem dropInvariant_length {W : Type} {inv : Nat → Bool} {j : Nat} {vs : List V} {ws : List W}
    (len : vs.length = ws.length) :
    (dropInvariant inv j vs).length = (dropInvariant inv j ws).length := by
  induction vs generalizing ws j with
  | nil =>
    cases ws with
    | nil => rfl
    | cons w ws => simp at len
  | cons v vs ih =>
    cases ws with
    | nil => simp at len
    | cons w ws =>
      have tail : (dropInvariant inv (j + 1) vs).length = (dropInvariant inv (j + 1) ws).length :=
        ih (by simpa using len)
      simp only [dropInvariant]
      split
      · exact tail
      · simp [tail]

theorem interpret_merged {body : SubGraph} {vs outs : List V} (distinct : (bodyIds body).Nodup)
    (count : body.outputs.length = vs.length) (h : interpret S blobs fuel body [] vs = .ok outs) :
    outs.length = body.outputs.length ∧
      mergeState (invariant body) 0 vs (dropInvariant (invariant body) 0 outs) = .ok outs := by
  obtain ⟨env, final, bound, ran, read⟩ := interpret_ok.mp h
  have len : outs.length = body.outputs.length := by simpa using fetch_length read
  refine ⟨len, merge_drop (len.trans count) fun k inv => ?_⟩
  rw [Nat.zero_add] at inv
  exact invariant_same distinct bound ran read inv

theorem capturedStep_meets {body : SubGraph} (distinct : (bodyIds body).Nodup) (path : List Nat) :
    Refines (fun vs => body.outputs.length = vs.length)
      (fun live m cs => capturedStep S blobs fuel ⟨path, stepWidth body⟩ body live m cs)
      (interpret S blobs fuel body []) := by
  intro live m cs vs outs used good holds count h
  obtain ⟨len, merged⟩ := interpret_merged distinct count h
  have cells_len : cs.length = vs.length := List.Forall₂.length_eq holds
  have width : (dropInvariant (invariant body) 0 outs).length = stepWidth body :=
    dropInvariant_length len
  have invariants : HoldAll m.store (keepInvariant (invariant body) 0 cs)
      (keepInvariant (invariant body) 0 vs) := keepInvariant_holds holds
  refine meets_lift_bind (readCells_ok holds) (meets_lift_bind h ?_)
  dsimp only
  split
  · have used' := used_append used (holdAll_used invariants)
    obtain ⟨keeps, fresh⟩ := allocAll_spec used' (dropInvariant (invariant body) 0 outs)
    obtain ⟨cs', ok, all⟩ := merge_holds cells_len (holdAll_right invariants keeps) fresh merged
    refine meets_lift_bind ok (meets_pure ⟨keeps_left keeps, ?_, all⟩)
    intro site again
    by_cases same : site = ⟨path, stepWidth body⟩
    · subst same
      simp only [Function.update_self, allocAll_feet]
      refine ⟨by simpa using width, List.nodup_range' .., ?_⟩
      intro a mem
      obtain ⟨_, inside⟩ := List.mem_range'_1.mp mem
      simpa only [allocAll_next] using inside
    · simp only [Function.update_of_ne same] at again ⊢
      obtain ⟨count, distinct, old⟩ := good site again
      exact ⟨count, distinct, fun a mem => Nat.lt_of_lt_of_le (old a mem) keeps.grows⟩
  · rename_i replay
    obtain ⟨fixed, apart, old⟩ := good ⟨path, stepWidth body⟩ (Nat.le_of_not_lt replay)
    refine meets_watch fun fine => ?_
    have clear : ∀ a ∈ live ++ feet (keepInvariant (invariant body) 0 cs),
        a ∉ (m.jits ⟨path, stepWidth body⟩).outs := by
      intro a mem overwritten
      have free := List.all_eq_true.mp fine a overwritten
      rw [List.contains_iff_mem.mpr mem] at free
      cases free
    have keeps := writeAll_keeps (s := m.store) clear (dropInvariant (invariant body) 0 outs)
    have written := writeAll_holds (s := m.store) (fixed.trans width.symm) apart old
    obtain ⟨cs', ok, all⟩ := merge_holds cells_len (holdAll_right invariants keeps) written merged
    exact meets_lift_bind ok (meets_pure ⟨keeps_left keeps, good_grows good keeps.grows, all⟩)

theorem head_holds {s : Store V} {cs : List (Cell V)} {vs : List V} {v : V} (holds : HoldAll s cs vs)
    (head : vs.head? = some v) : ∃ c, orFault cs.head? = .ok c ∧ Holds s c v := by
  cases holds with
  | nil => cases head
  | cons here _ =>
    cases head
    exact ⟨_, rfl, here⟩

theorem test_meets {cond : List Nat → Machine V → List (Cell V) → Watched EvalError (Cells V)}
    {condV : List V → Except EvalError (List V)} (conds : Refines (fun _ => True) cond condV)
    {state : List (Cell V)} {vs tests : List V} {go : Bool} (used : Used live m) (good : Good m)
    (holds : HoldAll m.store state vs) (tested : condV vs = .ok tests)
    (decided : tests.head?.bind S.truthy = some go) :
    Meets (testCells S cond live m state) fun r =>
      r.1 = go ∧ Keeps live m.store r.2.store ∧ Good r.2 ∧ HoldAll r.2.store state vs := by
  obtain ⟨test, head, truth⟩ := Option.bind_eq_some_iff.mp decided
  refine meets_bind
    (conds _ m state vs _ (used_append used (holdAll_used holds)) good holds trivial tested) ?_
  rintro ⟨cells, m₁⟩ first
  obtain ⟨c, head_ok, test_holds⟩ := head_holds first.holds head
  refine meets_lift_bind head_ok (meets_lift_bind (readCell_ok test_holds)
    (meets_lift_bind (orFault_ok.mpr truth) (meets_pure ?_)))
  exact ⟨rfl, keeps_left first.keeps, first.good, holdAll_right holds first.keeps⟩

theorem loop_meets {cond step : List Nat → Machine V → List (Cell V) → Watched EvalError (Cells V)}
    {condV bodyV : List V → Except EvalError (List V)} {fit : List V → Prop}
    (conds : Refines (fun _ => True) cond condV) (steps : Refines fit step bodyV)
    (keep : ∀ vs outs, fit vs → bodyV vs = .ok outs → fit outs) {state : List (Cell V)}
    {vs outs : List V} (used : Used live m) (good : Good m) (holds : HoldAll m.store state vs)
    (fits : fit vs) (h : whileLoop S condV bodyV fuel vs = .ok outs) :
    Meets (loopCells S cond step live fuel m state) (Post live m outs) := by
  induction fuel generalizing m state vs with
  | zero =>
    unfold whileLoop at h
    obtain ⟨tests, tested, h⟩ := except_bind_ok.mp h
    obtain ⟨go, decided, h⟩ := except_bind_ok.mp h
    unfold loopCells
    refine meets_bind (test_meets conds used good holds tested (orFault_ok.mp decided)) ?_
    rintro ⟨go', m₁⟩ ⟨same, keeps₁, good₁, holds₁⟩
    obtain rfl : go' = go := same
    dsimp only
    cases go' with
    | true => cases h
    | false =>
      cases h
      exact meets_pure ⟨keeps₁, good₁, holds₁⟩
  | succ fuel ih =>
    unfold whileLoop at h
    obtain ⟨tests, tested, h⟩ := except_bind_ok.mp h
    obtain ⟨go, decided, h⟩ := except_bind_ok.mp h
    unfold loopCells
    refine meets_bind (test_meets conds used good holds tested (orFault_ok.mp decided)) ?_
    rintro ⟨go', m₁⟩ ⟨same, keeps₁, good₁, holds₁⟩
    obtain rfl : go' = go := same
    dsimp only
    cases go' with
    | false =>
      cases h
      exact meets_pure ⟨keeps₁, good₁, holds₁⟩
    | true =>
      obtain ⟨next, stepped, h⟩ := except_bind_ok.mp h
      simp only [if_true]
      have used₁ := used_keeps used keeps₁
      refine meets_bind (steps _ m₁ state vs _ used₁ good₁ holds₁ fits stepped) ?_
      rintro ⟨stepped_cells, m₂⟩ second
      have used₂ := used_keeps used₁ second.keeps
      cases tensors : next.all S.isTensor with
      | false => simp [tensors] at h
      | true =>
        simp only [tensors, if_true] at h
        refine meets_bind (realizeState_meets used₂ second.good second.holds tensors) ?_
        rintro ⟨next_cells, m₃⟩ third
        have kept := keeps_trans keeps₁ (keeps_trans second.keeps third.keeps)
        exact meets_mono (ih (used_keeps used kept) third.good third.holds (keep _ _ fits stepped) h)
          fun r post => post.after kept

theorem fold_meets {fn : List Nat → Machine V → List (Cell V) → Watched EvalError (Cells V)}
    {fnV : List V → Except EvalError (List V)} (fns : Refines (fun _ => True) fn fnV)
    {acc : Cell V} {a v : V} {cells : List (Cell V)} {parts : List V} (used : Used live m)
    (good : Good m) (holds : Holds m.store acc a) (all : HoldAll m.store cells parts)
    (h : foldParts fnV a parts = .ok v) : Meets (foldCells fn live m acc cells) (PostOne live m v) := by
  induction cells generalizing m acc a parts with
  | nil =>
    cases all
    cases h
    exact meets_pure ⟨keeps_refl _ _, good, holds⟩
  | cons c rest ih =>
    obtain ⟨part, parts, here, tail, rfl⟩ := List.forall₂_cons_left_iff.mp all
    obtain ⟨outs, ran, h⟩ := except_bind_ok.mp h
    obtain ⟨next, head, h⟩ := except_bind_ok.mp h
    have pair : HoldAll m.store [acc, c] [a, part] := List.Forall₂.cons holds (holds_one here)
    refine meets_bind
      (fns _ m _ _ _ (used_append used (holdAll_used tail)) good pair trivial ran) ?_
    rintro ⟨cells, m₁⟩ first
    obtain ⟨acc', head_ok, next_holds⟩ := head_holds first.holds (orFault_ok.mp head)
    have keeps := keeps_left first.keeps
    refine meets_lift_bind head_ok ?_
    exact meets_mono (ih (used_keeps used keeps) first.good next_holds
      (holdAll_right tail first.keeps) h)
      fun r post => post.after keeps

theorem partCells_hold (views : Views) {s : Store V} {op : FoldOp} {t : Cell V} {v : V} {parts : List V}
    (holds : Holds s t v) (made : S.foldParts op v = some parts) :
    HoldAll s (partCells S views op t parts.length) parts := by
  refine List.forall₂_iff_get.mpr ⟨by simp [partCells], ?_⟩
  intro k inside inside'
  simp only [partCells, List.get_eq_getElem, List.getElem_map, List.getElem_range]
  refine resultCell_holds _ (holds_one holds) ?_
  simp [made]

/-- What the captured steps rely on: in the body of every while that is captured, distinct
    ids and one output for each loop variable. -/
def stepFits (inputs : List Nat) (body : SubGraph) : Prop :=
  subRequiresEager body = false → (bodyIds body).Nodup ∧ body.outputs.length = inputs.length

mutual
def Tidy : Node → Prop
  | .op _ _ _ _ _ => True
  | .fold _ _ fn _ _ _ => SubTidy fn
  | .loop inputs cond body _ => stepFits inputs body ∧ SubTidy cond ∧ SubTidy body

def SubTidy : SubGraph → Prop
  | .mk _ _ nodes _ => AllTidy nodes

def AllTidy : List Node → Prop
  | [] => True
  | node :: rest => Tidy node ∧ AllTidy rest
end

theorem liveOf_used {ids : List Nat} {cells : Env (Cell V)} {env : Env V}
    (rel : Related (Holds m.store) (· ∈ ids) cells env) : Used (liveOf cells ids) m := by
  intro a mem
  obtain ⟨id, listed, mem⟩ := List.mem_flatMap.mp mem
  have here := rel id listed
  cases value : cells id with
  | none => simp [value] at mem
  | some c =>
    rw [value] at here mem
    generalize env id = y at here
    cases here with
    | some holds => exact holds.used a mem

theorem related_keep {ids : List Nat} {cells : Env (Cell V)} {env : Env V}
    (rel : Related (Holds m.store) (· ∈ ids) cells env)
    (keeps : Keeps (live ++ liveOf cells ids) m.store m'.store) :
    Related (Holds m'.store) (· ∈ ids) cells env := by
  refine related_mono rel (fun _ mem => mem) ?_
  intro id c v mem value holds
  refine holds_keep holds keeps fun a foot => List.mem_append_right _ ?_
  exact List.mem_flatMap.mpr ⟨id, mem, by simpa [value] using foot⟩

structure PostEnv (live ids : List Nat) (m : Machine V) (env : Env V)
    (r : Env (Cell V) × Machine V) : Prop where
  keeps : Keeps live m.store r.2.store
  good : Good r.2
  related : Related (Holds r.2.store) (· ∈ ids) r.1 env

theorem args_hold {s : Store V} {inputs : List InputSpec} {params : List (Cell V)} {vs args : List V}
    (holds : HoldAll s params vs)
    (given : inputs.mapM (fun i => orFault vs[i.index]?) = .ok args) :
    ∃ cells, inputs.mapM (fun i => orFault params[i.index]?) = .ok cells ∧ HoldAll s cells args := by
  induction inputs generalizing args with
  | nil =>
    cases given
    exact ⟨[], rfl, List.Forall₂.nil⟩
  | cons i rest ih =>
    simp only [List.mapM_cons, except_bind_ok, pure, Except.pure, Except.ok.injEq] at given ⊢
    obtain ⟨v, here, args, tail, rfl⟩ := given
    obtain ⟨c, at_i, c_holds⟩ := holdAll_getElem holds (orFault_ok.mp here)
    obtain ⟨cells, ok, all⟩ := ih tail
    exact ⟨c :: cells, ⟨c, orFault_ok.mpr at_i, cells, ok, rfl⟩, List.Forall₂.cons c_holds all⟩

theorem related_blank {R : Cell V → V → Prop} (ids : Nat → Prop) :
    Related R ids (fun _ => none) (fun _ => none) :=
  fun _ _ => Option.Rel.none

mutual
theorem runCells_meets {node : Node} (tidy : Tidy node) (path : List Nat) :
    Refines (fun vs => vs.length = (nodeReads node).length)
      (fun live m cs => runCells S blobs fuel views path live m node cs)
      (runNode S blobs fuel [] node) := by
  intro live m cs vs outs used good holds len h
  cases node with
  | op id op inputs shape dtype =>
    obtain ⟨v, applied, same⟩ := except_bind_ok.mp h
    cases same
    simp only [runCells]
    refine meets_bind (applyCells_meets holds applied) fun c c_holds => meets_pure ?_
    exact ⟨keeps_refl _ _, good, holds_one c_holds⟩
  | fold id op fn inputs shape dtype =>
    simp only [runNode, except_bind_ok] at h
    obtain ⟨t, at_t, a, at_a, start, started, parts, made, v, folded, w, finished, same⟩ := h
    cases same
    obtain ⟨tc, tc_at, tc_holds⟩ := holdAll_getElem holds (orFault_ok.mp at_t)
    obtain ⟨ac, ac_at, ac_holds⟩ := holdAll_getElem holds (orFault_ok.mp at_a)
    simp only [runCells]
    refine meets_lift_bind (orFault_ok.mpr tc_at) (meets_lift_bind (orFault_ok.mpr ac_at)
      (meets_lift_bind (readCell_ok tc_holds) (meets_lift_bind made ?_)))
    have start_holds := resultCell_holds (views.fold op)
      (f := fun vs => vs.head?.bind (S.foldAcc op t)) (holds_one ac_holds)
      (by simpa using orFault_ok.mp started)
    have parts_hold := partCells_hold views tc_holds (orFault_ok.mp made)
    refine meets_bind (fold_meets (interpretCells_meets tidy (0 :: path)) used good start_holds
      parts_hold folded) ?_
    rintro ⟨acc, m₁⟩ post
    refine meets_pure ⟨post.keeps, post.good, holds_one ?_⟩
    exact resultCell_holds _ (holds_one post.holds) (by simpa using orFault_ok.mp finished)
  | loop inputs cond body outputs =>
    obtain ⟨fits, cond_tidy, body_tidy⟩ := tidy
    simp only [runNode] at h
    split at h
    · rename_i tensors
      simp only [runCells]
      refine meets_bind (realizeState_meets used good holds tensors) ?_
      rintro ⟨state, m₁⟩ first
      have used₁ := used_keeps used first.keeps
      have conds := interpretCells_meets cond_tidy (0 :: path)
      cases eager : subRequiresEager body with
      | true =>
        simp only [if_true]
        have bodies := interpretCells_meets body_tidy (1 :: path)
        exact meets_mono (loop_meets conds bodies (fun _ _ _ _ => trivial) used₁ first.good first.holds
          trivial h) fun r post => post.after first.keeps
      | false =>
        simp only [Bool.false_eq_true, if_false]
        obtain ⟨distinct, count⟩ := fits eager
        have keep : ∀ vs outs, body.outputs.length = vs.length →
            interpret S blobs fuel body [] vs = .ok outs → body.outputs.length = outs.length :=
          fun vs outs count ran => (interpret_merged distinct count ran).1.symm
        exact meets_mono (loop_meets conds (capturedStep_meets distinct path) keep used₁ first.good
          first.holds (count.trans len.symm) h) fun r post => post.after first.keeps
    · cases h

theorem interpretCells_meets {fn : SubGraph} (tidy : SubTidy fn) (path : List Nat) :
    Refines (fun _ => True) (fun live m cs => interpretCells S blobs fuel views path live m fn cs)
      (interpret S blobs fuel fn []) := by
  intro live m params vs outs used good holds _ h
  cases fn with
  | mk inputs constants nodes outputs =>
    obtain ⟨env, final, bound, ran, read⟩ := interpret_ok.mp h
    obtain ⟨made, args, made_ok, given, rfl⟩ := bindParams_ok.mp bound
    obtain ⟨arg_cells, arg_ok, args_all⟩ := args_hold holds given
    simp only [interpretCells]
    refine meets_lift_bind made_ok (meets_lift_bind arg_ok ?_)
    obtain ⟨keeps, made_all⟩ := allocAll_spec (used_append used (holdAll_used args_all)) made
    have start := assign_related (inputs.map (·.id))
      (assign_related (constants.map (·.id)) (related_blank fun _ => True) made_all)
      (holdAll_right args_all keeps)
    have good' := good_grows good keeps.grows
    have used' : Used live { m with store := (m.store.allocAll made).2 } := used_keeps used keeps
    refine meets_bind (evalCells_meets tidy path 0 used' good'
      (related_mono start (fun _ _ => trivial) fun _ _ _ _ _ r => r) ran) ?_
    rintro ⟨cells, m₁⟩ post
    obtain ⟨out_cells, out_ok, all⟩ := fetch_related _ post.related read
    exact meets_lift_bind out_ok
      (meets_pure ⟨keeps_trans (keeps_left keeps) post.keeps, post.good, all⟩)

theorem evalCells_meets {m : Machine V} {live : List Nat} {nodes : List Node} (tidy : AllTidy nodes)
    {outputs : List Nat} (path : List Nat) (idx : Nat) {cells : Env (Cell V)} {env final : Env V}
    (used : Used live m)
    (good : Good m)
    (rel : Related (Holds m.store) (· ∈ nodes.flatMap Node.inputs ++ outputs) cells env)
    (h : evalNodes S blobs fuel [] nodes env = .ok final) :
    Meets (evalCells S blobs fuel views path live outputs idx m nodes cells)
      (PostEnv live outputs m final) := by
  cases nodes with
  | nil =>
    cases h
    exact meets_pure ⟨keeps_refl _ _, good, rel⟩
  | cons node rest =>
    obtain ⟨here, later⟩ := tidy
    obtain ⟨vs, fetched, h⟩ := except_bind_ok.mp h
    obtain ⟨outs, ran, h⟩ := except_bind_ok.mp h
    have reads : Related (Holds m.store) (· ∈ nodeReads node) cells env :=
      related_mono rel (fun id mem => List.mem_append_left _
        (List.mem_flatMap.mpr ⟨node, List.mem_cons_self .., nodeReads_sub mem⟩)) fun _ _ _ _ _ r => r
    have needed : Related (Holds m.store) (· ∈ rest.flatMap Node.inputs ++ outputs) cells env := by
      refine related_mono rel (fun id mem => ?_) fun _ _ _ _ _ r => r
      rw [List.flatMap_cons, List.append_assoc]
      exact List.mem_append_right _ mem
    obtain ⟨cs, cs_ok, cs_hold⟩ := fetch_related EvalError.missing reads fetched
    simp only [evalCells]
    refine meets_lift_bind cs_ok ?_
    refine meets_bind (runCells_meets here (idx :: path) _ m cs vs outs
      (used_append used (liveOf_used needed)) good cs_hold (fetch_length fetched) ran) ?_
    rintro ⟨out_cells, m₁⟩ post
    have keeps := keeps_left post.keeps
    refine meets_mono (evalCells_meets later path (idx + 1) (used_keeps used keeps) post.good
      (assign_related _ (related_keep needed post.keeps) post.holds) h) ?_
    intro r rest_post
    exact ⟨keeps_trans keeps rest_post.keeps, rest_post.good, rest_post.related⟩
end

theorem execute_meets {g : Graph} (tidy : AllTidy g.nodes) {args outs : List V} (good : Good m)
    (h : graphValues S blobs fuel g args = .ok outs) :
    Meets (execute S blobs fuel views g m args) fun r => r.1 = outs ∧ Good r.2 := by
  obtain ⟨made, made_ok, h⟩ := except_bind_ok.mp h
  obtain ⟨final, ran, read⟩ := except_bind_ok.mp h
  have none_used : ∀ a ∈ ([] : List Nat), a < m.store.next := by simp
  have none_live : ∀ m : Machine V, Used [] m := by simp [Used]
  obtain ⟨keeps, made_all⟩ := allocAll_spec none_used made
  obtain ⟨keeps', args_all⟩ := allocAll_spec (holdAll_used made_all) args
  have start := assign_related (g.inputs.map (·.id))
    (assign_related (g.constants.map (·.id)) (related_blank fun _ => True)
      (holdAll_keep made_all keeps' fun _ mem => mem)) args_all
  have good' := good_grows good (Nat.le_trans keeps.grows keeps'.grows)
  refine meets_lift_bind made_ok ?_
  refine meets_bind (evalCells_meets tidy [] 0 (none_live _) good'
    (related_mono start (fun _ _ => trivial) fun _ _ _ _ _ r => r) ran) ?_
  rintro ⟨cells, m₁⟩ post
  obtain ⟨out_cells, out_ok, all⟩ := fetch_related EvalError.missing post.related read
  exact meets_lift_bind out_ok (meets_lift_bind (readCells_ok all) (meets_pure ⟨rfl, post.good⟩))

theorem executeAll_meets {g : Graph} (tidy : AllTidy g.nodes) {argss outss : List (List V)}
    (good : Good m)
    (h : List.Forall₂ (fun args outs => graphValues S blobs fuel g args = .ok outs) argss outss) :
    Meets (executeAll S blobs fuel views g m argss) (· = outss) := by
  induction argss generalizing m outss with
  | nil =>
    cases h
    exact meets_pure rfl
  | cons args rest ih =>
    obtain ⟨outs, outss, here, tail, rfl⟩ := List.forall₂_cons_left_iff.mp h
    refine meets_bind (execute_meets tidy good here) ?_
    rintro ⟨_, m₁⟩ ⟨rfl, good₁⟩
    refine meets_bind (ih good₁ tail) ?_
    rintro _ rfl
    exact meets_pure rfl

/-- Executes from a fresh worker on, with any number of replays: while no replay overwrites
    what is still needed, all results are those over immutable values. -/
theorem runs_agree {g : Graph} (tidy : AllTidy g.nodes) {argss outss : List (List V)}
    (h : List.Forall₂ (fun args outs => graphValues S blobs fuel g args = .ok outs) argss outss)
    (safe : (executeAll S blobs fuel views g (Machine.fresh V) argss).safe = true) :
    (executeAll S blobs fuel views g (Machine.fresh V) argss).result = .ok outss := by
  obtain ⟨_, ok, rfl⟩ := executeAll_meets tidy (good_fresh V) h safe
  exact ok

def counters : Sem Int where
  number j _ _ := j.int?
  literal _ _ _ := none
  prim op _ vs _ _ := match op, vs with
    | .binary .add, [a, b] => some (a + b)
    | .comparison .less, [a, b] => some (if a < b then 1 else 0)
    | _, _ => none
  slice _ _ _ _ _ _ := none
  putSlice _ _ _ _ _ := none
  isTensor _ := true
  item a := some a
  truthy a := some (a != 0)
  foldAcc _ _ _ := none
  foldParts _ _ := none
  foldFinish _ _ _ := none

def below (index count : Nat) : SubGraph :=
  .mk [⟨0, index, [], .s32⟩] [⟨1, .value (.int count), [], .s32⟩]
    [.op 2 (.prim (.comparison .less) []) [0, 1] [] .u8] [⟨2, [], .u8⟩]

def plusOne (id arg one : Nat) : Node := .op id (.prim (.binary .add) []) [arg, one] [] .s32

/-- Over `(x, prev, i)`, for `i < 2`: the inner loop's `x`, then `prev`, then `i + 1`. -/
def countTwice (prev : Nat) : Graph where
  inputs := [⟨0, 0, [], .s32⟩, ⟨1, 1, [], .s32⟩, ⟨2, 2, [], .s32⟩]
  constants := []
  nodes := [.loop [0, 1, 2] (below 2 2)
    (.mk [⟨0, 0, [], .s32⟩, ⟨1, 1, [], .s32⟩, ⟨2, 2, [], .s32⟩]
      [⟨3, .value (.int 0), [], .s32⟩, ⟨4, .value (.int 1), [], .s32⟩]
      [.loop [0, 3] (below 1 2)
        (.mk [⟨0, 0, [], .s32⟩, ⟨1, 1, [], .s32⟩] [⟨2, .value (.int 1), [], .s32⟩]
          [plusOne 3 0 2, plusOne 4 1 2] [⟨3, [], .s32⟩, ⟨4, [], .s32⟩])
        [⟨5, [], .s32⟩, ⟨6, [], .s32⟩],
        plusOne 7 2 4]
      [⟨5, [], .s32⟩, ⟨prev, [], .s32⟩, ⟨7, [], .s32⟩])
    [⟨3, [], .s32⟩, ⟨4, [], .s32⟩, ⟨5, [], .s32⟩]]
  outputs := [⟨3, [], .s32⟩, ⟨4, [], .s32⟩, ⟨5, [], .s32⟩]
  blobs := []

def noViews : Views := ⟨fun _ => false, fun _ => false⟩

theorem countTwice_tidy (prev : Nat) : AllTidy (countTwice prev).nodes := by
  refine ⟨⟨?_, ⟨trivial, trivial⟩, ⟨?_, ⟨trivial, trivial⟩, ⟨trivial, trivial, trivial⟩⟩,
    trivial, trivial⟩, trivial⟩
  · intro captured
    cases captured
  · intro _
    exact ⟨by decide, rfl⟩

/-- With the old `x` kept as `prev`, the inner replay writes over it. -/
theorem countTwice_overwrites :
    Validate.validate (countTwice 0).toWire [] Validate.maxNodes = .ok () ∧
      graphValues counters [] 3 (countTwice 0) [0, 0, 0] = .ok [4, 2, 2] ∧
      (executeAll counters [] 3 noViews (countTwice 0) (Machine.fresh Int) [[0, 0, 0]]).result =
        .ok [[4, 4, 2]] :=
  ⟨rfl, by decide +kernel, by decide +kernel⟩

theorem countTwice_agrees :
    (executeAll counters [] 3 noViews (countTwice 2) (Machine.fresh Int)
    [[0, 0, 0], [5, 0, 0]]).result =
      .ok [[4, 1, 2], [9, 1, 2]] :=
  runs_agree (countTwice_tidy 2) (List.Forall₂.cons (by decide +kernel)
    (List.Forall₂.cons (by decide +kernel) List.Forall₂.nil)) (by decide +kernel)

end NxTinygrad.ReplayRuns
