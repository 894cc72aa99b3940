import NxTinygrad.ReplayRuns

/- `_run_while` with steps that raise: a replay may have written some of its output buffers
   before it does, and the interpretation that takes over starts from the same state. -/
namespace NxTinygrad.Fallback
open IR StraightLine Interpreter Capture SymbolicStep Watch Buffers Replay ReplayRuns

/-- How a call of the captured step ends: it returns, or it raises after its replay put these
    values into the output buffers with these numbers, one after the other. -/
inductive Ending (V : Type) where
  | returns
  | raises (writes : List (Nat × V))

variable {V : Type}

def landed (jit : Jit) (writes : List (Nat × V)) : List (Nat × V) :=
  if jit.calls < 2 then [] else writes.filterMap fun w => jit.outs[w.1]?.map fun a => (a, w.2)

/-- What a step that raises leaves behind. Changing a buffer that is still needed is watched. -/
def raised [DecidableEq V] (site : Site) (live : List Nat) (m : Machine V) (state : List (Cell V))
    (writes : List (Nat × V)) : Watched EvalError (Machine V) := do
  let hit := landed (m.jits site) writes
  watch (hit.all fun w => !(live ++ feet state).contains w.1 || m.store.heap w.1 == some w.2)
  pure { m with store := m.store.writeAll (hit.map (·.1)) (hit.map (·.2)) }

/-- `try: ... except Exception: ...`, for exceptions that leave nothing behind. -/
def orElse {E α : Type} (w handler : Watched E α) : Watched E α :=
  match w.result with
  | .ok _ => w
  | .error _ => ⟨handler.result, w.safe && handler.safe⟩

section
variable (S : Sem V) (blobs : List Blob) (fuel : Nat) (views : Views) (path : List Nat)
variable (cond body : SubGraph)

def interpreted (live : List Nat) (m : Machine V) (state : List (Cell V)) :
    Watched EvalError (Bool × Cells V) := do
  let r ← interpretCells S blobs fuel views (1 :: path) live m body state
  pure (false, r)

variable [DecidableEq V]

def tryStep (ending : Ending V) (live : List Nat) (m : Machine V) (state : List (Cell V)) :
    Watched EvalError (Bool × Cells V) :=
  match ending with
  | .returns =>
      orElse (do
        let r ← capturedStep S blobs fuel ⟨path, stepWidth body⟩ body live m state
        pure (true, r)) (interpreted S blobs fuel views path body live m state)
  | .raises writes => do
      let m ← raised ⟨path, stepWidth body⟩ live m state writes
      interpreted S blobs fuel views path body live m state

def iterate (captured : Bool) (ending : Ending V) (live : List Nat) (m : Machine V)
    (state : List (Cell V)) : Watched EvalError (Bool × Cells V) :=
  if captured then tryStep S blobs fuel views path body ending live m state
  else interpreted S blobs fuel views path body live m state

/-- The loop, for at most `left` iterations; `endings k` is how the `k`-th call of the step ends. -/
def loopSteps (endings : Nat → Ending V) (live : List Nat) :
    Nat → Nat → Bool → Machine V → List (Cell V) → Watched EvalError (Cells V)
  | left, k, captured, m, state => do
      let (go, m) ← testCells S
        (fun live m cs => interpretCells S blobs fuel views (0 :: path) live m cond cs) live m state
      if go then
        match left with
        | 0 => lift (.error .outOfFuel)
        | left + 1 => do
            let (captured, next, m) ←
              iterate S blobs fuel views path body captured (endings k) live m state
            let (next, m) ← realizeState S m next
            loopSteps endings live left (k + 1) captured m next
      else pure (state, m)

def runWhile (endings : Nat → Ending V) (live : List Nat) (m : Machine V) (inputs : List (Cell V)) :
    Watched EvalError (Cells V) := do
  let (state, m) ← realizeState S m inputs
  loopSteps S blobs fuel views path cond body endings live fuel 0 true m state

end

def finalValues (w : Watched EvalError (Cells V)) : Option (List V) :=
  match w.result with
  | .ok r => values r.2.store.heap r.1
  | .error _ => none

section
variable {S : Sem V} {blobs : List Blob} {fuel : Nat} {views : Views} {path : List Nat}
variable {cond body : SubGraph} {m : Machine V} {live : List Nat} {state : List (Cell V)}
  {vs outs : List V}

theorem interpreted_meets (tidy : SubTidy body) (used : Used live m) (good : Good m)
    (holds : HoldAll m.store state vs) (ran : interpret S blobs fuel body [] vs = .ok outs) :
    Meets (interpreted S blobs fuel views path body live m state) fun r => Post live m outs r.2 :=
  meets_bind (interpretCells_meets tidy (1 :: path) live m state vs outs used good holds trivial ran)
    fun _ post => meets_pure post

theorem meets_orElse {E α : Type} {w handler : Watched E α} {post : α → Prop} (first : Meets w post) :
    Meets (orElse w handler) post := by
  intro safe
  unfold orElse at safe ⊢
  cases result : w.result with
  | ok a =>
    rw [result] at safe
    obtain ⟨a', same, good⟩ := first safe
    exact ⟨a', same, good⟩
  | error e =>
    simp only [result, Bool.and_eq_true] at safe
    obtain ⟨a, ok, -⟩ := first safe.1
    cases result.symm.trans ok

variable [DecidableEq V]

theorem raised_meets (site : Site) (good : Good m) (holds : HoldAll m.store state vs)
    (writes : List (Nat × V)) : Meets (raised site live m state writes) fun m' =>
      Keeps live m.store m'.store ∧ Good m' ∧ HoldAll m'.store state vs := by
  refine meets_watch fun fine => meets_pure ?_
  have same : ∀ w ∈ landed (m.jits site) writes, w.1 ∈ live ++ feet state →
      m.store.heap w.1 = some w.2 := by
    intro w mem needed
    have here := List.all_eq_true.mp fine w mem
    rw [List.contains_iff_mem.mpr needed] at here
    simpa using here
  have keeps := writeAll_same same
  exact ⟨keeps_left keeps, good_grows good keeps.grows, holdAll_right holds keeps⟩

theorem tryStep_early {writes : List (Nat × V)}
    (early : (m.jits ⟨path, stepWidth body⟩).calls < 2 ∨ writes = []) :
    tryStep S blobs fuel views path body (.raises writes) live m state =
      interpreted S blobs fuel views path body live m state := by
  have none : landed (m.jits ⟨path, stepWidth body⟩) writes = [] := by
    unfold landed
    rcases early with first | rfl
    · rw [if_pos first]
    · rw [List.filterMap_nil, ite_self]
  have unchanged : raised ⟨path, stepWidth body⟩ live m state writes = ⟨.ok m, true⟩ := by
    unfold raised
    rw [none]
    rfl
  simp only [tryStep, unchanged]
  rfl

theorem tryStep_meets (distinct : (bodyIds body).Nodup) (tidy : SubTidy body)
    (count : body.outputs.length = vs.length) (used : Used live m) (good : Good m)
    (holds : HoldAll m.store state vs) (ran : interpret S blobs fuel body [] vs = .ok outs)
    (ending : Ending V) : Meets (tryStep S blobs fuel views path body ending live m state) fun r =>
      Post live m outs r.2 := by
  cases ending with
  | returns =>
    refine meets_orElse (meets_bind (capturedStep_meets distinct path live m state vs outs used good
      holds count ran) fun r post => meets_pure post)
  | raises writes =>
    refine meets_bind (raised_meets _ good holds writes) ?_
    rintro m₁ ⟨keeps, good₁, holds₁⟩
    exact meets_mono (interpreted_meets tidy (used_keeps used keeps) good₁ holds₁ ran) fun r post =>
      post.after keeps

theorem iterate_meets (distinct : (bodyIds body).Nodup) (tidy : SubTidy body)
    (count : body.outputs.length = vs.length) (used : Used live m) (good : Good m)
    (holds : HoldAll m.store state vs) (ran : interpret S blobs fuel body [] vs = .ok outs)
    (captured : Bool) (ending : Ending V) :
    Meets (iterate S blobs fuel views path body captured ending live m state) fun r =>
      Post live m outs r.2 := by
  cases captured with
  | true => exact tryStep_meets distinct tidy count used good holds ran ending
  | false => exact interpreted_meets tidy used good holds ran

theorem loopSteps_meets (conds : SubTidy cond) (distinct : (bodyIds body).Nodup) (tidy : SubTidy body)
    (endings : Nat → Ending V) {left k : Nat} {captured : Bool}
    (count : body.outputs.length = vs.length)
    (used : Used live m) (good : Good m) (holds : HoldAll m.store state vs)
    (h : whileLoop S (fun s => interpret S blobs fuel cond [] s)
      (fun s => interpret S blobs fuel body [] s) left vs = .ok outs) :
    Meets (loopSteps S blobs fuel views path cond body endings live left k captured m state)
      (Post live m outs) := by
  have tests := @interpretCells_meets V S blobs fuel views cond conds (0 :: path)
  induction left generalizing k captured m state vs with
  | zero =>
    unfold whileLoop at h
    obtain ⟨tested, ran, h⟩ := except_bind_ok.mp h
    obtain ⟨go, decided, h⟩ := except_bind_ok.mp h
    unfold loopSteps
    refine meets_bind (test_meets tests used good holds ran (orFault_ok.mp decided)) ?_
    rintro ⟨go', m₁⟩ ⟨same, keeps₁, good₁, holds₁⟩
    obtain rfl : go' = go := same
    cases go' with
    | true => cases h
    | false =>
      cases h
      exact meets_pure ⟨keeps₁, good₁, holds₁⟩
  | succ left ih =>
    unfold whileLoop at h
    obtain ⟨tested, ran, h⟩ := except_bind_ok.mp h
    obtain ⟨go, decided, h⟩ := except_bind_ok.mp h
    unfold loopSteps
    refine meets_bind (test_meets tests used good holds ran (orFault_ok.mp decided)) ?_
    rintro ⟨go', m₁⟩ ⟨same, keeps₁, good₁, holds₁⟩
    obtain rfl : go' = go := same
    cases go' with
    | false =>
      cases h
      exact meets_pure ⟨keeps₁, good₁, holds₁⟩
    | true =>
      obtain ⟨next, stepped, h⟩ := except_bind_ok.mp h
      have used₁ := used_keeps used keeps₁
      refine meets_bind (iterate_meets distinct tidy count used₁ good₁ holds₁ stepped captured
        (endings k)) ?_
      rintro ⟨captured', cells, m₂⟩ second
      have used₂ := used_keeps used₁ second.keeps
      cases tensors : next.all S.isTensor with
      | false => simp [tensors] at h
      | true =>
        simp only [tensors, if_true] at h
        refine meets_bind (realizeState_meets used₂ second.good second.holds tensors) ?_
        rintro ⟨cells', m₃⟩ third
        have kept := keeps_trans keeps₁ (keeps_trans second.keeps third.keeps)
        have count' : body.outputs.length = next.length :=
          (interpret_merged distinct count stepped).1.symm
        exact meets_mono (ih count' (used_keeps used kept) third.good third.holds h) fun r post =>
          post.after kept

/-- If no step that raises has changed a buffer that is still needed, and no replay overwrites
    one, the loop gives what interpreting it gives, whichever steps raise and wherever they do. Each
    fallback starts from the values that the step was given. -/
theorem fallback_result (conds : SubTidy cond) (distinct : (bodyIds body).Nodup) (tidy : SubTidy body)
    (count : body.outputs.length = vs.length) (endings : Nat → Ending V) (used : Used live m)
    (good : Good m) (holds : HoldAll m.store state vs)
    (interpreted : runNode S blobs fuel [] (.loop [] cond body []) vs = .ok outs)
    (safe : (runWhile S blobs fuel views path cond body endings live m state).safe = true) :
    finalValues (runWhile S blobs fuel views path cond body endings live m state) = some outs ∧
      ∀ (site : Site) (m : Machine V) (state : List (Cell V)) (vs : List V) (writes : List (Nat × V)),
        Good m → HoldAll m.store state vs → (raised site live m state writes).safe = true →
          ∃ m', (raised site live m state writes).result = .ok m' ∧ HoldAll m'.store state vs := by
  refine ⟨?_, fun site m state vs writes good holds safe => ?_⟩
  swap
  · obtain ⟨m', ran, _, _, same⟩ := raised_meets site good holds writes safe
    exact ⟨m', ran, same⟩
  simp only [runNode] at interpreted
  split at interpreted
  · rename_i tensors
    have met : Meets (runWhile S blobs fuel views path cond body endings live m state)
        (Post live m outs) := by
      refine meets_bind (realizeState_meets used good holds tensors) ?_
      rintro ⟨cells, m₁⟩ first
      exact meets_mono (loopSteps_meets conds distinct tidy endings count (used_keeps used first.keeps)
        first.good first.holds interpreted) fun r post => post.after first.keeps
    obtain ⟨r, ok, post⟩ := met safe
    rw [finalValues, ok]
    exact holdAll_values post.holds
  · cases interpreted

end

def countBoth : SubGraph :=
  .mk [⟨0, 0, [], .s32⟩, ⟨1, 1, [], .s32⟩] [⟨2, .value (.int 1), [], .s32⟩]
    [plusOne 3 0 2, plusOne 4 1 2] [⟨3, [], .s32⟩, ⟨4, [], .s32⟩]

def zeros : Machine Int :=
  { Machine.fresh Int with store := ((Machine.fresh Int).store.allocAll [0, 0]).2 }

/-- The third call, the first replay, raises after these writes. -/
def failThird (writes : List (Nat × Int)) : Nat → Ending Int
  | 2 => .raises writes
  | _ => .returns

theorem third_call_before_its_kernels : finalValues (runWhile counters [] 4 noViews [] (below 1 4)
    countBoth (failThird []) [] zeros [.buffer 0, .buffer 1]) = some [4, 4] := by
  have conds : SubTidy (below 1 4) := ⟨trivial, trivial⟩
  have tidy : SubTidy countBoth := ⟨trivial, trivial, trivial⟩
  have none_live : Used [] zeros := by simp [Used]
  have good : Good zeros := good_grows (good_fresh Int) (Nat.zero_le _)
  have holds : HoldAll zeros.store [.buffer 0, .buffer 1] [0, 0] :=
    (@allocAll_spec Int (Machine.fresh Int).store [] (by simp) [0, 0]).2
  have safe : (runWhile counters [] 4 noViews [] (below 1 4) countBoth (failThird []) [] zeros
      [.buffer 0, .buffer 1]).safe = true := by decide +kernel
  have distinct : (bodyIds countBoth).Nodup := by decide
  have count : countBoth.outputs.length = [(0 : Int), 0].length := rfl
  have interpreted : runNode counters [] 4 [] (.loop [] (below 1 4) countBoth [])
      [0, 0] = .ok [4, 4] := by
    decide +kernel
  exact (fallback_result conds distinct tidy count (failThird []) none_live good holds interpreted safe).1

/-- The replay wrote `x` and not `i`: the fallback counts `x` up once more. -/
theorem third_call_between_its_kernels :
    runNode counters [] 4 [] (.loop [] (below 1 4) countBoth []) [0, 0] = .ok [4, 4] ∧
      finalValues (runWhile counters [] 4 noViews [] (below 1 4) countBoth (failThird [(0, 3)]) [] zeros
        [.buffer 0, .buffer 1]) = some [5, 4] :=
  ⟨by decide +kernel, by decide +kernel⟩

end NxTinygrad.Fallback
