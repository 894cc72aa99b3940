import NxTinygrad.PathsAgree

/- A function of tensors, called on the eager backend and compiled: operation by operation, or as one graph. -/
namespace NxTinygrad.Programs
open IR Interpreter Lowering NDArray Reductions Eager

variable {α : Type} {K : Kernels α}

/-- The calls that the function makes, each with the spec of its result. Tensors are named by their position:
    the arguments, then the results. -/
abbrev Program := List (Spec × Call)

def run (K : Kernels α) : List (Buffer K) → Program → Option (List (Buffer K))
  | ts, [] => some ts
  | ts, (out, call) :: rest => do
      let r ← eager K ts out call
      run K (ts ++ [r]) rest

def arg (vs : List Expr) (k : Nat) : Expr := vs[k]?.getD (.tuple [])

def startOver (vs : List Expr) (ref : Ref) : StartArg → Expr
  | .integer n => .constant ⟨ref, [], .s32⟩ (.int n)
  | .constant dtype n => .constant ⟨ref, [], dtype⟩ (.int n)
  | .tensor k => arg vs k

def startsOver (vs : List Expr) : Ref → List StartArg → List Expr
  | _, [] => []
  | ref, s :: rest => startOver vs ref s :: startsOver vs (ref + 1) rest

def sliceOver (vs : List Expr) : Ref → List StartArg → List (Int ⊕ Expr)
  | _, [] => []
  | ref, .integer n :: rest => .inl n :: sliceOver vs (ref + 1) rest
  | ref, s :: rest => .inr (startOver vs ref s) :: sliceOver vs (ref + 1) rest

def scalarOver (vs : List Expr) (ref : Ref) : ScalarArg → Expr
  | .constant dtype x => .constant ⟨ref, [], dtype⟩ x
  | .tensor k => arg vs k

def callOver (vs : List Expr) (ref : Ref) (out : Spec) : Call → Expr
  | .op o args => .op ⟨ref, out.1, out.2⟩ o (args.map (arg vs))
  | .slice a starts lengths strides =>
      .slice ⟨ref, out.1, out.2⟩ (arg vs a) (sliceOver vs (ref + 1) starts) lengths strides
  | .putSlice a starts part =>
      .putSlice ⟨ref, out.1, out.2⟩ (arg vs a) (startsOver vs (ref + 1) starts) (arg vs part)
  | .pad a value config => .pad ⟨ref, out.1, out.2⟩ (arg vs a)
      (scalarOver vs (ref + 1) value) config
  | .windowScatter o a source init window strides padding =>
      .windowScatter ⟨ref, out.1, out.2⟩ o (arg vs a)
      (arg vs source) (scalarOver vs (ref + 1) init) window strides padding

def scalarsOver (vs : List Expr) (ref : Ref) : Call → List Expr
  | .slice _ starts _ _ | .putSlice _ starts _ => startsOver vs ref starts
  | _ => []

def trace : List Expr → List Expr → Program → List Expr × List Expr
  | all, vs, [] => (all, vs)
  | all, vs, (out, call) :: rest =>
      let e := callOver vs all.length out call
      trace (all ++ e :: scalarsOver vs (all.length + 1) call) (vs ++ [e]) rest

def parameters (ts : List (Buffer K)) : List Expr :=
  (List.range ts.length).zipWith (fun k t => .parameter ⟨k, t.shape, t.dtype⟩ k) ts

/-- The results of the function as expressions over its arguments. -/
def traced (ts : List (Buffer K)) (p : Program) (roots : List Nat) : List Expr :=
  roots.map (arg (trace (parameters ts) (parameters ts) p).2)

/-- Nx makes an s32 of an integer among the starts of a put_slice. -/
def Small : Call → Prop
  | .putSlice _ starts _ => ∀ n, .integer n ∈ starts → Dtype.Holds .s32 n
  | _ => True

/-- Every call is one that Nx passes on and that both paths know, without scalars from the request. -/
def Proper (K : Kernels α) : List (Buffer K) → Program → Prop
  | _, [] => True
  | ts, (out, call) :: rest =>
      (Passed ts out call ∧ Supported ts call ∧ Resident ts call ∧ Small call) ∧
      ∀ r, eager K ts out call = some r → Proper K (ts ++ [r]) rest

/-- `apply` gives a `Cx` exactly for complex dtypes: it casts all others, and a `Cx` to the component type. -/
def Tagged (K : Kernels α) : Prop :=
  ∀ {op attrs vs shape dtype v}, K.prim op attrs vs shape dtype = some v →
    v.real?.isSome = !dtype.isComplex

inductive Lowers : Expr → Prop where
  | parameter (t : Tag) (pos : Nat) : Lowers (.parameter t pos)
  | constant (t : Tag) (number : Number) : Lowers (.constant t number)
  | node {e : Expr} {args : List Expr} {op : NodeOp} (plan : e.plan = some (args, op))
      (all : ∀ a ∈ args, Lowers a) : Lowers e

theorem lower_seen {e : Expr} {args : List Expr} {op : NodeOp} (plan : e.plan = some (args, op))
    {st : State} {id : Nat} (seen : st.ids e.tag.ref = some id) :
      lower false e st = .ok (id, st) := by
  cases e with
  | op t | slice t | putSlice t | pad t | windowScatter t =>
    have seen : st.ids t.ref = some id := seen
    simp only [lower, cached, seen]
  | _ => cases plan

theorem children_lower {es : List Expr}
    (each : ∀ e ∈ es, ∀ st, ∃ id st', lower false e st = .ok (id, st'))
    (st : State) : ∃ ids st', lowerChildren es st = .ok (ids, st') := by
  induction es generalizing st with
  | nil => exact ⟨[], st, by simp only [lowerChildren]⟩
  | cons e rest ih =>
    obtain ⟨id, st₁, first⟩ := each e (List.mem_cons_self ..) st
    obtain ⟨ids, st₂, tail⟩ := ih (fun x mem => each x (List.mem_cons_of_mem _ mem)) st₁
    exact ⟨id :: ids, st₂, by simp only [lowerChildren, first, tail, bind, Except.bind]⟩

theorem Lowers.lower {e : Expr} (lowers : Lowers e) (st : State) :
    ∃ id st', lower false e st = .ok (id, st') := by
  induction lowers generalizing st with
  | parameter t pos =>
    simp only [Lowering.lower, cached, lowerParameter]
    cases st.ids t.ref with
    | some id => exact ⟨id, st, rfl⟩
    | none => cases st.bound pos <;> exact ⟨_, _, rfl⟩
  | constant t number =>
    simp only [Lowering.lower, cached, lowerConstant]
    cases st.ids t.ref <;> exact ⟨_, _, rfl⟩
  | @node e args op plan _ ih =>
    cases seen : st.ids e.tag.ref with
    | some id => exact ⟨id, st, lower_seen plan seen⟩
    | none =>
      obtain ⟨ids, st', children⟩ := children_lower ih st
      exact ⟨_, _, lower_node seen plan children⟩

theorem toGraph_lowers {es : List Expr} (all : ∀ e ∈ es, Lowers e) : ∃ g, toGraph es = .ok g := by
  have outputs : ∀ st, ∃ specs st', lowerOutputs es st = .ok (specs, st') := by
    induction es with
    | nil => exact fun st => ⟨[], st, by simp only [lowerOutputs]⟩
    | cons e rest ih =>
      intro st
      obtain ⟨id, st₁, first⟩ := (all e (List.mem_cons_self ..)).lower st
      obtain ⟨specs, st₂, tail⟩ := ih (fun x mem => all x (List.mem_cons_of_mem _ mem)) st₁
      refine ⟨outputSpec e id :: specs, st₂, ?_⟩
      simp only [lowerOutputs, first, tail, bind, Except.bind]
  obtain ⟨specs, st, made⟩ := outputs (.start [] 0)
  simp only [toGraph, made, bind, Except.bind]
  exact ⟨_, rfl⟩

theorem Lowers.strip {e : Expr} (lowers : Lowers e) : e.strip = e := by
  cases lowers with
  | parameter | constant => rfl
  | node plan all =>
    cases e with
    | metadata t inner => cases plan
    | _ => rfl

structure Stands (us : List (Buffer K)) (e : Expr) (t : Buffer K) : Prop where
  spec : e.tag.spec = t.spec
  value : eval K.sem (.flow K.sem) 0 (fun pos => (us.map Buffer.value)[pos]?) e = .ok t.value
  runtime : classifyStart e = .ok none
  lowers : Lowers e

section
variable {us ts : List (Buffer K)} {vs : List Expr} {starts : List StartArg} {ns : List Int}

theorem stands_arg (stands : List.Forall₂ (Stands us) vs ts) {k : Nat} {t : Buffer K}
    (there : ts[k]? = some t) : Stands us (arg vs k) t := by
  induction stands generalizing k with
  | nil => cases there
  | cons first _ ih =>
    cases k with
    | zero =>
      cases there
      exact first
    | succ k => exact ih there

theorem args_value (stands : List.Forall₂ (Stands us) vs ts) {args : List Nat}
    {inputs : List (Buffer K)}
    (found : args.mapM (ts[·]?) = some inputs) :
    evalOn us (args.map (arg vs)) = .ok (inputs.map Buffer.value) ∧
      ((args.map (arg vs)).head?.map Expr.rank) = inputs.head?.map (·.shape.length) := by
  induction args generalizing inputs with
  | nil =>
    cases found
    exact ⟨evalList_nil, rfl⟩
  | cons k rest ih =>
    simp only [List.mapM_cons, Option.bind_eq_bind, Option.bind_eq_some_iff] at found
    obtain ⟨t, there, more, tail, same⟩ := found
    cases same
    have first := stands_arg stands there
    refine ⟨evalList_cons.mpr ⟨_, _, first.value, (ih tail).1, rfl⟩, ?_⟩
    have shape : (arg vs k).tag.shape = t.shape := congrArg Prod.fst first.spec
    simp [Expr.rank, shape]

theorem constant_value (us : List (Buffer K)) {dtype : Dtype} {n : Int}
    (holds : Dtype.Holds dtype n) (ref : Ref) : ∃ v,
    eval K.sem (.flow K.sem) 0 (fun pos => (us.map Buffer.value)[pos]?)
      (.constant ⟨ref, [], dtype⟩ (.int n)) = .ok v ∧ item K.int v = some n := by
  obtain ⟨v, made, number⟩ := K.integer holds
  have here : K.sem.number (.int n) [] dtype = some v := made
  exact ⟨v, by simp [eval, encodeNumber, here, orFault], number⟩

theorem tensor_number {k : Nat} {n : Int} (number : startNumber K ts (.tensor k) = some n) :
    ∃ t, ts[k]? = some t ∧ item K.int t.value = some n := by
  simp only [startNumber, Option.bind_eq_bind, Option.bind_eq_some_iff] at number
  obtain ⟨t, there, scalar⟩ := number
  split at scalar
  · exact ⟨t, there, scalar⟩
  · cases scalar

theorem slice_starts (stands : List.Forall₂ (Stands us) vs ts) (passed : ∀ s ∈ starts, s.Passed ts)
    (numbers : starts.mapM (startNumber K ts) = some ns) (ref : Ref) :
    ∃ cs, starts.mapM (StartArg.read K ts) = some cs ∧
      evalDynamic K.sem (.flow K.sem) 0 (fun pos => (us.map Buffer.value)[pos]?)
        (sliceOver vs ref starts) = .ok cs ∧ ∀ e ∈ dynamicStarts (sliceOver vs ref starts), Lowers e := by
  induction starts generalizing ns ref with
  | nil => exact ⟨[], rfl, by simp only [sliceOver, evalDynamic], fun _ mem => by cases mem⟩
  | cons s rest ih =>
    simp only [List.mapM_cons, Option.bind_eq_bind, Option.bind_eq_some_iff] at numbers
    obtain ⟨n, number, more, tail, same⟩ := numbers
    cases same
    obtain ⟨cs, reads, ran, lowers⟩ :=
      ih (fun s mem => passed s (List.mem_cons_of_mem _ mem)) tail (ref + 1)
    have runtime (v : Value α) (exprs : sliceOver vs ref (s :: rest) =
          .inr (startOver vs ref s) :: sliceOver vs (ref + 1) rest)
        (value : eval K.sem (.flow K.sem) 0 (fun pos => (us.map Buffer.value)[pos]?)
          (startOver vs ref s) = .ok v) (here : item K.int v = some n) (read : s.read K ts = some (.read n))
        (plain : Lowers (startOver vs ref s)) :
        ∃ cs, (s :: rest).mapM (StartArg.read K ts) = some cs ∧
          evalDynamic K.sem (.flow K.sem) 0 (fun pos => (us.map Buffer.value)[pos]?)
            (sliceOver vs ref (s :: rest)) = .ok cs ∧
          ∀ e ∈ dynamicStarts (sliceOver vs ref (s :: rest)), Lowers e := by
      have seen : K.sem.item v = some n := here
      refine ⟨.read n :: cs, by simp [List.mapM_cons, read, reads], ?_, ?_⟩
      · simp only [exprs, evalDynamic, value, seen, ran, Option.map_some, orFault, bind,
          Except.bind]
      · rw [exprs]
        exact List.forall_mem_cons.mpr ⟨plain, lowers⟩
    cases s with
    | integer m =>
      cases number
      refine ⟨.static n :: cs, by simp [List.mapM_cons, StartArg.read, reads], ?_, lowers⟩
      simp only [sliceOver, evalDynamic, ran, bind, Except.bind]
    | constant dtype m =>
      cases number
      obtain ⟨v, value, here⟩ := constant_value us (passed _ (List.mem_cons_self ..)) ref
      exact runtime v rfl value here rfl (.constant ..)
    | tensor k =>
      obtain ⟨t, there, here⟩ := tensor_number number
      have first := stands_arg stands there
      exact runtime t.value rfl first.value here (by simp [StartArg.read, number]) first.lowers

theorem flow_static {S : Sem (Value α)} {e : Expr} {n : Int}
    (found : classifyStart e = .ok (some (.int n)))
    (v : Value α) : (Strategy.flow S).start e v = some (.static n) := by
  simp [Strategy.flow, found]

theorem flow_read {S : Sem (Value α)} {e : Expr} (found : classifyStart e = .ok none)
    (v : Value α) :
    (Strategy.flow S).start e v = (S.item v).map .read := by
  simp [Strategy.flow, found]

theorem put_starts (stands : List.Forall₂ (Stands us) vs ts) (passed : ∀ s ∈ starts, s.Passed ts)
    (small : ∀ n, .integer n ∈ starts → Dtype.Holds .s32 n)
    (numbers : starts.mapM (startNumber K ts) = some ns) (ref : Ref) :
    ∃ cs, starts.mapM (StartArg.put K ts) = some cs ∧
      evalStarts K.sem (.flow K.sem) 0 (fun pos => (us.map Buffer.value)[pos]?)
      (startsOver vs ref starts) =
        .ok cs ∧ (∀ k, ∃ specs, putSliceStarts k (startsOver vs ref starts) = .ok specs) ∧
          ∀ e ∈ runtimeStarts (startsOver vs ref starts), Lowers e := by
  induction starts generalizing ns ref with
  | nil =>
    exact ⟨[], rfl, by simp only [startsOver, evalStarts], fun k => ⟨[], rfl⟩, fun _ mem => by cases mem⟩
  | cons s rest ih =>
    simp only [List.mapM_cons, Option.bind_eq_bind, Option.bind_eq_some_iff] at numbers
    obtain ⟨n, number, more, tail, same⟩ := numbers
    cases same
    obtain ⟨cs, puts, ran, made, lowers⟩ := ih (fun s mem => passed s (List.mem_cons_of_mem _ mem))
      (fun n mem => small n (List.mem_cons_of_mem _ mem)) tail (ref + 1)
    have constant {dtype : Dtype} (holds : Dtype.Holds dtype n)
        (expr : startOver vs ref s = .constant ⟨ref, [], dtype⟩ (.int n))
        (put : s.put K ts = some (.static n)) :
        ∃ cs, (s :: rest).mapM (StartArg.put K ts) = some cs ∧
          evalStarts K.sem (.flow K.sem) 0 (fun pos => (us.map Buffer.value)[pos]?)
            (startsOver vs ref (s :: rest)) = .ok cs ∧
          (∀ k, ∃ specs, putSliceStarts k (startsOver vs ref (s :: rest)) = .ok specs) ∧
          ∀ e ∈ runtimeStarts (startsOver vs ref (s :: rest)), Lowers e := by
      obtain ⟨v, value, _⟩ := constant_value us holds ref
      have found : classifyStart (.constant ⟨ref, [], dtype⟩ (.int n)) = .ok (some (.int n)) := rfl
      refine ⟨.static n :: cs, by simp [List.mapM_cons, put, puts], ?_, fun k => ?_, ?_⟩
      · simp only [startsOver, expr, evalStarts, value, flow_static found, orFault, ran, bind,
          Except.bind]
      · obtain ⟨specs, rest_made⟩ := made k
        exact ⟨.static n :: specs, by
          simp only [startsOver, expr, putSliceStarts, found, rest_made, bind, Except.bind]⟩
      · rw [startsOver, expr, runtimeStarts_cons, classify_ok found]
        exact lowers
    cases s with
    | integer m =>
      cases number
      exact constant (small n (List.mem_cons_self ..)) rfl rfl
    | constant dtype m =>
      cases number
      exact constant (passed _ (List.mem_cons_self ..)) rfl rfl
    | tensor k =>
      obtain ⟨t, there, here⟩ := tensor_number number
      have first := stands_arg stands there
      have found := first.runtime
      have seen : K.sem.item t.value = some n := here
      have expr : startOver vs ref (.tensor k) = arg vs k := rfl
      refine ⟨.read n :: cs, by simp [List.mapM_cons, StartArg.put, number, puts], ?_,
        fun k' => ?_, ?_⟩
      · simp only [startsOver, expr, evalStarts, first.value, flow_read found, seen,
          Option.map_some, orFault, ran, bind, Except.bind]
      · obtain ⟨specs, rest_made⟩ := made (k' + 1)
        exact ⟨.input k' :: specs, by
          simp only [startsOver, expr, putSliceStarts, found, rest_made, bind, Except.bind]⟩
      · rw [startsOver, expr, runtimeStarts_cons, classify_ok found]
        refine List.forall_mem_cons.mpr ⟨?_, lowers⟩
        rw [first.lowers.strip]
        exact first.lowers

variable {out : Spec} {r : Buffer K}

theorem runNode_value {op : NodeOp} {inputs : List (Buffer K)}
    (made : Eager.runNode K op out inputs = some r) (stored : Stored inputs)
    (tagged : ∀ v, applyOp K.sem [] op (inputs.map Buffer.value) out.1 out.2 = .ok v →
      v.real?.isSome = !out.2.isComplex) :
    r.spec = out ∧ applyOp K.sem [] op (inputs.map Buffer.value) out.1 out.2 = .ok r.value := by
  unfold Eager.runNode at made
  split at made
  · cases made
  · rename_i v ran
    rw [applyEager_stored stored] at ran
    split at made
    · cases made
      refine ⟨rfl, ran.trans (congrArg Except.ok ?_)⟩
      have kind := tagged v ran
      cases v with
      | real t =>
        have plain : out.2.isComplex = false := by simpa [Value.real?] using kind
        simp [Buffer.value, plain, tensor]
      | cx t =>
        have complex : out.2.isComplex = true := by simpa [Value.real?] using kind
        simp [Buffer.value, complex, tensor]
    · cases made

theorem prim_value (tagged : Tagged K) {op : PrimOp} {attrs : List (String × Json)}
    {inputs : List (Buffer K)}
    (made : Eager.runNode K (.prim op attrs) out inputs = some r) (stored : Stored inputs) :
    r.spec = out ∧ K.sem.prim op attrs (inputs.map Buffer.value) out.1 out.2 = some r.value := by
  obtain ⟨spec, ran⟩ := runNode_value made stored fun v ran => tagged (orFault_ok.mp ran)
  exact ⟨spec, orFault_ok.mp ran⟩

theorem slice_tagged {v w : Value α} {cs : List Start} {lengths strides : List Nat} {dtype : Dtype}
    (ran : applySlice K v cs lengths strides dtype = some w) :
      w.real?.isSome = !dtype.isComplex := by
  unfold applySlice at ran
  split at ran
  all_goals
    rename_i complex
    simp only [Option.bind_eq_bind, Option.bind_eq_some_iff, Option.some.injEq] at ran
    obtain ⟨_, _, _, _, _, _, rfl⟩ := ran
    simp [Value.real?, complex]

theorem put_tagged {v part w : Value α} {cs : List Start} {dtype : Dtype}
    (ran : applyPutSlice K v part cs dtype = some w) : w.real?.isSome = !dtype.isComplex := by
  unfold applyPutSlice at ran
  split at ran
  · cases ran
  · rename_i complex
    simp only [Option.bind_eq_bind, Option.bind_eq_some_iff, Option.some.injEq] at ran
    obtain ⟨_, _, _, _, _, _, _, _, _, _, _, _, rfl⟩ := ran
    simp [Value.real?, complex]

theorem integer_reads (ms : List Int) :
    (ms.map StartArg.integer).mapM (StartArg.read K ts) = some (ms.map .static) := by
  induction ms with
  | nil => rfl
  | cons m rest ih => simp [List.mapM_cons, StartArg.read, ih]

theorem slice_value {a : Nat} {t : Buffer K} {lengths strides : List Nat} {cs : List Start}
    (there : ts[a]? = some t) (passed : Passed ts out (.slice a starts lengths strides))
    (supported : Supported ts (.slice a starts lengths strides))
    (resident : Resident ts (.slice a starts lengths strides))
    (made : eager K ts out (.slice a starts lengths strides) = some r)
    (reads : starts.mapM (StartArg.read K ts) = some cs) :
    r.spec = out ∧ applySlice K t.value cs lengths strides out.2 = some r.value := by
  obtain ⟨dtype, sizes, count, _⟩ := passed.2 t there
  obtain ⟨inside, complex⟩ := supported t there
  simp only [eager, there, Option.bind_eq_bind, Option.bind_some, Option.bind_eq_some_iff] at made
  obtain ⟨ns, numbers, made⟩ := made
  rw [clamped_static] at made
  let op : NodeOp := .slice ((clampAll t.shape lengths ns).map .static) lengths strides
  have own : (applyOp K.sem [] op [t.value] out.1 out.2).toOption =
      applySlice K t.value ((clampAll t.shape lengths ns).map .static) lengths strides out.2 := by
    rw [apply_slice, resolve_static]
    rfl
  obtain ⟨spec, ran⟩ := runNode_value made (resident.one (List.mem_cons_self ..) there) fun v ran => by
    have ran : applyOp K.sem [] op [t.value] out.1 out.2 = .ok v := ran
    rw [ran] at own
    exact slice_tagged own.symm
  have ran : applyOp K.sem [] op [t.value] out.1 out.2 = .ok r.value := ran
  rw [ran] at own
  refine ⟨spec, Eq.trans ?_ own.symm⟩
  cases kind : t.dtype.isComplex with
  | true =>
    obtain ⟨ms, rfl⟩ := all_integers (complex kind)
    have same : ns = ms := Option.some.inj (numbers.symm.trans (integer_numbers ms))
    have same' : cs = ms.map .static := Option.some.inj (reads.symm.trans (integer_reads ms))
    rw [same, same', integer_clamped (by simpa using count) sizes.length_eq.1 inside]
  | false =>
    have plain : out.2.isComplex = false := by rw [dtype, kind]
    have agree := starts_agree ts count sizes.length_eq.1 inside
    rw [reads, numbers, Option.bind_some, Option.map_some] at agree
    rw [real_slice kind plain, real_slice kind plain, agree, startsOf_static]

theorem put_value {a p : Nat} {t part : Buffer K} {cs : List Start} (there : ts[a]? = some t)
    (there' : ts[p]? = some part) (resident : Resident ts (.putSlice a starts p))
    (made : eager K ts out (.putSlice a starts p) = some r)
    (puts : starts.mapM (StartArg.put K ts) = some cs) :
    r.spec = out ∧ applyPutSlice K t.value part.value cs out.2 = some r.value := by
  rw [put_run there there', Option.bind_eq_some_iff] at made
  obtain ⟨ns, numbers, made⟩ := made
  have own : (applyOp K.sem [] (.putSlice (ns.map .static))
      [t.value, part.value] out.1 out.2).toOption =
      applyPutSlice K t.value part.value (ns.map .static) out.2 := by
    rw [apply_put, resolve_static]
    rfl
  obtain ⟨spec, ran⟩ := runNode_value made (resident.two (List.mem_cons_self ..)
    (List.mem_cons_of_mem _ (List.mem_cons_self ..)) there there') fun v ran => by
    have ran : applyOp K.sem [] (.putSlice (ns.map .static)) [t.value, part.value] out.1 out.2 =
        .ok v := ran
    rw [ran] at own
    exact put_tagged own.symm
  have ran : applyOp K.sem [] (.putSlice (ns.map .static)) [t.value, part.value] out.1 out.2 =
      .ok r.value := ran
  rw [ran] at own
  have same := put_same ts t.value part.value out.2 starts
  rw [puts, numbers, Option.bind_some, Option.bind_some] at same
  exact ⟨spec, same.trans own.symm⟩

theorem mem_there {ks : List Nat} (inside : ∀ k ∈ ks, k < ts.length) {k : Nat} (mem : k ∈ ks) :
    ∃ t, ts[k]? = some t := ⟨ts.get ⟨k, inside k mem⟩, List.getElem?_eq_getElem (inside k mem)⟩

theorem call_stands (tagged : Tagged K) (stands : List.Forall₂ (Stands us) vs ts) {call : Call}
    (passed : Passed ts out call) (supported : Supported ts call) (resident : Resident ts call)
    (small : Small call) (made : eager K ts out call = some r) (ref : Ref) :
    Stands us (callOver vs ref out call) r := by
  cases call with
  | op o args =>
    simp only [eager, Option.bind_eq_bind, Option.bind_eq_some_iff] at made
    obtain ⟨inputs, found, made⟩ := made
    obtain ⟨spec, ran⟩ := prim_value tagged made (resident.stored (fun k mem => mem) found)
    obtain ⟨values, rank⟩ := args_value stands found
    have takes : o.takes (args.map (arg vs)).length = true := by
      rw [List.length_map]
      exact passed.2
    have plan : (callOver vs ref out (.op o args)).plan = some (args.map (arg vs),
        .prim o.prim (o.attrs (((args.map (arg vs)).head?.map Expr.rank).getD 0) out.1)) := by
      simp only [callOver, Expr.plan, takes, if_true]
    refine ⟨spec.symm, ?_, rfl, .node plan ?_⟩
    · rw [attrs_agree, ← rank] at ran
      simp only [callOver, eval, takes, if_true]
      exact except_bind_ok.mpr ⟨_, values, orFault_ok.mpr ran⟩
    · intro e mem
      obtain ⟨k, named, rfl⟩ := List.mem_map.mp mem
      obtain ⟨t, there⟩ := mem_there passed.1 named
      exact (stands_arg stands there).lowers
  | slice a starts lengths strides =>
    obtain ⟨t, there⟩ := mem_there passed.1 (List.mem_cons_self ..)
    have first := stands_arg stands there
    have each := (passed.2 t there).2.2.2
    obtain ⟨ns, numbers⟩ : ∃ ns, starts.mapM (startNumber K ts) = some ns := by
      simp only [eager, there, Option.bind_eq_bind, Option.bind_some,
        Option.bind_eq_some_iff] at made
      obtain ⟨ns, numbers, _⟩ := made
      exact ⟨ns, numbers⟩
    obtain ⟨cs, reads, ran, lowers⟩ := slice_starts stands each numbers (ref + 1)
    obtain ⟨spec, value⟩ := slice_value there passed supported resident made reads
    refine ⟨spec.symm, ?_, rfl, .node rfl (List.forall_mem_cons.mpr ⟨first.lowers, lowers⟩)⟩
    simp only [callOver, eval, first.value, ran, bind, Except.bind]
    exact orFault_ok.mpr value
  | putSlice a starts p =>
    obtain ⟨t, there⟩ := mem_there passed.1 (List.mem_cons_self ..)
    obtain ⟨part, there'⟩ := mem_there passed.1 (List.mem_cons_of_mem _ (List.mem_cons_self ..))
    have first := stands_arg stands there
    have second := stands_arg stands there'
    have each := (passed.2 t part there there').2.2.2.2
    obtain ⟨ns, numbers⟩ : ∃ ns, starts.mapM (startNumber K ts) = some ns := by
      rw [put_run there there', Option.bind_eq_some_iff] at made
      obtain ⟨ns, numbers, _⟩ := made
      exact ⟨ns, numbers⟩
    obtain ⟨cs, puts, ran, specs, lowers⟩ := put_starts stands each small numbers (ref + 1)
    obtain ⟨spec, value⟩ := put_value there there' resident made puts
    obtain ⟨found, specified⟩ := specs 0
    have plan : (callOver vs ref out (.putSlice a starts p)).plan = some (arg vs a :: arg vs p ::
        runtimeStarts (startsOver vs (ref + 1) starts), .putSlice found) := by
      simp only [callOver, Expr.plan, specified]
    refine ⟨spec.symm, ?_, rfl, .node plan ?_⟩
    · simp only [callOver, eval, first.value, second.value, ran, bind, Except.bind]
      exact orFault_ok.mpr value
    · exact List.forall_mem_cons.mpr
        ⟨first.lowers, List.forall_mem_cons.mpr ⟨second.lowers, lowers⟩⟩
  | pad a value config =>
    obtain ⟨t, there⟩ := mem_there passed.1 (List.mem_cons_self ..)
    have first := stands_arg stands there
    obtain ⟨exact_value, plain⟩ := supported
    cases value with
    | tensor k => cases exact_value
    | constant dtype x =>
      have exact_value : K.toNumber dtype (K.scalar dtype x) = some x := exact_value
      simp only [eager, there, scalarNumber, exact_value, Option.bind_eq_bind, Option.bind_some,
        Backend.pad, plain, Bool.false_eq_true, if_false] at made
      have stored : Stored [t] := resident.one (List.mem_cons_self ..) there
      obtain ⟨spec, ran⟩ := prim_value tagged made stored
      refine ⟨spec.symm, ?_, rfl, .node rfl (List.forall_mem_singleton.mpr first.lowers)⟩
      simp only [callOver, scalarOver, scalarConstant, eval, first.value, bind, Except.bind]
      exact orFault_ok.mpr ran
  | windowScatter o a source init window strides padding =>
    obtain ⟨t, there⟩ := mem_there passed.1 (List.mem_cons_self ..)
    obtain ⟨s, there'⟩ := mem_there passed.1 (List.mem_cons_of_mem _ (List.mem_cons_self ..))
    have first := stands_arg stands there
    have second := stands_arg stands there'
    cases init with
    | tensor k => cases supported
    | constant dtype x =>
      have exact_value : K.toNumber dtype (K.scalar dtype x) = some x := supported
      simp only [eager, there, there', scalarNumber, exact_value, Option.bind_eq_bind,
        Option.bind_some] at made
      have stored : Stored [t, s] := resident.two (List.mem_cons_self ..)
        (List.mem_cons_of_mem _ (List.mem_cons_self ..)) there there'
      obtain ⟨spec, ran⟩ := prim_value tagged made stored
      refine ⟨spec.symm, ?_, rfl, .node rfl ?_⟩
      · simp only [callOver, scalarOver, scalarConstant, eval, first.value, second.value, bind,
          Except.bind]
        exact orFault_ok.mpr ran
      · exact List.forall_mem_cons.mpr ⟨first.lowers, List.forall_mem_singleton.mpr second.lowers⟩

/-- An expression whose references stand for what they stand for among `all`, and what comes after. -/
def Placed (all : List Expr) (e : Expr) : Prop := ∀ more, Scoped (scopesOf (all ++ more)) none e

theorem Placed.later {all more : List Expr} {e : Expr} (placed : Placed all e) :
    Placed (all ++ more) e := by
  intro more'
  rw [List.append_assoc]
  exact placed (more ++ more')

theorem startsOver_get (vs : List Expr) (ref : Ref) (starts : List StartArg) (j : Nat) :
    (startsOver vs ref starts)[j]? = starts[j]?.map (startOver vs (ref + j)) := by
  induction starts generalizing ref j with
  | nil => simp [startsOver]
  | cons s rest ih =>
    cases j with
    | zero => simp [startsOver]
    | succ j =>
      have shift : ref + 1 + j = ref + (j + 1) := by rw [Nat.add_assoc, Nat.add_comm 1 j]
      simp [startsOver, ih, shift]

theorem dynamic_over (vs : List Expr) (ref : Ref) (starts : List StartArg) {e : Expr}
    (mem : e ∈ dynamicStarts (sliceOver vs ref starts)) : e ∈ startsOver vs ref starts := by
  induction starts generalizing ref with
  | nil => cases mem
  | cons s rest ih =>
    cases s with
    | integer n => exact List.mem_cons_of_mem _ (ih (ref + 1) mem)
    | constant | tensor =>
      rcases List.mem_cons.mp mem with rfl | mem
      · exact List.mem_cons_self ..
      · exact List.mem_cons_of_mem _ (ih (ref + 1) mem)

theorem start_placed {all : List Expr} {root : Expr}
    (operands : ∀ k, (.tensor k) ∈ starts → Placed all (arg vs k))
    {e : Expr} (mem : e ∈ startsOver vs (all.length + 1) starts) :
    Placed (all ++ root :: startsOver vs (all.length + 1) starts) e := by
  obtain ⟨j, at_j⟩ := List.mem_iff_getElem?.mp mem
  rw [startsOver_get] at at_j
  obtain ⟨s, at_s, rfl⟩ := Option.map_eq_some_iff.mp at_j
  have found (more : List Expr) :
      (all ++ root :: startsOver vs (all.length + 1) starts ++ more)[all.length + 1 + j]? =
      some (startOver vs (all.length + 1 + j) s) := by
    have low : j < (startsOver vs (all.length + 1) starts).length := by
      have here : (startsOver vs (all.length + 1) starts)[j]? =
          some (startOver vs (all.length + 1 + j) s) := by
        rw [startsOver_get, at_s, Option.map_some]
      exact (List.getElem?_eq_some_iff.mp here).1
    have shift : all.length + 1 + j - all.length = j + 1 := by omega
    have beyond : all.length ≤ all.length + 1 + j := by omega
    rw [List.append_assoc, List.getElem?_append_right beyond, shift, List.cons_append,
      List.getElem?_cons_succ, List.getElem?_append_left low, startsOver_get, at_s, Option.map_some]
  have constant (dtype : Dtype) (n : Int)
      (expr : startOver vs (all.length + 1 + j) s =
        .constant ⟨all.length + 1 + j, [], dtype⟩ (.int n)) :
      Placed (all ++ root :: startsOver vs (all.length + 1) starts)
      (startOver vs (all.length + 1 + j) s) := by
    intro more
    have here := found more
    rw [expr] at here ⊢
    refine scoped_leaf ?_ rfl rfl
    simp only [named, Expr.tag, here, Option.getD_some]
  cases s with
  | tensor k =>
    have operand : (.tensor k) ∈ starts := List.mem_of_getElem? at_s
    exact (operands k operand).later
  | integer n => exact constant .s32 n rfl
  | constant dtype n => exact constant dtype n rfl

theorem call_placed {all : List Expr} {call : Call}
    (operands : ∀ k ∈ call.operands, Placed all (arg vs k)) :
    Placed (all ++ callOver vs all.length out call :: scalarsOver vs (all.length + 1) call)
      (callOver vs all.length out call) := by
  intro more
  have here : named (all ++ callOver vs all.length out call :: scalarsOver vs (all.length + 1)
      call ++ more)
      all.length = callOver vs all.length out call := by
    simp [named]
  have tag : (callOver vs all.length out call).tag.ref = all.length := by cases call <;> rfl
  have sub : (callOver vs all.length out call).subs = [] := by cases call <;> rfl
  have old : ∀ k ∈ call.operands, Scoped (scopesOf
      (all ++ callOver vs all.length out call :: scalarsOver vs (all.length + 1) call ++ more)) none
        (arg vs k) :=
    fun k mem => (operands k mem).later more
  refine scoped_plain (fun _ => by rw [tag]; exact here) ?_ (fun _ mem => by rw [sub] at mem; cases mem)
  intro c mem
  cases call with
  | op o args =>
    obtain ⟨e, inside, rfl⟩ := List.mem_map.mp mem
    obtain ⟨k, named, rfl⟩ := List.mem_map.mp inside
    exact old k named
  | slice a starts lengths strides =>
    rcases List.mem_cons.mp mem with rfl | mem
    · exact old a (List.mem_cons_self ..)
    · obtain ⟨e, inside, rfl⟩ := List.mem_map.mp mem
      refine start_placed (fun k named => operands k ?_) (dynamic_over _ _ _ inside) more
      exact List.mem_cons_of_mem _ (List.mem_flatMap.mpr ⟨_, named, List.mem_singleton.mpr rfl⟩)
  | putSlice a starts p =>
    rcases List.mem_cons.mp mem with rfl | mem
    · exact old a (List.mem_cons_self ..)
    · rcases List.mem_cons.mp mem with rfl | mem
      · exact old p (List.mem_cons_of_mem _ (List.mem_cons_self ..))
      · obtain ⟨e, inside, rfl⟩ := List.mem_map.mp mem
        refine start_placed (fun k named => operands k ?_) inside more
        exact List.mem_cons_of_mem _ (List.mem_cons_of_mem _
          (List.mem_flatMap.mpr ⟨_, named, List.mem_singleton.mpr rfl⟩))
  | pad a value config =>
    rw [List.mem_singleton.mp mem]
    exact old a (List.mem_cons_self ..)
  | windowScatter o a source init window strides padding =>
    rcases List.mem_cons.mp mem with rfl | mem
    · exact old a (List.mem_cons_self ..)
    · rw [List.mem_singleton.mp mem]
      exact old source (List.mem_cons_of_mem _ (List.mem_cons_self ..))

theorem arg_placed {all : List Expr} (placed : ∀ e ∈ vs, Placed all e) {k : Nat}
    (low : k < vs.length) :
    Placed all (arg vs k) := by
  rw [arg, List.getElem?_eq_getElem low]
  exact placed _ (List.getElem_mem low)

end

theorem trace_stands (tagged : Tagged K) {args ts us : List (Buffer K)} {p : Program}
    {all vs : List Expr}
    (proper : Proper K ts p) (ran : run K ts p = some us)
    (stands : List.Forall₂ (Stands args) vs ts)
    (placed : ∀ e ∈ vs, Placed all e) : List.Forall₂ (Stands args) (trace all vs p).2 us ∧
      ∀ e ∈ (trace all vs p).2, Placed (trace all vs p).1 e := by
  induction p generalizing ts all vs with
  | nil =>
    cases ran
    exact ⟨stands, placed⟩
  | cons line rest ih =>
    obtain ⟨out, call⟩ := line
    simp only [run, Option.bind_eq_bind, Option.bind_eq_some_iff] at ran
    obtain ⟨r, made, ran⟩ := ran
    obtain ⟨⟨passed, supported, resident, small⟩, later⟩ := proper
    have operands : ∀ k ∈ call.operands, Placed all (arg vs k) := by
      intro k mem
      apply arg_placed placed
      rw [stands.length_eq]
      exact passed.1 k mem
    have first := call_stands tagged stands passed supported resident small made all.length
    apply ih (later r made) ran
    · exact List.rel_append stands (.cons first .nil)
    · intro e mem
      rcases List.mem_append.mp mem with old | new
      · exact (placed e old).later
      · rw [List.mem_singleton.mp new]
        exact call_placed operands

theorem parameters_get (ts : List (Buffer K)) (k : Nat) :
    (parameters ts)[k]? = ts[k]?.map fun t => .parameter ⟨k, t.shape, t.dtype⟩ k := by
  unfold parameters
  rw [List.getElem?_zipWith]
  cases there : ts[k]? with
  | none => simp
  | some t =>
    have low := (List.getElem?_eq_some_iff.mp there).1
    simp [low]

theorem parameters_stand (ts : List (Buffer K)) : List.Forall₂ (Stands ts) (parameters ts) ts := by
  rw [List.forall₂_iff_get]
  have len : (parameters ts).length = ts.length := by simp [parameters]
  refine ⟨len, fun k low low' => ?_⟩
  have there : ts[k]? = some (ts.get ⟨k, low'⟩) := List.getElem?_eq_getElem low'
  have here : (parameters ts)[k]? = some ((parameters ts).get ⟨k, low⟩) :=
    List.getElem?_eq_getElem low
  rw [parameters_get, there, Option.map_some, Option.some.injEq] at here
  rw [← here]
  exact ⟨rfl, by simp [eval, there, orFault], rfl, .parameter ..⟩

theorem parameters_placed (ts : List (Buffer K)) :
    ∀ e ∈ parameters ts, Placed (parameters ts) e := by
  intro e mem more
  obtain ⟨k, at_k⟩ := List.mem_iff_getElem?.mp mem
  have low := (List.getElem?_eq_some_iff.mp at_k).1
  have here := at_k
  rw [parameters_get] at at_k
  obtain ⟨t, there, rfl⟩ := Option.map_eq_some_iff.mp at_k
  refine scoped_leaf ?_ rfl rfl
  simp only [named, Expr.tag]
  rw [List.getElem?_append_left low, here]
  rfl

theorem inputs_found {ts : List (Buffer K)} {inputs : List InputSpec} {values : List (Value α)}
    (given : inputs.mapM (fun i => orFault (ts.map Buffer.value)[i.index]?) = .ok values) :
    ∃ found, inputs.mapM (fun i => ts[i.index]?) = some found ∧
    values = found.map Buffer.value := by
  induction inputs generalizing values with
  | nil =>
    cases given
    exact ⟨[], rfl, rfl⟩
  | cons i rest ih =>
    rw [List.mapM_cons, except_bind_ok] at given
    obtain ⟨v, first, given⟩ := given
    obtain ⟨more, tail, same⟩ := except_bind_ok.mp given
    cases same
    obtain ⟨found, there, rfl⟩ := ih tail
    rw [orFault_ok, List.getElem?_map] at first
    obtain ⟨t, at_i, rfl⟩ := Option.map_eq_some_iff.mp first
    exact ⟨t :: found, by simp [List.mapM_cons, at_i, there], rfl⟩

theorem roots_value {args us : List (Buffer K)} {vs : List Expr}
    (stands : List.Forall₂ (Stands args) vs us)
    {roots : List Nat} (inside : ∀ k ∈ roots, k < us.length) : ∃ rs, roots.mapM (us[·]?) = some rs ∧
      evalOn args (roots.map (arg vs)) = .ok (rs.map Buffer.value) := by
  obtain ⟨rs, found⟩ : ∃ rs, roots.mapM (us[·]?) = some rs := by
    induction roots with
    | nil => exact ⟨[], rfl⟩
    | cons k rest ih =>
      obtain ⟨t, there⟩ := mem_there inside (List.mem_cons_self ..)
      obtain ⟨rs, found⟩ := ih fun k mem => inside k (List.mem_cons_of_mem _ mem)
      exact ⟨t :: rs, by simp [List.mapM_cons, there, found]⟩
  exact ⟨rs, found, (args_value stands found).1⟩

/-- A function that was called operation by operation is lowered to one graph, and the graph computes from the
    same tensors what the calls made of them. -/
theorem programs_agree (tagged : Tagged K) {ts us : List (Buffer K)} {p : Program}
    (proper : Proper K ts p)
    (ran : run K ts p = some us) {roots : List Nat} (inside : ∀ k ∈ roots, k < us.length) :
    ∃ g inputs results, toGraph (traced ts p roots) = .ok g ∧
      g.inputs.mapM (fun i => ts[i.index]?) = some inputs ∧ roots.mapM (us[·]?) = some results ∧
        graphFn K g inputs = some (results.map Buffer.value) := by
  obtain ⟨stands, placed⟩ :=
    trace_stands tagged proper ran (parameters_stand ts) (parameters_placed ts)
  obtain ⟨results, found, values⟩ := roots_value stands inside
  have each : ∀ e ∈ traced ts p roots, ∃ k ∈ roots,
      e = arg (trace (parameters ts) (parameters ts) p).2 k := by
    intro e mem
    obtain ⟨k, named, rfl⟩ := List.mem_map.mp mem
    exact ⟨k, named, rfl⟩
  have lowers : ∀ e ∈ traced ts p roots, Lowers e := by
    intro e mem
    obtain ⟨k, named, rfl⟩ := each e mem
    obtain ⟨t, there⟩ := mem_there inside named
    exact (stands_arg stands there).lowers
  obtain ⟨g, lowered⟩ := toGraph_lowers lowers
  have homes : ∀ e ∈ traced ts p roots,
      Scoped (scopesOf (trace (parameters ts) (parameters ts) p).1) none e := by
    intro e mem
    obtain ⟨k, named, rfl⟩ := each e mem
    have low := inside k named
    rw [← stands.length_eq] at low
    have here := arg_placed placed low []
    rwa [List.append_nil] at here
  have computed := toGraph_flow homes lowered values
  obtain ⟨given, made⟩ : ∃ given, g.inputs.mapM (fun i => orFault (ts.map Buffer.value)[i.index]?) =
      .ok given := by
    simp only [interpret, bindParams, except_bind_ok] at computed
    obtain ⟨_, ⟨_, _, given, made, _⟩, _⟩ := computed
    exact ⟨given, made⟩
  obtain ⟨inputs, there, rfl⟩ := inputs_found made
  refine ⟨g, inputs, results, lowered, there, found, ?_⟩
  rw [interpret_positional made] at computed
  rw [graphFn, computed]
  rfl

def moved : Program := [(([2], .f32), beyond), (([4], .f32), .putSlice 0 [.integer 1] 2)]

theorem moved_proper : Proper wholeNumbers rowAndStart moved := by
  refine ⟨⟨⟨by decide, ?_⟩, ?_, beyond_resident, trivial⟩, ?_⟩
  · intro t there
    cases there
    refine ⟨rfl, .cons (by decide) (by decide) .nil, rfl, ?_⟩
    intro s mem
    rw [List.mem_singleton.mp mem]
    intro b there
    cases there
    exact ⟨rfl, rfl⟩
  · intro t there
    cases there
    exact ⟨trivial, fun complex => by cases complex⟩
  · intro r made
    have spec : (eager wholeNumbers rowAndStart ([2], .f32) beyond).map Buffer.spec =
        some ([2], .f32) := by
      decide
    rw [made, Option.map_some, Option.some.injEq] at spec
    obtain ⟨shape, dtype⟩ := Prod.mk.inj spec
    refine ⟨⟨⟨?_, ?_⟩, trivial, ?_, ?_⟩, fun _ _ => trivial⟩
    · simp [Call.operands, StartArg.operands, rowAndStart]
    · intro t s first third
      cases first
      cases third
      rw [shape, dtype]
      refine ⟨rfl, fun _ => ⟨rfl, rfl⟩, rfl, rfl, ?_⟩
      intro s mem
      rw [List.mem_singleton.mp mem]
      trivial
    · intro k _ t there
      have each : Stored (rowAndStart ++ [r]) := by simp [Stored, rowAndStart, Buffer.constant, shape]
      exact each t (List.mem_of_getElem? there)
    · intro n mem
      cases List.mem_singleton.mp mem
      simp [Dtype.Holds, Dtype.itemsize]

theorem moved_agree : ∃ us, run wholeNumbers rowAndStart moved = some us ∧
    us.map (·.tensor.data) = [[1, 2, 3, 4], [7], [3, 4], [1, 3, 4, 4]] ∧
      ∃ g inputs results, toGraph (traced rowAndStart moved [3, 2]) = .ok g ∧
        g.inputs.mapM (fun i => rowAndStart[i.index]?) = some inputs ∧
          [3, 2].mapM (us[·]?) = some results ∧
            graphFn wholeNumbers g inputs = some (results.map Buffer.value) := by
  have data : (run wholeNumbers rowAndStart moved).map (·.map (·.tensor.data)) =
      some [[1, 2, 3, 4], [7], [3, 4], [1, 3, 4, 4]] := by decide
  obtain ⟨us, ran, computed⟩ := Option.map_eq_some_iff.mp data
  refine ⟨us, ran, computed, ?_⟩
  have four : us.length = 4 := by simpa using congrArg List.length computed
  apply programs_agree _ moved_proper ran
  · intro k mem
    rw [four]
    revert k
    decide
  · intro op attrs vs shape dtype v made
    cases made

end NxTinygrad.Programs
