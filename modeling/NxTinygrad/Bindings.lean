import NxTinygrad.Graph
import NxTinygrad.Lib.Broadcast
import NxTinygrad.Lib.StraightLine

/- How the tensors of a call get to the inputs of a graph or of one node: by handle where they are on
   the worker, else as a blob of the request. -/
namespace NxTinygrad.Bindings
open IR StraightLine

inductive Raised where
  | staleTensor (worker tensorGeneration workerGeneration : Nat)
  | outOfBounds
  deriving DecidableEq, Repr

/-- Where `tensor.data` is: a handle of a worker's generation, or anything that is not on a worker. -/
inductive Data where
  | backend (worker generation handle : Nat)
  | host
  deriving DecidableEq, Repr

/-- A runtime tensor; `binary` is what `Nx.to_binary` gives, which downloads it from another worker and
    raises if that has been restarted. -/
structure Tensor where
  data : Data
  shape : List Nat
  dtype : Dtype
  binary : Except Raised Blob

/-- Generation and handle of a tensor that is on `worker`. -/
def Tensor.on (t : Tensor) (worker : Nat) : Option (Nat × Nat) :=
  match t.data with
  | .backend w generation handle => if w = worker then some (generation, handle) else none
  | .host => none

inductive Arg where
  | handle (id : Nat)
  | blob (index : Nat) (shape : List Nat) (dtype : Dtype)
  deriving DecidableEq, Repr

def Arg.blobIndex? : Arg → Option Nat
  | .handle _ => none
  | .blob index _ _ => some index

section
variable (worker generation : Nat)

def buildInput (params : List Tensor) (acc : List Arg × List Blob × Nat) (input : InputSpec) :
    Except Raised (List Arg × List Blob × Nat) :=
  let (inputs, blobs, k) := acc
  match params[input.index]? with
  | none => .error .outOfBounds
  | some tensor => match tensor.on worker with
    | some (current, handle) =>
        if current = generation then .ok (.handle handle :: inputs, blobs, k)
        else .error (.staleTensor worker current generation)
    | none => do
        let bytes ← tensor.binary
        .ok (.blob k input.shape input.dtype :: inputs, bytes :: blobs, k + 1)

def buildInputs (params : List Tensor) (inputs : List InputSpec) :
    Except Raised (List Arg × List Blob) := do
  let (args, blobs, _) ← inputs.foldlM (buildInput worker generation params) ([], [], 0)
  .ok (args.reverse, blobs.reverse)

def eagerInput (tensor : Tensor) (acc : List Blob × Nat) : Except Raised (Arg × List Blob × Nat) :=
  let (blobs, n) := acc
  match tensor.on worker with
  | some (current, handle) =>
      if current = generation then .ok (.handle handle, blobs, n)
      else .error (.staleTensor worker current generation)
  | none => do
      let bytes ← tensor.binary
      .ok (.blob n tensor.shape tensor.dtype, bytes :: blobs, n + 1)

def eagerMapReduce : List Tensor → List Blob × Nat → Except Raised (List Arg × List Blob × Nat)
  | [], acc => .ok ([], acc)
  | tensor :: rest, acc => do
      let (arg, acc) ← eagerInput worker generation tensor acc
      let (args, acc) ← eagerMapReduce rest acc
      .ok (arg :: args, acc)

def eagerInputs (inputs : List Tensor) : Except Raised (List Arg × List Blob) := do
  let (args, blobs, _) ← eagerMapReduce worker generation inputs ([], 0)
  .ok (args, blobs.reverse)

end

/-- What the handles of a worker stand for, and what its reading of a blob makes of it. -/
structure Values (V : Type) where
  registry : Nat → Option V
  decode : Blob → List Nat → Dtype → Option V

section
variable {V : Type} (W : Values V)

def inputTensor (blobs : List Blob) : Arg → Option V
  | .handle id => W.registry id
  | .blob index shape dtype => blobs[index]?.bind fun blob => W.decode blob shape dtype

def executeInputs (args : List Arg) (blobs : List Blob) : Option (List V) :=
  args.mapM (inputTensor W blobs)

def graphEnv (constants : Env V) (inputs : List InputSpec) (tensors : List V) : Env V :=
  assign constants (inputs.map (·.id)) tensors

/-- The loop of `cmd_run_node`: `env[i]` for the input `i`. -/
def runNodeEnv (args : List Arg) (blobs : List Blob) : Option (Env V) :=
  (args.mapM (inputTensor W blobs)).map fun tensors i => tensors[i]?

def Tensor.value (worker : Nat) (t : Tensor) : Option V :=
  match t.on worker with
  | some (_, handle) => W.registry handle
  | none => match t.binary with
    | .ok bytes => W.decode bytes t.shape t.dtype
    | .error _ => none

/-- A tensor that can be sent: not of an earlier generation, and not lost on another worker. -/
def Tensor.Fresh (worker generation : Nat) (t : Tensor) : Prop :=
  match t.on worker with
  | some (current, _) => current = generation
  | none => ∃ bytes, t.binary = .ok bytes

/-- The arguments stand for these values, whatever blobs follow, and use each blob once. -/
structure Accounts (args : List Arg) (blobs : List Blob) (values : List (Option V)) : Prop where
  used : args.filterMap Arg.blobIndex? = List.range blobs.length
  stand : ∀ later, args.map (inputTensor W (blobs ++ later)) = values

end

section
variable {V : Type} {W : Values V} {args : List Arg} {blobs : List Blob} {values : List (Option V)}
  {worker generation : Nat}

theorem Accounts.start : Accounts W [] [] [] := ⟨rfl, fun _ => rfl⟩

theorem Accounts.handle (acc : Accounts W args blobs values) (id : Nat) :
    Accounts W (args ++ [.handle id]) blobs (values ++ [W.registry id]) where
  used := by simp [acc.used, Arg.blobIndex?]
  stand later := by simp [acc.stand, inputTensor]

theorem Accounts.blob (acc : Accounts W args blobs values) (bytes : Blob) (shape : List Nat)
    (dtype : Dtype) :
    Accounts W (args ++ [.blob blobs.length shape dtype]) (blobs ++ [bytes])
      (values ++ [W.decode bytes shape dtype]) where
  used := by simp [acc.used, Arg.blobIndex?, List.range_succ]
  stand later := by simp [acc.stand, inputTensor]

theorem mapM_eq_of_map {α β : Type} {f : α → Option V} {g : β → Option V} {xs : List α} {ys : List β}
    (same : xs.map f = ys.map g) : xs.mapM f = ys.mapM g := by
  induction xs generalizing ys with
  | nil => cases ys <;> simp_all
  | cons x xs ih =>
    cases ys with
    | nil => simp at same
    | cons y ys =>
      rw [List.map_cons, List.map_cons, List.cons.injEq] at same
      rw [List.mapM_cons, List.mapM_cons, same.1, ih same.2]

theorem Accounts.executed {α : Type} {f : α → Option V} {xs : List α}
    (acc : Accounts W args blobs (xs.map f)) :
    executeInputs W args blobs = xs.mapM f := by
  have stand := acc.stand []
  rw [List.append_nil] at stand
  exact mapM_eq_of_map stand

theorem bind_ok {α β : Type} {x : Except Raised α} {f : α → Except Raised β} {b : β} :
    (x >>= f) = .ok b ↔ ∃ a, x = .ok a ∧ f a = .ok b := by
  cases x <;> simp [bind, Except.bind]

inductive Sends (worker generation : Nat) (t : Tensor) (shape : List Nat) (dtype : Dtype) :
    List Blob × Nat → Arg → List Blob × Nat → Prop where
  | handle {current handle acc} : t.on worker = some (current, handle) → current = generation →
      Sends worker generation t shape dtype acc (.handle handle) acc
  | blob {bytes blobs n} : t.on worker = none → t.binary = .ok bytes →
      Sends worker generation t shape dtype (blobs, n) (.blob n shape dtype) (bytes :: blobs, n + 1)

theorem eagerInput_ok {t : Tensor} {acc acc' : List Blob × Nat} {arg : Arg} :
    eagerInput worker generation t acc = .ok (arg, acc') ↔
      Sends worker generation t t.shape t.dtype acc arg acc' := by
  obtain ⟨blobs, n⟩ := acc
  unfold eagerInput
  constructor
  · intro h
    dsimp only at h
    split at h
    · rename_i current handle here
      split at h
      · cases h
        exact .handle here ‹_›
      · cases h
    · rename_i away
      obtain ⟨bytes, read, h⟩ := bind_ok.mp h
      cases h
      exact .blob away read
  · intro sends
    cases sends with
    | handle here same => simp [here, same]
    | blob away read => simp [away, read, bind, Except.bind]

theorem buildInput_ok {params : List Tensor} {input : InputSpec} {args args' : List Arg}
    {blobs blobs' : List Blob}
    {k k' : Nat} : buildInput worker generation params (args, blobs, k) input =
      .ok (args', blobs', k') ↔
      ∃ t arg, params[input.index]? = some t ∧ args' = arg :: args ∧
        Sends worker generation t input.shape input.dtype (blobs, k) arg (blobs', k') := by
  unfold buildInput
  constructor
  · intro h
    dsimp only at h
    split at h
    · cases h
    · rename_i t there
      split at h
      · rename_i current handle here
        split at h
        · cases h
          exact ⟨t, _, there, rfl, .handle here ‹_›⟩
        · cases h
      · rename_i away
        obtain ⟨bytes, read, h⟩ := bind_ok.mp h
        cases h
        exact ⟨t, _, there, rfl, .blob away read⟩
  · rintro ⟨t, arg, there, rfl, sends⟩
    cases sends with
    | handle here same => simp [there, here, same]
    | blob away read => simp [there, away, read, bind, Except.bind]

structure Sent (W : Values V) (args : List Arg) (acc : List Blob × Nat)
    (values : List (Option V)) : Prop where
  count : acc.2 = acc.1.length
  accounts : Accounts W args acc.1.reverse values

theorem Sent.step {acc acc' : List Blob × Nat} {arg : Arg} {t : Tensor} (sent : Sent W args acc values)
    (sends : Sends worker generation t t.shape t.dtype acc arg acc') :
    Sent W (args ++ [arg]) acc' (values ++ [t.value W worker]) := by
  cases sends with
  | @handle current handle _ here same =>
    have value : t.value W worker = W.registry handle := by simp [Tensor.value, here]
    rw [value]
    exact ⟨sent.count, sent.accounts.handle handle⟩
  | @blob bytes blobs n away read =>
    have value : t.value W worker = W.decode bytes t.shape t.dtype := by simp [Tensor.value, away, read]
    have count : n = blobs.reverse.length := by
      have len : n = blobs.length := sent.count
      rw [List.length_reverse, len]
    rw [value, count]
    refine ⟨by simp, ?_⟩
    rw [List.reverse_cons]
    exact sent.accounts.blob bytes t.shape t.dtype

theorem eagerMapReduce_sent {inputs : List Tensor} {done args : List Arg} {acc acc' : List Blob × Nat}
    (sent : Sent W done acc values)
    (ran : eagerMapReduce worker generation inputs acc = .ok (args, acc')) :
    Sent W (done ++ args) acc' (values ++ inputs.map (Tensor.value W worker)) := by
  induction inputs generalizing done args acc values with
  | nil =>
    cases ran
    simpa using sent
  | cons t rest ih =>
    obtain ⟨⟨arg, next⟩, one, ran⟩ := bind_ok.mp ran
    obtain ⟨⟨more, last⟩, all, ran⟩ := bind_ok.mp ran
    cases ran
    have tail := ih (sent.step (eagerInput_ok.mp one)) all
    simpa using tail

/-- The graph's inputs declare the shapes and types of their parameters. -/
def Declares (params : List Tensor) (inputs : List InputSpec) : Prop :=
  ∀ i ∈ inputs, ∀ t, params[i.index]? = some t → t.shape = i.shape ∧ t.dtype = i.dtype

def paramValue (W : Values V) (worker : Nat) (params : List Tensor) (i : InputSpec) : Option V :=
  params[i.index]?.bind (Tensor.value W worker)

theorem buildInputs_sent {params : List Tensor} {inputs : List InputSpec} {args args' : List Arg}
    {blobs blobs' : List Blob} {k k' : Nat} (declared : Declares params inputs)
    (sent : Sent W args.reverse (blobs, k) values)
    (ran : inputs.foldlM (buildInput worker generation params)
    (args, blobs, k) = .ok (args', blobs', k')) :
    Sent W args'.reverse (blobs', k') (values ++ inputs.map (paramValue W worker params)) := by
  induction inputs generalizing args blobs k values with
  | nil =>
    cases ran
    simpa using sent
  | cons i rest ih =>
    rw [List.foldlM_cons] at ran
    obtain ⟨⟨args₁, blobs₁, k₁⟩, one, ran⟩ := bind_ok.mp ran
    obtain ⟨t, arg, there, rfl, sends⟩ := buildInput_ok.mp one
    obtain ⟨shape, dtype⟩ := declared i (List.mem_cons_self ..) t there
    rw [← shape, ← dtype] at sends
    have value : paramValue W worker params i = t.value W worker := by simp [paramValue, there]
    have here := sent.step sends
    rw [← List.reverse_cons, ← value] at here
    have tail := ih (fun j mem => declared j (List.mem_cons_of_mem _ mem)) here ran
    simpa using tail

theorem graphEnv_bound {constants : Env V} {inputs : List InputSpec} {tensors : List V}
    {f : InputSpec → Option V}
    (distinct : (inputs.map (·.id)).Nodup) (given : inputs.mapM f = some tensors) :
    ∀ i ∈ inputs, graphEnv constants inputs tensors i.id = f i := by
  intro i mem
  obtain ⟨k, at_i⟩ := List.mem_iff_getElem?.mp mem
  obtain ⟨len, entries⟩ := NDArray.mapM_get given
  have low : k < tensors.length := len ▸ (List.getElem?_eq_some_iff.mp at_i).1
  have at_v := List.getElem?_eq_getElem low
  have at_id : (inputs.map (·.id))[k]? = some i.id := by simp [at_i]
  have value := entries k
  rw [at_v, at_i, Option.bind_some] at value
  exact (assign_getElem distinct at_id at_v).trans value

theorem sends_fresh {t : Tensor} {shape : List Nat} {dtype : Dtype} {acc : List Blob × Nat} :
    (∃ arg acc', Sends worker generation t shape dtype acc arg acc') ↔ t.Fresh worker generation := by
  unfold Tensor.Fresh
  constructor
  · rintro ⟨_, _, sends⟩
    cases sends with
    | handle here same => simpa [here] using same
    | blob away read => simpa [away] using ⟨_, read⟩
  · intro fresh
    cases place : t.on worker with
    | none =>
      rw [place] at fresh
      obtain ⟨bytes, read⟩ := fresh
      obtain ⟨blobs, n⟩ := acc
      exact ⟨_, _, .blob place read⟩
    | some p =>
      rw [place] at fresh
      exact ⟨_, _, .handle place fresh⟩

theorem eagerMapReduce_ok {inputs : List Tensor} {acc : List Blob × Nat} :
    (∃ r, eagerMapReduce worker generation inputs acc = .ok r) ↔
    ∀ t ∈ inputs, t.Fresh worker generation := by
  induction inputs generalizing acc with
  | nil => simp [eagerMapReduce]
  | cons t rest ih =>
    constructor
    · rintro ⟨r, ran⟩
      obtain ⟨⟨arg, next⟩, one, ran⟩ := bind_ok.mp ran
      obtain ⟨more, all, _⟩ := bind_ok.mp ran
      exact List.forall_mem_cons.mpr ⟨sends_fresh.mp ⟨_, _, eagerInput_ok.mp one⟩, ih.mp ⟨more, all⟩⟩
    · intro fresh
      obtain ⟨first, others⟩ := List.forall_mem_cons.mp fresh
      obtain ⟨arg, next, sends⟩ := sends_fresh.mpr first
      obtain ⟨more, all⟩ := ih.mpr others
      exact ⟨_, bind_ok.mpr ⟨_, eagerInput_ok.mpr sends, bind_ok.mpr ⟨more, all, rfl⟩⟩⟩

theorem buildInputs_ok {params : List Tensor} {inputs : List InputSpec}
    {acc : List Arg × List Blob × Nat} :
    (∃ r, inputs.foldlM (buildInput worker generation params) acc = .ok r) ↔
      ∀ i ∈ inputs, ∃ t, params[i.index]? = some t ∧ t.Fresh worker generation := by
  induction inputs generalizing acc with
  | nil => exact ⟨fun _ i mem => (nomatch mem), fun _ => ⟨acc, rfl⟩⟩
  | cons i rest ih =>
    obtain ⟨args, blobs, k⟩ := acc
    rw [List.foldlM_cons]
    constructor
    · rintro ⟨r, ran⟩
      obtain ⟨next, one, ran⟩ := bind_ok.mp ran
      obtain ⟨t, arg, there, _, sends⟩ := buildInput_ok.mp one
      exact List.forall_mem_cons.mpr ⟨⟨t, there, sends_fresh.mp ⟨_, _, sends⟩⟩, ih.mp ⟨r, ran⟩⟩
    · intro fresh
      obtain ⟨⟨t, there, fresh⟩, others⟩ := List.forall_mem_cons.mp fresh
      obtain ⟨arg, next, sends⟩ := sends_fresh.mpr fresh
      obtain ⟨r, ran⟩ := ih.mpr others
      exact ⟨r, bind_ok.mpr ⟨_, buildInput_ok.mpr ⟨t, arg, there, rfl, sends⟩, ran⟩⟩

theorem buildInputs_binds {params : List Tensor} {inputs : List InputSpec} {args : List Arg}
    {blobs : List Blob}
    (declared : Declares params inputs)
    (built : buildInputs worker generation params inputs = .ok (args, blobs)) :
    Accounts W args blobs (inputs.map (paramValue W worker params)) := by
  obtain ⟨⟨args', blobs', k⟩, ran, built⟩ := bind_ok.mp built
  cases built
  have start : Sent W ([] : List Arg).reverse ([], 0) [] := ⟨rfl, .start⟩
  exact (buildInputs_sent declared start ran).accounts

theorem eagerInputs_binds {inputs : List Tensor} {args : List Arg} {blobs : List Blob}
    (built : eagerInputs worker generation inputs = .ok (args, blobs)) :
    Accounts W args blobs (inputs.map (Tensor.value W worker)) := by
  obtain ⟨⟨args', blobs', k⟩, ran, built⟩ := bind_ok.mp built
  cases built
  have start : Sent W [] ([], 0) [] := ⟨rfl, .start⟩
  exact (eagerMapReduce_sent start ran).accounts

end

theorem bind_pure_ok {α β : Type} {x : Except Raised α} {f : α → β} :
    (∃ r, (x >>= fun a => .ok (f a)) = .ok r) ↔ ∃ r, x = .ok r := by
  cases x <;> simp [bind, Except.bind]

/-- Every input of a graph is bound to its parameter and every operand of a node to its place; each blob
    is used once. The encoders raise for stale tensors and missing parameters only. -/
theorem inputs_bound {V : Type} (W : Values V) (worker generation : Nat) (constants : Env V)
    {params : List Tensor} {inputs : List InputSpec} (declared : Declares params inputs)
    (distinct : (inputs.map (·.id)).Nodup) (operands : List Tensor) :
    ((∃ r, buildInputs worker generation params inputs = .ok r) ↔
      ∀ i ∈ inputs, ∃ t, params[i.index]? = some t ∧ t.Fresh worker generation) ∧
    (∀ args blobs, buildInputs worker generation params inputs = .ok (args, blobs) →
      args.filterMap Arg.blobIndex? = List.range blobs.length ∧
      executeInputs W args blobs = inputs.mapM (paramValue W worker params) ∧
      ∀ tensors, executeInputs W args blobs = some tensors →
        ∀ i ∈ inputs, graphEnv constants inputs tensors i.id = paramValue W worker params i) ∧
    ((∃ r, eagerInputs worker generation operands = .ok r) ↔
    ∀ t ∈ operands, t.Fresh worker generation) ∧
    ∀ args blobs, eagerInputs worker generation operands = .ok (args, blobs) →
      args.filterMap Arg.blobIndex? = List.range blobs.length ∧
      runNodeEnv W args blobs =
      (operands.mapM (Tensor.value W worker)).map (fun ts (k : Nat) => ts[k]?) ∧
      ∀ env, runNodeEnv W args blobs = some env →
        ∀ k : Nat, env k = operands[k]?.bind (Tensor.value W worker) := by
  refine ⟨bind_pure_ok.trans buildInputs_ok, ?_, bind_pure_ok.trans eagerMapReduce_ok, ?_⟩
  · intro args blobs built
    have binds : Accounts W args blobs _ := buildInputs_binds declared built
    refine ⟨binds.used, binds.executed, fun tensors given => ?_⟩
    rw [binds.executed] at given
    exact graphEnv_bound distinct given
  · intro args blobs built
    have binds : Accounts W args blobs _ := eagerInputs_binds built
    have ran := binds.executed
    refine ⟨binds.used, congrArg (Option.map _) ran, fun env given k => ?_⟩
    obtain ⟨tensors, all, rfl⟩ := Option.map_eq_some_iff.mp given
    exact (NDArray.mapM_get (ran.symm.trans all)).2 k

/-- A tensor on worker 0 in its first generation, and one of bytes. -/
def resident : Tensor := ⟨.backend 0 1 5, [2], .u8, .error .outOfBounds⟩

def bytesOf (blob : Blob) : Tensor := ⟨.host, [2], .u8, .ok blob⟩

def readBytes : Values Blob :=
  ⟨fun id => if id = 5 then some [9, 9] else none, fun blob _ _ => some blob⟩

def elsewhere : Tensor := ⟨.backend 1 1 5, [2], .u8, .ok [3, 4]⟩

def fourParams : List Tensor := [bytesOf [1, 2], bytesOf [0, 0], resident, elsewhere]

/-- Parameters 0, 2 and 3 are used, the last of them first. -/
def threeInputs : List InputSpec := [⟨0, 3, [2], .u8⟩, ⟨1, 2, [2], .u8⟩, ⟨4, 0, [2], .u8⟩]

theorem three_declared : Declares fourParams threeInputs := by
  intro i mem t there
  have inside : t ∈ fourParams := List.mem_of_getElem? there
  simp only [threeInputs, fourParams, List.mem_cons, List.not_mem_nil, or_false] at mem inside
  rcases mem with rfl | rfl | rfl <;> rcases inside with rfl | rfl | rfl | rfl <;> exact ⟨rfl, rfl⟩

theorem three_bound :
    (∃ args blobs, buildInputs 0 1 fourParams threeInputs = .ok (args, blobs) ∧
      executeInputs readBytes args blobs = some [[3, 4], [9, 9], [1, 2]]) ∧
    ∃ args blobs env, eagerInputs 0 1 fourParams = .ok (args, blobs) ∧
      runNodeEnv readBytes args blobs = some env ∧
      (List.range 4).map env = [some [1, 2], some [0, 0], some [9, 9], some [3, 4]] := by
  obtain ⟨_, compiled, _, eager⟩ :=
    inputs_bound readBytes 0 1 (fun _ => none) three_declared (by decide) fourParams
  refine ⟨⟨_, _, rfl, (compiled _ _ rfl).2.1⟩, _, _, _, rfl, (eager _ _ rfl).2.1.trans rfl, ?_⟩
  decide

end NxTinygrad.Bindings
