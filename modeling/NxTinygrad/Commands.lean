import NxTinygrad.Immutable
import NxTinygrad.Validate

/- `Handler` of main.py: the commands on a request as it comes off the wire. Where a called numpy or
   tinygrad operation raises, and what the others do, is given along with the request. Arrays and
   tensors made before an exception are garbage and left out. -/
namespace NxTinygrad.Commands
open Immutable

def truthy : Json → Bool
  | .null => false
  | .bool b => b
  | .int n => n ≠ 0
  | .float m _ => m ≠ 0
  | .nonFinite => true
  | .str s => s ≠ ""
  | .arr items => !items.isEmpty
  | .obj fields => !fields.isEmpty

def hashable : Json → Bool
  | .arr _ | .obj _ => false
  | _ => true

def key? (j : Json) : Option Nat := j.number?.bind fun n => if 0 ≤ n then some n.toNat else none

def getOr (args : Json) (key : String) (default : Json) : Option Json :=
  if args.isObj then some ((args.field? key).getD default) else none

def iterate : Json → Option (List Json)
  | .arr items => some items
  | .str s => some (s.toList.map fun c => .str (String.ofList [c]))
  | .obj fields => some (fields.map fun f => .str f.1)
  | _ => none

def blobAt {α : Type} (blobs : List α) (j : Json) : Option α :=
  j.int?.bind fun i =>
    if 0 ≤ i then blobs[i.toNat]? else if -i ≤ blobs.length then blobs[blobs.length - (-i).toNat]?
    else none

structure Buffer where
  shape : List Json
  dtype : Json
  nbytes : Nat

structure OutputSpec where
  shape : List Json
  dtype : Json

/-- `buffers` and `specs` belong to the ids of `worker`. -/
structure Handler (E : Type) where
  worker : Worker E
  buffers : Nat → Buffer
  specs : Nat → List OutputSpec
  shouldStop : Bool

variable {E : Type}

def Handler.fresh (E : Type) : Handler E := ⟨.fresh E, fun _ => ⟨[], .null, 0⟩, fun _ => [], false⟩

/-- What the called operations do. `arrays` is what numpy and tinygrad make of the blobs of the
    request, in order, each with its size; `outputs` what they make of the outputs of `execute`. An
    entry that is missing is an operation that raises, and so is `raises`. -/
structure Calls (E : Type) where
  arrays : List (List E × Nat)
  raises : Bool
  effects : List (Effect E)
  captured : Option (List (Tensor E × Contiguous))
  made : List (List E)
  result : Tensor E
  how : Contiguous
  shape : List Nat
  nbytes : Option Nat
  evaluation : Evaluation E
  writes : List (Nat × List E)
  outputs : List (Fast × Nat)

/-- Where an exception comes from: the copy or the size of an output of `execute`, an id that is to be
    released, or anything before. -/
inductive Point where
  | early
  | output (k : Nat)
  | id (k : Nat)
  deriving DecidableEq, Repr

inductive Reply where
  | ok
  | raised (at_point : Point)
  deriving DecidableEq, Repr

def Handler.refuse (h : Handler E) : Option (Handler E × Reply) := some (h, .raised .early)

def extend {α : Type} (old : Nat → α) (first : Nat) (new : List α) : Nat → α :=
  fun id => if first ≤ id then (new[id - first]?).getD (old id) else old id

def inputsOf (blobs : List (List UInt8)) : List Json → List (List E × Nat) → Option (List (Input E))
  | [], _ => some []
  | spec :: rest, arrays => match spec.field? "kind" with
    | some (.str "handle") => do
        let id ← (spec.field? "id").bind key?
        let more ← inputsOf blobs rest arrays
        some (.handle id :: more)
    | some (.str "blob") => match arrays with
      | [] => none
      | (v, _) :: arrays => do
          let _ ← (spec.field? "blob_index").bind (blobAt blobs)
          let _ ← spec.field? "dtype"
          let _ ← spec.field? "shape"
          let more ← inputsOf blobs rest arrays
          some (.blob v :: more)
    | _ => none

def resident (w : Worker E) (inputs : List (Input E)) : Bool :=
  (gather w.registry w.store inputs).2.isSome

def cmdHello (h : Handler E) (args : Json) : Option (Handler E × Reply) :=
  match getOr args "protocol_version" .null with
  | none => h.refuse
  | some .null => some (h, .ok)
  | some version => if version.number? = some 1 then some (h, .ok) else h.refuse

/-- `device_info`, `stats` and `synchronize` change neither registry. -/
def cmdReport (h : Handler E) (o : Calls E) : Option (Handler E × Reply) :=
  if o.raises then h.refuse else some (h, .ok)

def cmdCompile (folds : Bool) (h : Handler E) (args : Json) (o : Calls E) :
    Option (Handler E × Reply) :=
  match args.field? "graph" with
  | none => h.refuse
  | some graph =>
      (step folds h.worker (.compile o.effects o.captured o.raises)).map fun w =>
        if o.raises then ({ h with worker := w }, .raised .early)
        else
          let outputs := ((graph.field? "outputs").bind iterate).getD []
          let specs := outputs.map fun spec =>
            ⟨((spec.field? "shape").bind iterate).getD [], (spec.field? "dtype").getD .null⟩
          ({ h with worker := w, specs := extend h.specs h.worker.nextExecutable [specs] }, .ok)

/-- The arguments of `execute`: the executable, the inputs, and whether the outputs go to the host. -/
def executeArgs (args : Json) (blobs : List (List UInt8)) (o : Calls E) :
    Option (Nat × List (Input E) × Bool) := do
  let id ← (args.field? "executable_id").bind key?
  let mode ← getOr args "output" (.str "device")
  let specs ← (args.field? "inputs").bind iterate
  let inputs ← inputsOf blobs specs o.arrays
  some (id, inputs, mode.str? == some "host")

/-- The end of `execute` in device mode: `immutable_copy`, the size and `put` for each output. -/
def registerOutputs (folds : Bool) (h : Handler E) (outs : List (Tensor E)) (values : List (List E))
    (specs : List OutputSpec) (o : Calls E) : Option (Handler E × Reply) :=
  let total := min outs.length specs.length
  let done := o.outputs.take total
  (h.worker.putCopies folds outs values (done.map Prod.fst)).map fun w =>
    let buffers := List.zipWith (fun spec p => ⟨spec.shape, spec.dtype, p.2⟩) specs done
    let h := { h with worker := w, buffers := extend h.buffers h.worker.nextId buffers }
    if done.length < total then (h, .raised (.output done.length)) else (h, .ok)

def cmdExecute (folds : Bool) (h : Handler E) (args : Json) (blobs : List (List UInt8)) (o : Calls E) :
    Option (Handler E × Reply) :=
  match executeArgs args blobs o with
  | none => h.refuse
  | some (id, inputs, host) => match h.worker.executables.lookup id with
    | none => h.refuse
    | some x => match gather h.worker.registry h.worker.store inputs with
      | (s, none) => some ({ h with worker := { h.worker with store := s } }, .raised .early)
      | (s, some inputs) => do
          let (outs, s, x) ← x.run folds s inputs o.evaluation o.writes
          let h := { h with worker := { h.worker with store := s }.setExecutable id x }
          if o.raises then some (h, .raised .early)
          else do
            let values ← outs.mapM fun t => t.cell.value s.heap
            -- in host mode the outputs are downloaded, one after the other
            if host then
              if o.outputs.length < min outs.length (h.specs id).length then some (h, .raised .early)
              else some (h, .ok)
            else registerOutputs folds h outs values (h.specs id) o

/-- The arguments of `run_node`: the inputs, the shape and the dtype. -/
def runNodeArgs (args : Json) (blobs : List (List UInt8)) (o : Calls E) :
    Option (List (Input E) × List Json × String) := do
  let op ← ((args.field? "op").bind Json.str?)
  if Validate.supportedOps.contains op && !(["while", "reduce", "window_reduce"].contains op) then do
    let shape ← (args.field? "shape").bind iterate
    let dtype ← (args.field? "dtype").bind Json.str?
    if IR.dtypeNames.contains dtype then do
      let specs ← (args.field? "inputs").bind iterate
      let inputs ← inputsOf blobs specs o.arrays
      some (inputs, shape, dtype)
    else none
  else none

def shapeFits (found : List Nat) (shape : List Json) (dtype : String) : Bool :=
  let expected :=
    if ((IR.Dtype.ofName? dtype).map IR.Dtype.isComplex).getD false then shape ++ [.int 2] else shape
  expected.map Json.number? == found.map fun (d : Nat) => some (d : Int)

def cmdRunNode (folds : Bool) (h : Handler E) (args : Json) (blobs : List (List UInt8)) (o : Calls E) :
    Option (Handler E × Reply) :=
  match runNodeArgs args blobs o with
  | none => h.refuse
  | some (inputs, shape, dtype) =>
      let raises := o.raises || !shapeFits o.shape shape dtype || o.nbytes.isNone
      (step folds h.worker (.runNode inputs o.made o.result o.how raises)).map fun w =>
        if raises || !resident h.worker inputs then ({ h with worker := w }, .raised .early)
        else
          let buffer := ⟨shape, .str dtype, o.nbytes.getD 0⟩
          ({ h with worker := w, buffers := extend h.buffers h.worker.nextId [buffer] }, .ok)

def cmdUpload (folds : Bool) (h : Handler E) (args : Json) (blobs : List (List UInt8)) (o : Calls E) :
    Option (Handler E × Reply) :=
  match blobs, (args.field? "shape").bind iterate, args.field? "dtype", o.arrays with
  | _ :: _, some shape, some dtype, (v, nbytes) :: _ =>
      (step folds h.worker (.upload v)).map fun w =>
        ({ h with worker := w, buffers := extend h.buffers h.worker.nextId [⟨shape, dtype, nbytes⟩] }, .ok)
  | _, _, _, _ => h.refuse

def cmdDownload (folds : Bool) (h : Handler E) (args : Json) (o : Calls E) :
    Option (Handler E × Reply) :=
  match ((args.field? "id").bind key?) with
  | none => h.refuse
  | some id =>
      if o.raises || (h.worker.registry.lookup id).isNone then h.refuse
      else (step folds h.worker (.download id)).map fun w => ({ h with worker := w }, .ok)

def pop {α : Type} (entries : List (Nat × α)) (id : Json) : List (Nat × α) :=
  match key? id with
  | some n => entries.filter fun e => e.1 ≠ n
  | none => entries

/-- `release`: the ids one after the other, the first of which is number `k`. An empty dictionary does not
    hash what it is asked to pop. -/
def popAll {α : Type} (entries : List (Nat × α)) (k : Nat) : List Json → List (Nat × α) × Reply
  | [] => (entries, .ok)
  | id :: rest =>
      if entries.isEmpty || hashable id then popAll (pop entries id) (k + 1) rest
      else (entries, .raised (.id k))

def releaseIds (args : Json) : Option (List Json) := (getOr args "ids" (.arr [])).bind iterate

def cmdRelease (h : Handler E) (args : Json) : Option (Handler E × Reply) :=
  match releaseIds args with
  | none => h.refuse
  | some ids =>
      let (registry, reply) := popAll h.worker.registry 0 ids
      some ({ h with worker := { h.worker with registry := registry } }, reply)

def cmdReleaseExecutable (h : Handler E) (args : Json) : Option (Handler E × Reply) :=
  match releaseIds args with
  | none => h.refuse
  | some ids =>
      let (executables, reply) := popAll h.worker.executables 0 ids
      some ({ h with worker := { h.worker with executables := executables } }, reply)

inductive Command where
  | hello | deviceInfo | compile | execute | runNode | upload | download | release | releaseExecutable
  | stats | synchronize | shutdown
  deriving DecidableEq, Repr

def dispatch : List (String × Command) :=
  [("hello", .hello), ("device_info", .deviceInfo), ("compile", .compile), ("execute", .execute),
    ("run_node", .runNode), ("upload", .upload), ("download", .download), ("release", .release),
    ("release_executable", .releaseExecutable), ("stats", .stats), ("synchronize", .synchronize),
    ("shutdown", .shutdown)]

def run (folds : Bool) (h : Handler E) (args : Json) (blobs : List (List UInt8)) (o : Calls E) :
    Command → Option (Handler E × Reply)
  | .hello => cmdHello h args
  | .deviceInfo | .stats | .synchronize => cmdReport h o
  | .compile => cmdCompile folds h args o
  | .execute => cmdExecute folds h args blobs o
  | .runNode => cmdRunNode folds h args blobs o
  | .upload => cmdUpload folds h args blobs o
  | .download => cmdDownload folds h args o
  | .release => cmdRelease h args
  | .releaseExecutable => cmdReleaseExecutable h args
  | .shutdown => some ({ h with shouldStop := true }, .ok)

structure Request where
  header : Json
  blobs : List (List UInt8)

def Request.args (r : Request) : Json :=
  let args := (r.header.field? "args").getD .null
  if truthy args then args else .obj []

/-- `_dispatch.get(meta.get("command"))`; nothing for a request that raises before the `try`. -/
def Request.command (r : Request) : Option (Option Command) :=
  if r.header.isObj then
    match (r.header.field? "command").getD .null with
    | .arr _ | .obj _ => none
    | .str name => some (dispatch.lookup name)
    | _ => some none
  else none

def handle (folds : Bool) (h : Handler E) (r : Request) (o : Calls E) : Option (Handler E × Reply) :=
  match r.command with
  | none => none
  | some none => h.refuse
  | some (some command) => run folds h r.args r.blobs o command

def Handler.content (h : Handler E) (id : Nat) : Option (Option (List E)) :=
  (h.worker.registry.lookup id).map fun t => t.cell.value h.worker.store.heap

def Handler.bufferBytes (h : Handler E) : Nat :=
  (h.worker.registry.map fun e => (h.buffers e.1).nbytes).sum

structure Unchanged (h h' : Handler E) : Prop where
  buffers : ∀ id, h'.content id = h.content id
  executables : ∀ id, (h'.worker.executables.lookup id).isSome = (h.worker.executables.lookup id).isSome
  bytes : h'.bufferBytes = h.bufferBytes

/-- What `release` or `release_executable` looks an id up in. -/
def residentIds (h : Handler E) : Option (Option Command) → List Nat
  | some (some .releaseExecutable) => h.worker.executables.map Prod.fst
  | _ => h.worker.registry.map Prod.fst

/-- The exception comes before the first output is registered, or before the first id that is there. -/
def Clean (h : Handler E) (r : Request) : Point → Prop
  | .early => True
  | .output k => k = 0
  | .id k => ∀ ids, releaseIds r.args = some ids → ∀ id ∈ ids.take k, ∀ n, key? id = some n →
      n ∉ residentIds h r.command

/-- The registries and what is known of their entries are the same. -/
structure Same (h h' : Handler E) : Prop where
  registry : h'.worker.registry = h.worker.registry
  log : h'.worker.log = h.worker.log
  executables : h'.worker.executables.map Prod.fst = h.worker.executables.map Prod.fst
  buffers : h'.buffers = h.buffers

variable {folds : Bool} {h h' : Handler E} {r : Request} {args : Json} {blobs : List (List UInt8)}
  {o : Calls E}
  {reply : Reply}

theorem same_refl (h : Handler E) : Same h h := ⟨rfl, rfl, rfl, rfl⟩

theorem lookup_isSome {α : Type} (entries : List (Nat × α)) (id : Nat) :
    (entries.lookup id).isSome ↔ id ∈ entries.map Prod.fst := by
  induction entries with
  | nil => simp
  | cons e rest ih =>
    obtain ⟨n, x⟩ := e
    by_cases same : id = n
    · simp [same]
    · simp [List.lookup_cons, beq_false_of_ne same, same, ih]

theorem content_isSome (h : Handler E) (id : Nat) :
    (h.content id).isSome ↔ id ∈ h.worker.registry.map Prod.fst := by
  rw [Handler.content, Option.isSome_map, lookup_isSome]

theorem same_unchanged (inv : Inv h.worker) (inv' : Inv h'.worker) (same : Same h h') :
    Unchanged h h' := by
  refine ⟨fun id => ?_, fun id => ?_, ?_⟩
  · rw [Handler.content, Handler.content, same.registry]
    cases found : h.worker.registry.lookup id with
    | none => rfl
    | some t =>
      obtain ⟨v, made, value⟩ := download_value inv found
      obtain ⟨v', made', value'⟩ := download_value inv' (by rw [same.registry, found])
      rw [same.log] at made'
      simp only [Option.map_some, value, value', created_unique inv made made']
  · rw [Bool.eq_iff_iff, lookup_isSome, lookup_isSome, same.executables]
  · rw [Handler.bufferBytes, Handler.bufferBytes, same.registry, same.buffers]

theorem setExecutable_keys (w : Worker E) (id : Nat) (x : Executable E) :
    (w.setExecutable id x).executables.map Prod.fst = w.executables.map Prod.fst := by
  rw [Worker.setExecutable, List.map_map]
  refine List.map_congr_left fun e _ => ?_
  rw [Function.comp_apply]
  split
  · rename_i same
    exact same.symm
  · rfl

theorem putCopies_keeps {w w' : Worker E} {ts : List (Tensor E)} {vs : List (List E)}
    {copies : List Fast}
    (made : w.putCopies folds ts vs copies = some w') {id : Nat} (old : id ∈ w.registry.map Prod.fst) :
    id ∈ w'.registry.map Prod.fst := by
  induction ts generalizing w vs copies with
  | nil =>
    cases made
    exact old
  | cons t ts ih =>
    cases vs with
    | nil =>
      cases made
      exact old
    | cons v vs =>
      cases copies with
      | nil =>
        cases made
        exact old
      | cons fast more =>
        obtain ⟨⟨copy, s⟩, _, made⟩ := Option.bind_eq_some_iff.mp made
        exact ih made (List.mem_cons_of_mem _ old)

theorem putCopies_first {w w' : Worker E} {t : Tensor E} {ts : List (Tensor E)} {v : List E}
    {vs : List (List E)} {fast : Fast} {copies : List Fast}
    (made : w.putCopies folds (t :: ts) (v :: vs) (fast :: copies) = some w') :
    w.nextId ∈ w'.registry.map Prod.fst := by
  obtain ⟨⟨copy, s⟩, _, made⟩ := Option.bind_eq_some_iff.mp made
  exact putCopies_keeps made (List.mem_cons_self ..)

theorem nextId_fresh (inv : Inv h.worker) : h.worker.nextId ∉ h.worker.registry.map Prod.fst := by
  intro mem
  obtain ⟨p, entry, same⟩ := List.mem_map.mp mem
  obtain ⟨v, made, _⟩ := inv.held p entry
  have young := inv.young p.1 v made
  omega

theorem values_length {outs : List (Tensor E)} {values : List (List E)} {s : Buffers.Store (List E)}
    (computed : (outs.mapM fun t => t.cell.value s.heap) = some values) :
      values.length = outs.length := by
  induction outs generalizing values with
  | nil =>
    cases computed
    rfl
  | cons t rest ih =>
    rw [List.mapM_cons] at computed
    obtain ⟨v, _, computed⟩ := Option.bind_eq_some_iff.mp computed
    obtain ⟨vs, later, computed⟩ := Option.bind_eq_some_iff.mp computed
    cases computed
    rw [List.length_cons, List.length_cons, ih later]

theorem registerOutputs_answers {outs : List (Tensor E)} {values : List (List E)}
    {specs : List OutputSpec}
    (same_length : values.length = outs.length)
    (ended : registerOutputs folds h outs values specs o = some (h', reply)) :
    reply = .ok ∨ ∃ k, reply = .raised (.output k) ∧ (k = 0 → Same h h') ∧
      (0 < k → h.worker.nextId ∈ h'.worker.registry.map Prod.fst) := by
  obtain ⟨w, made, ended⟩ := Option.map_eq_some_iff.mp ended
  dsimp only at ended
  split at ended
  · rename_i short
    cases ended
    refine .inr ⟨_, rfl, ?_⟩
    constructor
    · intro none
      rw [List.length_eq_zero_iff.mp none] at made ⊢
      have unmoved : w = h.worker := by
        rw [List.map_nil] at made
        cases outs <;> cases values <;> cases made <;> rfl
      have kept : extend h.buffers h.worker.nextId [] = h.buffers := by
        funext id
        simp [extend]
      rw [List.zipWith_nil_right, kept, unmoved]
      exact ⟨rfl, rfl, rfl, rfl⟩
    · intro some_output
      cases done : o.outputs.take (min outs.length specs.length) with
      | nil => simp [done] at some_output
      | cons p more =>
        rw [done, List.map_cons] at made
        have bound := List.length_take_le (min outs.length specs.length) o.outputs
        rw [done, List.length_cons] at bound
        cases outs with
        | nil => simp at bound
        | cons t ts =>
          cases values with
          | nil => cases same_length
          | cons v vs => exact putCopies_first made
  · cases ended
    exact .inl rfl

theorem pop_eq {α : Type} (entries : List (Nat × α)) (id : Json) :
    pop entries id = entries.filter fun e => !(key? id).toList.contains e.1 := by
  unfold pop
  split
  · rename_i n found
    simp [found]
  · rename_i none
    simp [none]

theorem popAll_spec {α : Type} {entries entries' : List (Nat × α)} {k : Nat} {ids : List Json}
    (ended : popAll entries k ids = (entries', reply)) : ∃ n,
      entries' = entries.filter (fun e => !((ids.take n).filterMap key?).contains e.1) ∧
        (reply = .ok ∨ reply = .raised (.id (k + n))) := by
  induction ids generalizing entries k with
  | nil =>
    cases ended
    exact ⟨0, by simp, .inl rfl⟩
  | cons id rest ih =>
    unfold popAll at ended
    split at ended
    · obtain ⟨n, removed, ends⟩ := ih ended
      refine ⟨n + 1, ?_, ends.imp_right fun raised => by rw [raised]; congr 2; omega⟩
      rw [removed, pop_eq, List.filter_filter, List.take_succ_cons, List.filterMap_cons]
      refine List.filter_congr fun e _ => ?_
      cases found : key? id with
      | none => simp
      | some n => simp [Bool.and_comm]
    · cases ended
      exact ⟨0, by simp, .inr rfl⟩

theorem filter_keys {α : Type} (entries : List (Nat × α)) (ids : List Nat) :
    (∀ n ∈ ids, n ∉ entries.map Prod.fst) ↔ entries.filter (fun e => !ids.contains e.1) = entries := by
  rw [List.filter_eq_self]
  simp only [List.mem_map, Bool.not_eq_true', List.contains_eq_mem, decide_eq_false_iff_not]
  constructor
  · intro absent e entry there
    exact absent e.1 there ⟨e, entry, rfl⟩
  · rintro all n there ⟨e, entry, rfl⟩
    exact all e entry there

theorem filter_gone {α : Type} (entries : List (Nat × α)) {ids : List Nat} {n : Nat} (mem : n ∈ ids) :
    n ∉ (entries.filter fun e => !ids.contains e.1).map Prod.fst := by
  intro there
  obtain ⟨e, entry, rfl⟩ := List.mem_map.mp there
  have kept := (List.mem_filter.mp entry).2
  simp [mem] at kept

theorem refuse_same (failed : h.refuse = some (h', reply)) : Same h h' ∧ reply = .raised .early := by
  cases failed
  exact ⟨same_refl h, rfl⟩

theorem compile_answers (ended : cmdCompile folds h args o = some (h', reply)) :
    reply = .ok ∨ Same h h' ∧ reply = .raised .early := by
  unfold cmdCompile at ended
  split at ended
  · exact .inr (refuse_same ended)
  · obtain ⟨w, moved, ended⟩ := Option.map_eq_some_iff.mp ended
    split at ended
    · rename_i raises
      cases ended
      obtain ⟨⟨s, owned⟩, _, moved⟩ := Option.bind_eq_some_iff.mp moved
      dsimp only at moved
      rw [if_pos raises] at moved
      cases moved
      exact .inr ⟨⟨rfl, rfl, rfl, rfl⟩, rfl⟩
    · cases ended
      exact .inl rfl

theorem runNode_answers (ended : cmdRunNode folds h args blobs o = some (h', reply)) :
    reply = .ok ∨ Same h h' ∧ reply = .raised .early := by
  unfold cmdRunNode at ended
  split at ended
  · exact .inr (refuse_same ended)
  · rename_i inputs shape dtype _
    obtain ⟨w, moved, ended⟩ := Option.map_eq_some_iff.mp ended
    split at ended
    · rename_i stopped
      cases ended
      simp only [step] at moved
      split at moved
      · cases moved
        exact .inr ⟨⟨rfl, rfl, rfl, rfl⟩, rfl⟩
      · rename_i gathered
        split at moved
        · cases moved
          exact .inr ⟨⟨rfl, rfl, rfl, rfl⟩, rfl⟩
        · rename_i runs
          simp [runs, resident, gathered] at stopped
    · cases ended
      exact .inl rfl

theorem execute_answers (ended : cmdExecute folds h args blobs o = some (h', reply)) :
    reply = .ok ∨ Same h h' ∧ reply = .raised .early ∨ ∃ k, reply = .raised (.output k) ∧
      (k = 0 → Same h h') ∧ (0 < k → h.worker.nextId ∈ h'.worker.registry.map Prod.fst) := by
  unfold cmdExecute at ended
  split at ended
  · exact .inr (.inl (refuse_same ended))
  · split at ended
    · exact .inr (.inl (refuse_same ended))
    · split at ended
      · cases ended
        exact .inr (.inl ⟨⟨rfl, rfl, rfl, rfl⟩, rfl⟩)
      · obtain ⟨⟨outs, s, x⟩, _, ended⟩ := Option.bind_eq_some_iff.mp ended
        dsimp only at ended
        split at ended
        · cases ended
          exact .inr (.inl ⟨⟨rfl, rfl, setExecutable_keys _ _ _, rfl⟩, rfl⟩)
        · obtain ⟨values, computed, ended⟩ := Option.bind_eq_some_iff.mp ended
          split at ended
          · split at ended
            · cases ended
              exact .inr (.inl ⟨⟨rfl, rfl, setExecutable_keys _ _ _, rfl⟩, rfl⟩)
            · cases ended
              exact .inl rfl
          · rcases registerOutputs_answers (values_length computed) ended with fine | ⟨k,
              raised, none, more⟩
            · exact .inl fine
            · refine .inr (.inr ⟨k, raised, fun first => ?_, more⟩)
              obtain ⟨registry, log, executables, buffers⟩ := none first
              exact ⟨registry, log, executables.trans (setExecutable_keys _ _ _), buffers⟩

theorem upload_answers (ended : cmdUpload folds h args blobs o = some (h', reply)) :
    reply = .ok ∨ Same h h' ∧ reply = .raised .early := by
  unfold cmdUpload at ended
  split at ended
  · obtain ⟨w, _, ended⟩ := Option.map_eq_some_iff.mp ended
    cases ended
    exact .inl rfl
  · exact .inr (refuse_same ended)

theorem download_answers (ended : cmdDownload folds h args o = some (h', reply)) :
    reply = .ok ∨ Same h h' ∧ reply = .raised .early := by
  unfold cmdDownload at ended
  split at ended
  · exact .inr (refuse_same ended)
  · split at ended
    · exact .inr (refuse_same ended)
    · obtain ⟨w, _, ended⟩ := Option.map_eq_some_iff.mp ended
      cases ended
      exact .inl rfl

theorem hello_answers (ended : cmdHello h args = some (h', reply)) :
    reply = .ok ∨ Same h h' ∧ reply = .raised .early := by
  unfold cmdHello at ended
  split at ended
  · exact .inr (refuse_same ended)
  · cases ended
    exact .inl rfl
  · split at ended
    · cases ended
      exact .inl rfl
    · exact .inr (refuse_same ended)

theorem report_answers (ended : cmdReport h o = some (h', reply)) :
    reply = .ok ∨ Same h h' ∧ reply = .raised .early := by
  unfold cmdReport at ended
  split at ended
  · exact .inr (refuse_same ended)
  · cases ended
    exact .inl rfl

def Moves (folds : Bool) (w w' : Worker E) : Prop := w' = w ∨ ∃ a, step folds w a = some w'

def Adds (folds : Bool) (w w' : Worker E) : Prop :=
  w' = w ∨ ∃ a : Label E, a.releases = false ∧ step folds w a = some w'

theorem Adds.moves {w w' : Worker E} (adds : Adds folds w w') : Moves folds w w' :=
  adds.imp_right fun ⟨a, _, moved⟩ => ⟨a, moved⟩

theorem Adds.grown {w w' : Worker E} (adds : Adds folds w w') : Grown w w' := by
  rcases adds with rfl | ⟨a, adds, moved⟩
  · exact grown_refl _
  · exact step_grown adds moved

theorem refuse_adds (ended : h.refuse = some (h', reply)) : Adds folds h.worker h'.worker := by
  cases ended
  exact .inl rfl

theorem compile_adds (ended : cmdCompile folds h args o = some (h', reply)) :
    Adds folds h.worker h'.worker := by
  unfold cmdCompile at ended
  split at ended
  · exact refuse_adds ended
  · obtain ⟨w, moved, ended⟩ := Option.map_eq_some_iff.mp ended
    split at ended <;> cases ended <;> exact .inr ⟨_, rfl, moved⟩

theorem runNode_adds (ended : cmdRunNode folds h args blobs o = some (h', reply)) :
    Adds folds h.worker h'.worker := by
  unfold cmdRunNode at ended
  split at ended
  · exact refuse_adds ended
  · obtain ⟨w, moved, ended⟩ := Option.map_eq_some_iff.mp ended
    split at ended <;> cases ended <;> exact .inr ⟨_, rfl, moved⟩

theorem upload_adds (ended : cmdUpload folds h args blobs o = some (h', reply)) :
    Adds folds h.worker h'.worker := by
  unfold cmdUpload at ended
  split at ended
  · obtain ⟨w, moved, ended⟩ := Option.map_eq_some_iff.mp ended
    cases ended
    exact .inr ⟨_, rfl, moved⟩
  · exact refuse_adds ended

theorem download_adds (ended : cmdDownload folds h args o = some (h', reply)) :
    Adds folds h.worker h'.worker := by
  unfold cmdDownload at ended
  split at ended
  · exact refuse_adds ended
  · split at ended
    · exact refuse_adds ended
    · obtain ⟨w, moved, ended⟩ := Option.map_eq_some_iff.mp ended
      cases ended
      exact .inr ⟨_, rfl, moved⟩

theorem execute_adds (ended : cmdExecute folds h args blobs o = some (h', reply)) :
    Adds folds h.worker h'.worker := by
  unfold cmdExecute at ended
  split at ended
  · exact refuse_adds ended
  · rename_i id inputs host _
    split at ended
    · exact refuse_adds ended
    · rename_i x listed
      split at ended
      · rename_i gathered
        cases ended
        exact .inr ⟨.execute id inputs o.evaluation o.writes [] true, rfl, by
          simp only [step, listed, gathered]⟩
      · rename_i gathered
        obtain ⟨⟨outs, s, x'⟩, ran, ended⟩ := Option.bind_eq_some_iff.mp ended
        -- the same command, as far as it gets
        have moved (raises : Bool) (copies : List Fast) :
            step folds h.worker (.execute id inputs o.evaluation o.writes copies raises) =
              if raises then some ({ h.worker with store := s }.setExecutable id x')
              else (outs.mapM fun t : Tensor E => t.cell.value s.heap).bind fun values =>
                ({ h.worker with store := s }.setExecutable id x').putCopies folds outs values
                  copies := by
          simp only [step, listed, gathered, ran, Option.bind_eq_bind, Option.bind_some]
        dsimp only at ended
        split at ended
        · cases ended
          exact .inr ⟨_, rfl, moved true []⟩
        · obtain ⟨values, computed, ended⟩ := Option.bind_eq_some_iff.mp ended
          split at ended
          · split at ended <;> cases ended <;> exact .inr ⟨_, rfl, moved true []⟩
          · obtain ⟨w, copied, ended⟩ := Option.map_eq_some_iff.mp ended
            have whole := moved false
              ((o.outputs.take (min outs.length (h.specs id).length)).map Prod.fst)
            rw [if_neg (by decide), computed, Option.bind_some, copied] at whole
            dsimp only at ended
            split at ended <;> cases ended <;> exact .inr ⟨_, rfl, whole⟩

theorem releaseExecutable_adds (ended : cmdReleaseExecutable h args = some (h', reply)) :
    Adds folds h.worker h'.worker := by
  unfold cmdReleaseExecutable at ended
  split at ended
  · exact refuse_adds ended
  · rename_i ids _
    cases ended
    obtain ⟨n, removed, _⟩ := popAll_spec (show popAll h.worker.executables 0 ids = (_, _) from rfl)
    exact .inr ⟨.releaseExecutable ((ids.take n).filterMap key?), rfl, by
      rw [step]; congr 2; exact removed.symm⟩

theorem hello_adds (ended : cmdHello h args = some (h', reply)) : Adds folds h.worker h'.worker := by
  unfold cmdHello at ended
  split at ended
  · exact refuse_adds ended
  · cases ended
    exact .inl rfl
  · split at ended
    · cases ended
      exact .inl rfl
    · exact refuse_adds ended

theorem report_adds (ended : cmdReport h o = some (h', reply)) : Adds folds h.worker h'.worker := by
  unfold cmdReport at ended
  split at ended
  · exact refuse_adds ended
  · cases ended
    exact .inl rfl

theorem run_adds {command : Command} (other : command ≠ .release)
    (ended : run folds h args blobs o command = some (h', reply)) : Adds folds h.worker h'.worker := by
  cases command with
  | hello => exact hello_adds ended
  | deviceInfo | stats | synchronize => exact report_adds ended
  | compile => exact compile_adds ended
  | execute => exact execute_adds ended
  | runNode => exact runNode_adds ended
  | upload => exact upload_adds ended
  | download => exact download_adds ended
  | release => exact absurd rfl other
  | releaseExecutable => exact releaseExecutable_adds ended
  | shutdown =>
    cases ended
    exact .inl rfl

theorem release_moves (ended : cmdRelease h args = some (h', reply)) :
    Moves folds h.worker h'.worker := by
  unfold cmdRelease at ended
  split at ended
  · exact (refuse_adds ended).moves
  · rename_i ids _
    cases ended
    obtain ⟨n, removed, _⟩ := popAll_spec (show popAll h.worker.registry 0 ids = (_, _) from rfl)
    exact .inr ⟨.release ((ids.take n).filterMap key?), by rw [step]; congr 2; exact removed.symm⟩

theorem run_moves {command : Command} (ended : run folds h args blobs o command = some (h', reply)) :
    Moves folds h.worker h'.worker := by
  by_cases release : command = .release
  · subst release
    exact release_moves ended
  · exact (run_adds release ended).moves

theorem handle_moves (ended : handle folds h r o = some (h', reply)) :
    Moves folds h.worker h'.worker := by
  unfold handle at ended
  split at ended
  · cases ended
  · exact (refuse_adds ended).moves
  · exact run_moves ended

theorem extend_old {α : Type} {old : Nat → α} {first : Nat} {new : List α} {id : Nat}
    (low : id < first) : extend old first new id = old id := if_neg (Nat.not_le_of_lt low)

theorem refuse_buffers (ended : h.refuse = some (h', reply)) : h'.buffers = h.buffers := by
  cases ended
  rfl

theorem execute_buffers (ended : cmdExecute folds h args blobs o = some (h', reply)) {id : Nat}
    (old : id < h.worker.nextId) : h'.buffers id = h.buffers id := by
  unfold cmdExecute at ended
  split at ended
  · rw [refuse_buffers ended]
  · split at ended
    · rw [refuse_buffers ended]
    · split at ended
      · cases ended
        rfl
      · obtain ⟨⟨outs, s, x⟩, _, ended⟩ := Option.bind_eq_some_iff.mp ended
        dsimp only at ended
        split at ended
        · cases ended
          rfl
        · obtain ⟨values, _, ended⟩ := Option.bind_eq_some_iff.mp ended
          split at ended
          · split at ended <;> cases ended <;> rfl
          · obtain ⟨w, _, ended⟩ := Option.map_eq_some_iff.mp ended
            dsimp only at ended
            split at ended <;> cases ended <;> exact extend_old old

theorem run_buffers {command : Command} (ended : run folds h args blobs o command = some (h', reply))
    {id : Nat} (old : id < h.worker.nextId) : h'.buffers id = h.buffers id := by
  cases command with
  | hello =>
    simp only [run, cmdHello] at ended
    split at ended
    · rw [refuse_buffers ended]
    · cases ended
      rfl
    · split at ended
      · cases ended
        rfl
      · rw [refuse_buffers ended]
  | deviceInfo | stats | synchronize =>
    simp only [run, cmdReport] at ended
    split at ended
    · rw [refuse_buffers ended]
    · cases ended
      rfl
  | compile =>
    simp only [run, cmdCompile] at ended
    split at ended
    · rw [refuse_buffers ended]
    · obtain ⟨w, _, ended⟩ := Option.map_eq_some_iff.mp ended
      split at ended <;> cases ended <;> rfl
  | execute => exact execute_buffers ended old
  | runNode =>
    simp only [run, cmdRunNode] at ended
    split at ended
    · rw [refuse_buffers ended]
    · obtain ⟨w, _, ended⟩ := Option.map_eq_some_iff.mp ended
      split at ended <;> cases ended
      · rfl
      · exact extend_old old
  | upload =>
    simp only [run, cmdUpload] at ended
    split at ended
    · obtain ⟨w, _, ended⟩ := Option.map_eq_some_iff.mp ended
      cases ended
      exact extend_old old
    · rw [refuse_buffers ended]
  | download =>
    simp only [run, cmdDownload] at ended
    split at ended
    · rw [refuse_buffers ended]
    · split at ended
      · rw [refuse_buffers ended]
      · obtain ⟨w, _, ended⟩ := Option.map_eq_some_iff.mp ended
        cases ended
        rfl
  | release =>
    simp only [run, cmdRelease] at ended
    split at ended
    · rw [refuse_buffers ended]
    · cases ended
      rfl
  | releaseExecutable =>
    simp only [run, cmdReleaseExecutable] at ended
    split at ended
    · rw [refuse_buffers ended]
    · cases ended
      rfl
  | shutdown =>
    cases ended
    rfl

/-- A request and what the operations that it calls do. -/
def requestStep (folds : Bool) (h : Handler E) (a : Request × Calls E) : Option (Handler E) :=
  (handle folds h a.1 a.2).map Prod.fst

theorem inv_handle (inv : Inv h.worker) (ended : handle folds h r o = some (h', reply)) :
    Inv h'.worker := by
  rcases handle_moves ended with same | ⟨a, moved⟩
  · rw [same]
    exact inv
  · exact inv_step inv moved

structure Decides (h h' : Handler E) (r : Request) (p : Point) : Prop where
  kept : Clean h r p → Same h h'
  clean : Unchanged h h' → Clean h r p

theorem early_decides (same : Same h h') : Decides h h' r .early := ⟨fun _ => same, fun _ => trivial⟩

theorem release_decides {p : Point} (command : r.command = some (some .release))
    (failed : cmdRelease h r.args = some (h', .raised p)) : Decides h h' r p := by
  unfold cmdRelease at failed
  split at failed
  · obtain ⟨same, early⟩ := refuse_same failed
    cases early
    exact early_decides same
  · rename_i ids listed
    cases popped : popAll h.worker.registry 0 ids with
    | mk registry reply =>
      obtain ⟨n, removed, ends⟩ := popAll_spec popped
      rw [popped] at failed
      rcases ends with rfl | rfl
      · cases failed
      · rw [Nat.zero_add] at failed
        cases failed
        constructor
        · intro clean
          refine ⟨removed.trans ((filter_keys _ _).mp fun m mem => ?_), rfl, rfl, rfl⟩
          obtain ⟨id, early, key⟩ := List.mem_filterMap.mp mem
          have absent := clean ids listed id early m key
          rwa [command] at absent
        · intro unchanged ids' listed' id early m key there
          rw [listed] at listed'
          cases listed'
          rw [command] at there
          have gone := filter_gone h.worker.registry (List.mem_filterMap.mpr ⟨id, early, key⟩)
          rw [← removed] at gone
          have same := congrArg Option.isSome (unchanged.buffers m)
          rw [Bool.eq_iff_iff, content_isSome, content_isSome] at same
          exact gone (same.mpr there)

theorem releaseExecutable_decides {p : Point} (command : r.command = some (some .releaseExecutable))
    (failed : cmdReleaseExecutable h r.args = some (h', .raised p)) : Decides h h' r p := by
  unfold cmdReleaseExecutable at failed
  split at failed
  · obtain ⟨same, early⟩ := refuse_same failed
    cases early
    exact early_decides same
  · rename_i ids listed
    cases popped : popAll h.worker.executables 0 ids with
    | mk executables reply =>
      obtain ⟨n, removed, ends⟩ := popAll_spec popped
      rw [popped] at failed
      rcases ends with rfl | rfl
      · cases failed
      · rw [Nat.zero_add] at failed
        cases failed
        constructor
        · intro clean
          have all := (filter_keys h.worker.executables ((ids.take n).filterMap key?)).mp
            fun m mem => by
            obtain ⟨id, early, key⟩ := List.mem_filterMap.mp mem
            have absent := clean ids listed id early m key
            rwa [command] at absent
          exact ⟨rfl, rfl, congrArg (List.map Prod.fst) (removed.trans all), rfl⟩
        · intro unchanged ids' listed' id early m key there
          rw [listed] at listed'
          cases listed'
          rw [command] at there
          have gone := filter_gone h.worker.executables (List.mem_filterMap.mpr ⟨id, early, key⟩)
          rw [← removed] at gone
          have same := unchanged.executables m
          rw [Bool.eq_iff_iff, lookup_isSome, lookup_isSome] at same
          exact gone (same.mpr there)

theorem execute_decides {p : Point} (inv : Inv h.worker)
    (failed : cmdExecute folds h args blobs o = some (h', .raised p)) : Decides h h' r p := by
  rcases execute_answers failed with fine | ⟨same, early⟩ | ⟨k, raised, none, more⟩
  · cases fine
  · cases early
    exact early_decides same
  · cases raised
    refine ⟨none, fun unchanged => ?_⟩
    by_contra later
    have there := more (Nat.pos_of_ne_zero later)
    have same := congrArg Option.isSome (unchanged.buffers h.worker.nextId)
    rw [Bool.eq_iff_iff, content_isSome, content_isSome] at same
    exact nextId_fresh inv (same.mp there)

theorem handle_decides {p : Point} (inv : Inv h.worker)
    (failed : handle folds h r o = some (h', .raised p)) :
    Decides h h' r p := by
  have only_early (answers : Reply.raised p = .ok ∨ Same h h' ∧ Reply.raised p = .raised .early) :
      Decides h h' r p := by
    rcases answers with fine | ⟨same, early⟩
    · cases fine
    · cases early
      exact early_decides same
  unfold handle at failed
  split at failed
  · cases failed
  · exact only_early (.inr (refuse_same failed))
  · rename_i command named
    cases command with
    | hello => exact only_early (hello_answers failed)
    | deviceInfo | stats | synchronize => exact only_early (report_answers failed)
    | compile => exact only_early (compile_answers failed)
    | execute => exact execute_decides inv failed
    | runNode => exact only_early (runNode_answers failed)
    | upload => exact only_early (upload_answers failed)
    | download => exact only_early (download_answers failed)
    | release => exact release_decides named failed
    | releaseExecutable => exact releaseExecutable_decides named failed
    | shutdown => cases failed

/-- A failed request changes nothing exactly if its exception is a clean one. -/
theorem failed_unchanged_iff {p : Point}
    (reached : Runs.Run (requestStep folds) Runs.anyStep (Handler.fresh E) h)
    (failed : handle folds h r o = some (h', .raised p)) : Unchanged h h' ↔ Clean h r p := by
  have inv : Inv h.worker := Runs.run_invariant (fun h => Inv h.worker) reached (inv_fresh E) (by
    intro s a t inv _ moved
    obtain ⟨⟨h', reply⟩, ended, rfl⟩ := Option.map_eq_some_iff.mp moved
    exact inv_handle inv ended)
  obtain ⟨kept, clean⟩ := handle_decides inv failed
  exact ⟨clean, fun fine => same_unchanged inv (inv_handle inv failed) (kept fine)⟩

/-! A graph with two outputs, the second of which cannot be copied. -/

def quiet : Calls Nat :=
  ⟨[], false, [], none, [], .buffer 0, .same, [], none, ⟨[], []⟩, [], []⟩

def request (command : String) (args : List (String × Json)) : Request :=
  ⟨.obj [("command", .str command), ("args", .obj args)], []⟩

def twoOutputs : Request × Calls Nat :=
  (request "compile" [("graph",
    .obj [("outputs", .arr [.obj [("shape", .arr [.int 1]), ("dtype", .str "s32")],
    .obj [("shape", .arr [.int 1]), ("dtype", .str "s32")]])])],
    { quiet with effects := [.capture [[8], [9]]], captured := some [(.buffer 0, .view), (.buffer 1, .view)] })

def secondCopyRaises : Request × Calls Nat :=
  (request "execute" [("executable_id", .int 1), ("inputs", .arr [])],
    { quiet with outputs := [(.copies, 4)] })

theorem first_output_stays : ∃ h h' : Handler Nat,
    Runs.Run (requestStep false) Runs.anyStep (Handler.fresh Nat) h ∧
      handle false h secondCopyRaises.1 secondCopyRaises.2 = some (h', .raised (.output 1)) ∧
        h.content 1 = none ∧ h'.content 1 = some (some [8]) ∧ ¬ Unchanged h h' := by
  obtain ⟨h, done⟩ : ∃ h, Runs.follow (requestStep false) (Handler.fresh Nat)
      [twoOutputs] = some h := ⟨_, rfl⟩
  have before : h.content 1 = none := by
    cases done
    rfl
  obtain ⟨h', failed, after⟩ : ∃ h', handle false h secondCopyRaises.1 secondCopyRaises.2 =
      some (h', .raised (.output 1)) ∧ h'.content 1 = some (some [8]) := by
    cases done
    exact ⟨_, rfl, rfl⟩
  refine ⟨h, h', Runs.run_of_follow done, failed, before, after, fun unchanged => ?_⟩
  have same := unchanged.buffers 1
  rw [before, after] at same
  cases same

def oneUpload : Request × Calls Nat :=
  (⟨(request "upload" [("shape", .arr [.int 1]), ("dtype", .str "s32")]).header, [[8, 0, 0, 0]]⟩,
    { quiet with arrays := [([8], 4)] })

theorem nothing_released : ∃ h h' : Handler Nat,
    Runs.Run (requestStep false) Runs.anyStep (Handler.fresh Nat) h ∧
      handle false h (request "release" [("ids", .arr [.int 2, .arr []])]) quiet =
        some (h', .raised (.id 1)) ∧ h.content 1 = some (some [8]) ∧ Unchanged h h' := by
  obtain ⟨h, done⟩ : ∃ h, Runs.follow (requestStep false) (Handler.fresh Nat)
      [oneUpload] = some h := ⟨_, rfl⟩
  have run := Runs.run_of_follow done
  obtain ⟨h', failed, there, keys⟩ : ∃ h', handle false h
      (request "release" [("ids", .arr [.int 2, .arr []])]) quiet = some (h', .raised (.id 1)) ∧
        h.content 1 = some (some [8]) ∧ h.worker.registry.map Prod.fst = [1] := by
    cases done
    exact ⟨_, rfl, rfl, rfl⟩
  refine ⟨h, h', run, failed, there, (failed_unchanged_iff run failed).mpr ?_⟩
  intro ids listed id mem n key
  cases listed
  cases mem with
  | tail _ mem => cases mem
  | head =>
    cases key
    change _ ∉ h.worker.registry.map Prod.fst
    rw [keys]
    decide

end NxTinygrad.Commands
