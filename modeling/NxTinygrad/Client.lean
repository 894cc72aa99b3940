import NxTinygrad.Worker

/- The client side: what the Backend, the Compiler and the ReleaseReaper do, as
   programs over GenServer calls and over the state shared inside the BEAM. Between
   any two actions of a program other processes may run and workers may restart. -/
namespace NxTinygrad.Client
open Worker

inductive ClientError where
  | staleTensor
  | worker
  | exit
  deriving DecidableEq, Repr

structure Backend where
  ref : Nat
  worker : Name
  generation : Gen
  handle : Minted
  deriving DecidableEq, Repr

structure Key where
  worker : Name
  graph : GraphId
  deriving DecidableEq, Repr

structure Entry where
  generation : Gen
  executable : Executable
  deriving DecidableEq, Repr

/-- What a dropped TensorRef or ExecutableRef leaves in the native release queues. -/
structure Release (α : Type) where
  worker : Name
  generation : Gen
  handle : α
  deriving DecidableEq, Repr

def Backend.release (b : Backend) : Release Minted := ⟨b.worker, b.generation, b.handle⟩

/-- What the closure returned by `compile_graph` captures. -/
structure Ctx where
  worker : Name
  executable : Executable
  graph : GraphId
  deriving DecidableEq, Repr

/-- A program of a client process. `await` is a call that has been sent and not
    answered; the other constructors below `call` act on the shared state. -/
inductive Prog where
  | done
  | raise (error : ClientError)
  | call (w : Name) (c : Call) (k : Reply → Prog)
  | await (w : Name) (ticket : Nat) (c : Call) (k : Reply → Prog)
  | newRef (w : Name) (g : Gen) (handle : Minted) (k : Prog)
  | newExecutable (w : Name) (g : Gen) (executable : Executable) (k : Prog)
  | take (b : Backend) (k : Bool → Prog)
  | lookup (key : Key) (g : Gen) (k : Option Entry → Prog)
  | put (key : Key) (entry : Entry) (k : Prog)
  | close (ctx : Ctx) (k : Prog)
  | whereis (w : Name) (k : Bool → Prog)

def generation (w : Name) (why : Purpose) (k : Gen → Prog) : Prog :=
  .call w (.generation why) fun
    | .generation g => k g
    | _ => .raise .exit

def ensureFresh (b : Backend) (k : Prog) : Prog :=
  generation b.worker .ensureFresh fun current =>
    if current ≠ b.generation then .raise .staleTensor else k

/-- `Backend.build`: the generation is read after the handle came back. -/
def build (handle : Minted) (w : Name) (k : Prog) : Prog :=
  generation w (.build handle) fun g => .newRef w g handle k

def fromBinary (w : Name) (k : Prog) : Prog :=
  .call w .upload fun
    | .id h => build h w k
    | _ => .raise .worker

def toBinary (b : Backend) (k : Prog) : Prog :=
  ensureFresh b <| .call b.worker (.download b.handle) fun
    | .blob => k
    | _ => .raise .worker

def backendDeallocate (b : Backend) (k : Prog) : Prog :=
  .take b fun claimed =>
    if claimed then
      generation b.worker .backendDeallocate fun g =>
        if b.generation = g then .call b.worker (.release [b.handle]) fun _ => k else k
    else k

/-- A tensor argument: resident in some worker, or held by another backend. -/
inductive Tensor where
  | backend (b : Backend)
  | host
  deriving DecidableEq, Repr

def eagerInputs (w : Name) (k : List Minted → Prog) : List Tensor → List Minted → Prog
  | [], handles => k handles
  | .backend b :: rest, handles =>
      if b.worker = w then ensureFresh b (eagerInputs w k rest (handles ++ [b.handle]))
      else toBinary b (eagerInputs w k rest handles)
  | .host :: rest, handles => eagerInputs w k rest handles

def eager (inputs : List Tensor) (w : Name) (k : Prog) : Prog :=
  eagerInputs w (fun handles => .call w (.runNode handles) fun
    | .id h => build h w k
    | _ => .raise .worker) inputs []

/-- The reduction inside `Compiler.build_inputs`, over the graph inputs' tensors. -/
def collectInputs (w : Name) (g : Gen) (k : List Minted → Prog) :
    List Tensor → List Minted → Prog
  | [], handles => k handles
  | .backend b :: rest, handles =>
      if b.worker = w then
        if b.generation = g then collectInputs w g k rest (handles ++ [b.handle])
        else .raise .staleTensor
      else toBinary b (collectInputs w g k rest handles)
  | .host :: rest, handles => collectInputs w g k rest handles

def buildInputs (params : List Tensor) (w : Name) (k : List Minted → Prog) : Prog :=
  generation w .buildInputs fun g => collectInputs w g k params []

/-- `decode_outputs` in device mode; host mode has no handles to build. -/
def decodeOutputs (w : Name) (k : Prog) : List Minted → Prog
  | [] => k
  | h :: rest => build h w (decodeOutputs w k rest)

def runOne (ctx : Ctx) (params : List Tensor) (outputs : Nat) (k : Prog) : Prog :=
  buildInputs params ctx.worker fun handles =>
    .call ctx.worker (.execute ctx.executable handles outputs) fun
      | .outputs os => decodeOutputs ctx.worker k os
      | _ => .raise .worker

def compileEntry (w : Name) (g : Gen) (graph : GraphId) (k : Entry → Prog) : Prog :=
  .call w (.compile graph g) fun
    | .executable e => .newExecutable w g e (k ⟨g, e⟩)
    | _ => .raise .worker

def ensureCompiled (w : Name) (graph : GraphId) (cache : Bool) (k : Entry → Prog) : Prog :=
  if cache then
    .call w .info fun
      | .hello =>
          generation w .ensureCompiled fun g =>
            .lookup ⟨w, graph⟩ g fun
              | some entry => k entry
              | none => compileEntry w g graph fun entry => .put ⟨w, graph⟩ entry (k entry)
      | _ => .raise .exit
  else generation w .ensureCompiled fun g => compileEntry w g graph k

/-- `compile_graph` after lowering: compile, then hand out the closure. -/
def compileGraph (w : Name) (graph : GraphId) (cache : Bool) (k : Prog) : Prog :=
  ensureCompiled w graph cache fun entry => .close ⟨w, entry.executable, graph⟩ k

/-- `release_group`; a worker that is down has nothing left to release. -/
def releaseGroup {α : Type} (command : List α → Call) (w : Name) (entries : List (Release α))
    (k : Prog) : Prog :=
  .whereis w fun up =>
    if up then
      generation w .releaseGroup fun current =>
        let handles := (entries.filter fun r => r.generation = current).map (·.handle)
        if handles ≠ [] then .call w (command handles) fun _ => k else k
    else k

def releaseGroups {α : Type} (command : List α → Call) (entries : List (Release α)) (k : Prog) :
    List Name → Prog
  | [] => k
  | w :: rest =>
      releaseGroup command w (entries.filter fun r => r.worker = w)
        (releaseGroups command entries k rest)

def workerNames {α : Type} (entries : List (Release α)) : List Name :=
  (entries.map (·.worker)).dedup

def drain (tensors : List (Release Minted)) (executables : List (Release Executable)) : Prog :=
  releaseGroups .release tensors
    (releaseGroups .releaseExecutable executables .done (workerNames executables))
    (workerNames tensors)

end NxTinygrad.Client
