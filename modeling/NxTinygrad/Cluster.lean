import Mathlib.Logic.Function.Basic
import NxTinygrad.Lib.Runs
import NxTinygrad.Client

/- The whole system: any number of named workers and client processes, the state
   they share inside the BEAM, and every order in which their steps can come. -/
namespace NxTinygrad.Cluster
open Worker Client

/-- A request the Python process of generation `generation` handled, and for an
    `execute` the graph its registry had under the requested id. -/
structure Event where
  generation : Gen
  call : Call
  ran : Option GraphId
  deriving DecidableEq, Repr

/-- `pins` is the closure a client process is inside a call of, and `events` what the
    Python processes have handled, latest first; the program itself keeps neither. -/
structure State where
  counter : Gen
  workers : Name → Option Server
  clients : Nat → Prog
  pins : Nat → Option Ctx
  ticket : Nat
  refs : List Backend
  nextRef : Nat
  taken : List Nat
  executableRefs : List (Release Executable)
  tensorQueue : List (Release Minted)
  executableQueue : List (Release Executable)
  cache : Key → Option Entry
  closures : List Ctx
  events : List Event

def init : State :=
  { counter := 0, workers := fun _ => none, clients := fun _ => .done, pins := fun _ => none
    ticket := 0, refs := [], nextRef := 0, taken := [], executableRefs := []
    tensorQueue := [], executableQueue := [], cache := fun _ => none
    closures := [], events := [] }

inductive Op where
  | fromBinary (w : Name)
  | toBinary (b : Backend)
  | backendDeallocate (b : Backend)
  | eager (inputs : List Tensor) (w : Name)
  | compile (w : Name) (graph : GraphId) (cache : Bool)
  | call (ctx : Ctx) (params : List Tensor) (outputs : Nat)
  | drain
  deriving DecidableEq, Repr

def backends : List Tensor → List Backend
  | [] => []
  | .backend b :: rest => b :: backends rest
  | .host :: rest => backends rest

def Op.uses : Op → List Backend
  | .toBinary b | .backendDeallocate b => [b]
  | .eager inputs _ => backends inputs
  | .call _ params _ => backends params
  | _ => []

def Op.pin : Op → Option Ctx
  | .call ctx _ _ => some ctx
  | _ => none

def Op.program (s : State) : Op → Prog
  | .fromBinary w => Client.fromBinary w .done
  | .toBinary b => Client.toBinary b .done
  | .backendDeallocate b => Client.backendDeallocate b .done
  | .eager inputs w => Client.eager inputs w .done
  | .compile w graph cache => compileGraph w graph cache .done
  | .call ctx params outputs => runOne ctx params outputs .done
  | .drain => Client.drain s.tensorQueue s.executableQueue

def Op.available (s : State) (op : Op) : Bool :=
  op.uses.all (s.refs.contains ·) && op.pin.all (s.closures.contains ·)

def idle : Prog → Bool
  | .done | .raise _ => true
  | _ => false

inductive Label where
  | start (c : Nat) (op : Op)
  | finish (c : Nat)
  | send (c : Nat)
  | act (c : Nat)
  | abort (c : Nat)
  | exit (c : Nat)
  | receive (w : Name)
  | work (w : Name) (fault : Bool)
  | crash (w : Name)
  | restart (w : Name)
  | drop (b : Backend)
  | dropExecutable (r : Release Executable)
  | forget (ctx : Ctx)
  | evict (key : Key)
  deriving DecidableEq, Repr

def State.setClient (s : State) (c : Nat) (p : Prog) : State :=
  { s with clients := Function.update s.clients c p }

def State.setWorker (s : State) (w : Name) (srv : Option Server) : State :=
  { s with workers := Function.update s.workers w srv }

/-- `GenServer.reply`: the caller goes on if it still waits for this very request. -/
def State.deliver (s : State) (w : Name) (m : Message) (r : Reply) : State :=
  match s.clients m.caller with
  | .await w' t _ k => if w' = w ∧ t = m.ticket then s.setClient m.caller (k r) else s
  | _ => s

def ranGraph (srv : Server) : Call → Option GraphId
  | .execute e _ _ => srv.proc.execRegistry.get e.id
  | _ => none

def State.act (s : State) (c : Nat) : Option State :=
  match s.clients c with
  | .newRef w g h k =>
      some { s.setClient c k with
        refs := ⟨s.nextRef, w, g, h⟩ :: s.refs, nextRef := s.nextRef + 1 }
  | .newExecutable w g e k =>
      some { s.setClient c k with executableRefs := ⟨w, g, e⟩ :: s.executableRefs }
  | .take b k => some { s.setClient c (k (!s.taken.contains b.ref)) with taken := b.ref :: s.taken }
  | .lookup key g k => some (s.setClient c (k ((s.cache key).filter fun e => e.generation = g)))
  | .put key entry k =>
      some { s.setClient c k with cache := Function.update s.cache key (some entry) }
  | .close ctx k => some { s.setClient c k with closures := ctx :: s.closures }
  | .whereis w k => some (s.setClient c (k (s.workers w).isSome))
  | _ => none

/-- `GenServer.call`: the name is resolved now, and the message goes to the process
    registered at this moment; without one the caller exits. -/
def State.send (s : State) (c : Nat) : Option State :=
  match s.clients c with
  | .call w call k =>
      match s.workers w with
      | none => some (s.setClient c (.raise .exit))
      | some srv =>
          let srv : Server := { srv with mailbox := srv.mailbox ++ [⟨c, s.ticket, call⟩] }
          some { (s.setWorker w (some srv)).setClient c (.await w s.ticket call k) with
            ticket := s.ticket + 1 }
  | _ => none

def step (s : State) : Label → Option State
  | .start c op =>
      if idle (s.clients c) && op.available s then
        some { s.setClient c (op.program s) with
          pins := Function.update s.pins c op.pin
          tensorQueue := if op = .drain then [] else s.tensorQueue
          executableQueue := if op = .drain then [] else s.executableQueue }
      else none
  | .finish c =>
      if idle (s.clients c) then
        some { s.setClient c .done with pins := Function.update s.pins c none }
      else none
  | .send c => s.send c
  | .act c => s.act c
  | .abort c =>
      -- the request timer fires, or the worker fails all pending requests as it stops
      match s.clients c with
      | .await _ _ _ k => some (s.setClient c (k .error))
      | _ => none
  | .exit c =>
      -- GenServer.call itself gives up
      match s.clients c with
      | .await _ _ _ _ => some (s.setClient c (.raise .exit))
      | _ => none
  | .receive w =>
      (s.workers w).bind fun srv => srv.handleCall.map fun (srv, answer) =>
        match answer with
        | none => s.setWorker w srv
        | some (m, r) => (s.setWorker w srv).deliver w m r
  | .work w fault =>
      (s.workers w).bind fun srv => (srv.work fault).map fun (next, m, r) =>
        { (s.setWorker w next).deliver w m r with
          events := ⟨srv.generation, m.call, ranGraph srv m.call⟩ :: s.events }
  | .crash w => (s.workers w).map fun _ => s.setWorker w none
  | .restart w =>
      match s.workers w with
      | none =>
          some { s.setWorker w (some (.start (s.counter + 1))) with counter := s.counter + 1 }
      | some _ => none
  | .drop b =>
      if s.refs.contains b then
        some { s with
          refs := s.refs.erase b
          tensorQueue :=
            if s.taken.contains b.ref then s.tensorQueue else s.tensorQueue ++ [b.release] }
      else none
  | .dropExecutable r =>
      if s.executableRefs.contains r then
        some { s with
          executableRefs := s.executableRefs.erase r
          executableQueue := s.executableQueue ++ [r] }
      else none
  | .forget ctx =>
      if s.closures.contains ctx then some { s with closures := s.closures.erase ctx } else none
  | .evict key => some { s with cache := Function.update s.cache key none }

def generationOf (s : State) (w : Name) : Option Gen := (s.workers w).map (·.generation)

end NxTinygrad.Cluster
