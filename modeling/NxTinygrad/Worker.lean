import Mathlib.Algebra.Order.Ring.Int
import Mathlib.Data.List.Basic

/- A worker: the GenServer that owns the port, and the Python process behind it.
   The two live and die together, so one generation number names the pair. -/
namespace NxTinygrad.Worker

abbrev Gen := Nat
abbrev Name := Nat
abbrev GraphId := Nat

/-- A buffer id handed out by a Python process. Only `id` travels on the wire; `issuer`
    is the generation of the process that handed it out. No client code reads it. -/
structure Minted where
  id : Nat
  issuer : Gen
  deriving DecidableEq, Repr

/-- An executable id. `graph` is the graph of the compile request it answered; it travels
    no more than `issuer` does. -/
structure Executable where
  id : Nat
  issuer : Gen
  graph : GraphId
  deriving DecidableEq, Repr

inductive Purpose where
  | ensureFresh
  | backendDeallocate
  | releaseGroup
  | buildInputs
  | ensureCompiled
  | build (handle : Minted)
  deriving DecidableEq, Repr

/-- Calls a client makes to the GenServer. `compile` notes the generation that
    `ensure_compiled` read before it; the request itself carries the graph only.
    `outputs` is the number of device handles `execute` returns, 0 in host mode. -/
inductive Call where
  | info
  | generation (why : Purpose)
  | upload
  | download (handle : Minted)
  | runNode (handles : List Minted)
  | compile (graph : GraphId) (read : Gen)
  | execute (executable : Executable) (handles : List Minted) (outputs : Nat)
  | release (handles : List Minted)
  | releaseExecutable (executables : List Executable)
  deriving DecidableEq, Repr

/-- The buffer ids a request names on behalf of tensor references. -/
def Call.operands : Call → List Minted
  | .download h => [h]
  | .runNode hs => hs
  | .execute _ hs _ => hs
  | .release hs => hs
  | _ => []

inductive Reply where
  | hello
  | generation (g : Gen)
  | id (handle : Minted)
  | blob
  | outputs (handles : List Minted)
  | executable (executable : Executable)
  | released
  | error
  deriving DecidableEq, Repr

structure TensorRegistry where
  buffers : List Nat
  nextId : Nat
  deriving Repr

def TensorRegistry.empty : TensorRegistry := ⟨[], 1⟩

def TensorRegistry.resident (r : TensorRegistry) (hs : List Minted) : Bool :=
  hs.all fun h => r.buffers.contains h.id

def TensorRegistry.put (r : TensorRegistry) (n : Nat) : TensorRegistry :=
  ⟨r.buffers ++ List.range' r.nextId n, r.nextId + n⟩

def TensorRegistry.release (r : TensorRegistry) (ids : List Nat) : TensorRegistry :=
  { r with buffers := r.buffers.filter fun b => !ids.contains b }

structure ExecutableRegistry where
  entries : List (Nat × GraphId)
  nextId : Nat
  numbered : ∀ e ∈ entries, e.1 < nextId

def ExecutableRegistry.empty : ExecutableRegistry := ⟨[], 1, by simp⟩

def ExecutableRegistry.allocateId (r : ExecutableRegistry) : ExecutableRegistry where
  entries := r.entries
  nextId := r.nextId + 1
  numbered e mem := Nat.lt_succ_of_lt (r.numbered e mem)

def ExecutableRegistry.put (r : ExecutableRegistry) (id : Nat) (old : id < r.nextId)
    (graph : GraphId) : ExecutableRegistry where
  entries := (id, graph) :: r.entries
  nextId := r.nextId
  numbered := List.forall_mem_cons.mpr ⟨old, r.numbered⟩

def ExecutableRegistry.get (r : ExecutableRegistry) (id : Nat) : Option GraphId :=
  r.entries.lookup id

def ExecutableRegistry.release (r : ExecutableRegistry) (ids : List Nat) :
    ExecutableRegistry where
  entries := r.entries.filter fun e => !ids.contains e.1
  nextId := r.nextId
  numbered e mem := r.numbered e (List.mem_of_mem_filter mem)

theorem get_mem {r : ExecutableRegistry} {id : Nat} {graph : GraphId}
    (h : r.get id = some graph) : (id, graph) ∈ r.entries := by
  obtain ⟨front, back, eq, _⟩ := List.lookup_eq_some_iff.mp h
  simp [eq]

structure Proc where
  registry : TensorRegistry
  execRegistry : ExecutableRegistry

def Proc.fresh : Proc := ⟨.empty, .empty⟩

def Proc.minted (p : Proc) (g : Gen) (n : Nat) : List Minted :=
  (List.range' p.registry.nextId n).map fun i => ⟨i, g⟩

def Proc.putBuffers (p : Proc) (n : Nat) : Proc := { p with registry := p.registry.put n }

/-- The command handlers. `fault` stands for any exception a handler raises on its
    own account; a missing id raises StaleReference. -/
def Proc.handle (p : Proc) (g : Gen) (fault : Bool) : Call → Proc × Reply
  | .upload => if fault then (p, .error) else (p.putBuffers 1, .id ⟨p.registry.nextId, g⟩)
  | .download h => if fault || !p.registry.resident [h] then (p, .error) else (p, .blob)
  | .runNode hs =>
      if fault || !p.registry.resident hs then (p, .error)
      else (p.putBuffers 1, .id ⟨p.registry.nextId, g⟩)
  | .compile graph _ =>
      let id := p.execRegistry.nextId
      -- allocate_id comes before compile_graph, so a failed compile still uses the id up
      let allocated := p.execRegistry.allocateId
      if fault then (⟨p.registry, allocated⟩, .error)
      else (⟨p.registry, allocated.put id (Nat.lt_succ_self _) graph⟩, .executable ⟨id, g, graph⟩)
  | .execute e hs n =>
      if fault || (p.execRegistry.get e.id).isNone || !p.registry.resident hs then (p, .error)
      else (p.putBuffers n, .outputs (p.minted g n))
  | .release hs => ({ p with registry := p.registry.release (hs.map (·.id)) }, .released)
  | .releaseExecutable es =>
      ({ p with execRegistry := p.execRegistry.release (es.map (·.id)) }, .released)
  | .info | .generation _ => (p, .error)

structure Message where
  caller : Nat
  ticket : Nat
  call : Call
  deriving DecidableEq, Repr

/-- `mailbox` holds the calls the GenServer has not looked at, `port` the frames
    written to the Python process and not yet answered. Both are queues. -/
structure Server where
  generation : Gen
  mailbox : List Message
  port : List Message
  proc : Proc

def Server.start (g : Gen) : Server := ⟨g, [], [], .fresh⟩

def Server.pending (s : Server) : List Message := s.mailbox ++ s.port

/-- `handle_call`: the generation and the handshake info are answered from the
    GenServer's own state, a request is written to the port. -/
def Server.handleCall (s : Server) : Option (Server × Option (Message × Reply)) :=
  match s.mailbox with
  | [] => none
  | m :: rest =>
      let s := { s with mailbox := rest }
      match m.call with
      | .generation _ => some (s, some (m, .generation s.generation))
      | .info => some (s, some (m, .hello))
      | _ => some ({ s with port := s.port ++ [m] }, none)

def Server.work (s : Server) (fault : Bool) : Option (Server × Message × Reply) :=
  match s.port with
  | [] => none
  | m :: rest =>
      let done := s.proc.handle s.generation fault m.call
      some ({ s with port := rest, proc := done.1 }, m, done.2)

/-- The process behind `s` handed out `e`, and runs nothing but `e.graph` under its id. -/
structure Issued (s : Server) (e : Executable) : Prop where
  issuer : e.issuer = s.generation
  old : e.id < s.proc.execRegistry.nextId
  graph : ∀ graph, (e.id, graph) ∈ s.proc.execRegistry.entries → graph = e.graph

/-- The ids and generation numbers of a reply to `c` are those of the process behind `s`. -/
def Reply.From (s : Server) (c : Call) : Reply → Prop
  | .generation g => g = s.generation
  | .id h => h.issuer = s.generation
  | .outputs hs => ∀ h ∈ hs, h.issuer = s.generation
  | .executable e => Issued s e ∧ ∃ read, c = .compile e.graph read
  | _ => True

/-- `t` is the worker `s` some steps later: the same process, whose executable registry
    may have grown and shrunk but never gives an id a second graph. -/
structure Continues (s t : Server) : Prop where
  generation : t.generation = s.generation
  nextId : s.proc.execRegistry.nextId ≤ t.proc.execRegistry.nextId
  entries : ∀ e ∈ t.proc.execRegistry.entries,
    e ∈ s.proc.execRegistry.entries ∨ s.proc.execRegistry.nextId ≤ e.1

theorem continues_of_proc {s t : Server} (same : t.generation = s.generation)
    (proc : t.proc = s.proc) : Continues s t :=
  ⟨same, by simp only [proc, Nat.le_refl], fun e mem => Or.inl (by rwa [proc] at mem)⟩

theorem Issued.continues {s t : Server} {e : Executable} (issued : Issued s e)
    (later : Continues s t) : Issued t e := by
  refine ⟨issued.issuer.trans later.generation.symm,
    Nat.lt_of_lt_of_le issued.old later.nextId, fun graph mem => ?_⟩
  rcases later.entries _ mem with before | newer
  · exact issued.graph graph before
  · exact absurd newer (Nat.not_le_of_lt issued.old)

theorem handleCall_spec {s t : Server} {answer : Option (Message × Reply)}
    (h : s.handleCall = some (t, answer)) :
    t.generation = s.generation ∧ t.proc = s.proc ∧ (∀ m ∈ t.pending, m ∈ s.pending) ∧
      (∀ m r, answer = some (m, r) → m ∈ s.pending ∧ r.From t m.call) := by
  unfold Server.handleCall at h
  unfold Server.pending
  cases box : s.mailbox with
  | nil => simp [box] at h
  | cons m rest =>
    simp only [box] at h
    split at h
    all_goals
      simp only [Option.some.injEq, Prod.mk.injEq] at h
      obtain ⟨rfl, rfl⟩ := h
      refine ⟨rfl, rfl, ?_, ?_⟩
      · intro x mem
        simp only [List.mem_append, List.mem_cons, List.not_mem_nil, or_false] at mem ⊢
        tauto
      · intro x r eq
        cases eq <;> exact ⟨by simp, by simp [Reply.From]⟩

theorem compile_continues {s t : Server} {graph : GraphId}
    (same : t.generation = s.generation)
    (registry : t.proc.execRegistry =
      s.proc.execRegistry.allocateId.put s.proc.execRegistry.nextId (Nat.lt_succ_self _) graph) :
    Continues s t ∧ Issued t ⟨s.proc.execRegistry.nextId, s.generation, graph⟩ := by
  refine ⟨⟨same, ?_, fun e mem => ?_⟩, same.symm, ?_, fun graph' mem => ?_⟩
  · rw [registry]; exact Nat.le_succ _
  · rw [registry] at mem
    rcases List.mem_cons.mp mem with rfl | old
    · exact Or.inr (Nat.le_refl _)
    · exact Or.inl old
  · rw [registry]; exact Nat.lt_succ_self _
  · rw [registry] at mem
    rcases List.mem_cons.mp mem with new | old
    · exact (Prod.mk.inj new).2
    · exact absurd (s.proc.execRegistry.numbered _ old) (Nat.lt_irrefl _)

theorem work_spec {s t : Server} {fault : Bool} {m : Message} {r : Reply}
    (h : s.work fault = some (t, m, r)) :
    t.mailbox = s.mailbox ∧ s.port = m :: t.port ∧ Continues s t ∧ r.From t m.call := by
  unfold Server.work at h
  cases box : s.port with
  | nil => simp [box] at h
  | cons x rest =>
    simp only [box, Option.some.injEq, Prod.mk.injEq] at h
    obtain ⟨rfl, rfl, rfl⟩ := h
    refine ⟨rfl, rfl, ?_⟩
    have kept : ∀ p : Proc, p.execRegistry = s.proc.execRegistry →
        Continues s { s with port := rest, proc := p } :=
      fun p same => ⟨rfl, by simp only [same, Nat.le_refl],
        fun e mem => Or.inl (by simpa only [same] using mem)⟩
    cases call : x.call with
    | compile graph read =>
      simp only [Proc.handle]
      split
      · exact ⟨⟨rfl, Nat.le_succ _, fun e mem => Or.inl mem⟩, trivial⟩
      · obtain ⟨later, issued⟩ := compile_continues (s := s)
          (t := ⟨s.generation, s.mailbox, rest, s.proc.registry,
            s.proc.execRegistry.allocateId.put _ (Nat.lt_succ_self _) graph⟩) rfl rfl
        exact ⟨later, issued, read, rfl⟩
    | execute e hs n =>
      simp only [Proc.handle]
      split
      · exact ⟨kept _ rfl, trivial⟩
      · refine ⟨kept _ rfl, fun h mem => ?_⟩
        obtain ⟨i, _, rfl⟩ := List.mem_map.mp mem
        rfl
    | releaseExecutable es =>
      exact ⟨⟨rfl, Nat.le_refl _, fun e mem => Or.inl (List.mem_of_mem_filter mem)⟩, trivial⟩
    | upload | download h | runNode hs =>
      simp only [Proc.handle]
      split
      all_goals exact ⟨kept _ rfl, by simp [Reply.From]⟩
    | release hs => exact ⟨kept _ rfl, trivial⟩
    | info => exact ⟨kept _ rfl, trivial⟩
    | generation why => exact ⟨kept _ rfl, trivial⟩

end NxTinygrad.Worker
