import Mathlib.Data.List.Induction
import NxTinygrad.Generations
import NxTinygrad.Handles

/- Who is answerable for a buffer: the TensorRef of a tensor, the client that is about to make one,
   or whoever is to release it. Over runs in which no worker crashes. -/
namespace NxTinygrad.Custody
open Worker Client Cluster Handles

inductive Label where
  | cluster (a : Cluster.Label)
  | partialExecute (w : Name) (k : Nat)
  deriving DecidableEq, Repr

/-- `granted` is what the operation of a client was given and was not deallocated by then, and
    `promised` the ids a request names of it, by ticket; `lost` are those ids that were not resident
    when their request was handled. The program keeps none of these. -/
structure State where
  sys : Cluster.State
  granted : Nat → List Backend
  promised : Nat → List Minted
  lost : List Minted

def init : State := ⟨Cluster.init, fun _ => [], fun _ => [], []⟩

/-- An execute in device mode that raises after it has registered `k` of its outputs. -/
def failExecute (srv : Server) (k : Nat) : Option (Server × Message) :=
  match srv.port with
  | [] => none
  | m :: rest => match m.call with
    | .execute e hs n =>
        if (srv.proc.execRegistry.get e.id).isSome && srv.proc.registry.resident hs &&
            decide (k < n) then
          some ({ srv with port := rest, proc := srv.proc.putBuffers k }, m)
        else none
    | _ => none

/-- What client `c` has been granted of the request it is about to send. -/
def State.promise (s : State) (c : Nat) : List Minted :=
  match s.sys.clients c with
  | .call w call _ =>
      ((s.granted c).filter fun b => b.worker = w && (reads call).contains b.handle).map (·.handle)
  | _ => []

/-- What the next request of `w` was promised and does not find. -/
def State.unmet (s : State) (w : Name) : List Minted :=
  match s.sys.workers w with
  | none => []
  | some srv => match srv.port with
    | [] => []
    | m :: _ => (s.promised m.ticket).filter fun h => !srv.proc.registry.buffers.contains h.id

def step (s : State) : Label → Option State
  | .cluster a => (Cluster.step s.sys a).map fun sys =>
      { sys
        granted := match a with
          | .start c op =>
              Function.update s.granted c (op.uses.filter fun b => !s.sys.taken.contains b.ref)
          | _ => s.granted
        promised := match a with
          | .send c => Function.update s.promised s.sys.ticket (s.promise c)
          | _ => s.promised
        lost := match a with
          | .work w _ => s.lost ++ s.unmet w
          | _ => s.lost }
  | .partialExecute w k =>
      (s.sys.workers w).bind fun srv => (failExecute srv k).map fun (next, m) =>
        { s with
          sys := { (s.sys.setWorker w next).deliver w m .error with
            events := ⟨srv.generation, m.call, ranGraph srv m.call⟩ :: s.sys.events }
          lost := s.lost ++ s.unmet w }

def Old (s : Cluster.State) (w : Name) (h : Minted) : Prop :=
  ∃ srv, s.workers w = some srv ∧ h.issuer = srv.generation ∧ h.id < srv.proc.registry.nextId

def Resident (s : Cluster.State) (w : Name) (h : Minted) : Prop :=
  ∃ srv, s.workers w = some srv ∧ h.issuer = srv.generation ∧ h.id ∈ srv.proc.registry.buffers

def Live (s : Cluster.State) (w : Name) (h : Minted) : Prop :=
  ∃ b ∈ s.refs, b.ref ∉ s.taken ∧ b.worker = w ∧ b.handle = h

def Queued (s : Cluster.State) (w : Name) (h : Minted) : Prop :=
  ∃ r ∈ s.tensorQueue, r.worker = w ∧ r.handle = h

def Posted (s : Cluster.State) (w : Name) (h : Minted) : Prop :=
  ∃ srv, s.workers w = some srv ∧ ∃ m ∈ srv.pending, h ∈ releases m.call

def Up (s : Cluster.State) (w : Name) : Prop := (s.workers w).isSome

structure Books where
  own : Nat → List (Name × Minted)
  may : Nat → Name → Minted → Prop

def Held (B : Books) (w : Name) (h : Minted) : Prop := ∃ c, (w, h) ∈ B.own c

def Touched (s : Cluster.State) (B : Books) (w : Name) (h : Minted) : Prop :=
  Queued s w h ∨ Posted s w h ∨ ∃ c, B.may c w h

structure Ledger (s : Cluster.State) (B : Books) : Prop where
  refNumbers : ∀ b ∈ s.refs, b.ref < s.nextRef
  takenNumbers : ∀ r ∈ s.taken, r < s.nextRef
  refsNodup : s.refs.Nodup
  sameRef : ∀ b ∈ s.refs, ∀ b' ∈ s.refs, b.ref = b'.ref → b = b'
  sameHandle : ∀ b ∈ s.refs, ∀ b' ∈ s.refs, b.worker = b'.worker → b.handle = b'.handle → b = b'
  refsOld : ∀ b ∈ s.refs, Old s b.worker b.handle
  touchedOld : ∀ w h, Touched s B w h → Old s w h
  ownNodup : ∀ c, (B.own c).Nodup
  ownApart : ∀ c c' p, p ∈ B.own c → p ∈ B.own c' → c = c'
  ownNoRef : ∀ c, ∀ b ∈ s.refs, (b.worker, b.handle) ∉ B.own c
  safe : ∀ w h, Live s w h ∨ Held B w h → Resident s w h ∧ ¬ Touched s B w h
  numbered : ∀ w srv, s.workers w = some srv → ∀ id ∈ srv.proc.registry.buffers,
    id < srv.proc.registry.nextId

structure Claiming (s : Cluster.State) (B : Books) (b : Backend) : Prop where
  number : b.ref < s.nextRef
  fresh : b.generation = b.handle.issuer
  old : Old s b.worker b.handle
  sameRef : ∀ b' ∈ s.refs, b'.ref = b.ref → b' = b
  sameHandle : ∀ b' ∈ s.refs, b'.worker = b.worker → b'.handle = b.handle → b' = b
  free : ¬ Held B b.worker b.handle

def Going (s : Cluster.State) (B : Books) (c : Nat) (p : Prog) : Prop :=
  (∃ b, p = backendDeallocate b .done ∧ B.own c = [] ∧ Claiming s B b) ∨ Sound (B.may c) (B.own c) p

def Accounted (s : Cluster.State) (B : Books) : Prop :=
  ∀ w h, Resident s w h → Live s w h ∨ Held B w h ∨ Queued s w h ∨ Posted s w h ∨
    ∃ c, Owes (Up s) w h (s.clients c)

/-- The requests of a worker in the order in which it handles them. -/
def queue (srv : Server) : List Message := srv.port ++ srv.mailbox

/-- What was promised to a request is resident, and stays so until the request is handled. -/
structure Vowed (s : State) : Prop where
  alive : ∀ c, ∀ b ∈ s.granted c, Names b.worker b.handle (s.sys.clients c) →
    b ∈ s.sys.refs ∧ b.ref ∉ s.sys.taken
  queued : ∀ w srv, s.sys.workers w = some srv → ∀ front m back, queue srv = front ++ m :: back →
    ∀ h ∈ s.promised m.ticket, h.issuer = srv.generation ∧ h.id ∈ srv.proc.registry.buffers ∧
      ∀ m' ∈ front, h ∉ releases m'.call
  lost : s.lost = []

structure Watch where
  accounted : Prop
  vowed : Prop

def truthful : Reliance.Relied := ⟨True, True, False, False⟩

structure Inv (W : Watch) (s : State) (B : Books) : Prop where
  base : Generations.Inv truthful s.sys
  ledger : Ledger s.sys B
  going : ∀ c, Going s.sys B c (s.sys.clients c)
  requests : ∀ w srv, s.sys.workers w = some srv → ∀ m ∈ srv.port, isRequest m.call = true
  accounted : W.accounted → Accounted s.sys B
  vowed : W.vowed → Vowed s

structure Served (srv next : Server) (answer : Option (Message × Reply)) : Prop where
  generation : next.generation = srv.generation
  nextId : srv.proc.registry.nextId ≤ next.proc.registry.nextId
  perm : srv.pending.Perm (answer.toList.map Prod.fst ++ next.pending)
  served : ∀ m r, answer = some (m, r) → m ∈ srv.pending ∧ Answers m.call r ∧
    (∀ g, r = .generation g → g = srv.generation) ∧ (handlesOf r ≠ [] → mints m.call = true)
  minted : ∀ m r, answer = some (m, r) → (handlesOf r).Nodup ∧ ∀ h ∈ handlesOf r,
    h.issuer = srv.generation ∧ srv.proc.registry.nextId ≤ h.id ∧ h.id ∈ next.proc.registry.buffers
  stays : ∀ id ∈ srv.proc.registry.buffers, id ∈ next.proc.registry.buffers ∨
    ∃ m r, answer = some (m, r) ∧ id ∈ (releases m.call).map (·.id)
  gone : ∀ m r, answer = some (m, r) → ∀ h ∈ releases m.call, h.id ∉ next.proc.registry.buffers
  numbered : (∀ id ∈ srv.proc.registry.buffers, id < srv.proc.registry.nextId) →
    ∀ id ∈ next.proc.registry.buffers, id < next.proc.registry.nextId
  requests : ∀ m ∈ next.port, m ∈ srv.port ∨ isRequest m.call = true
  order : ∀ front m back, queue next = front ++ m :: back → ∃ front' back',
    queue srv = front' ++ m :: back' ∧ (∀ x ∈ front, x ∈ front') ∧
      ∀ m' r, answer = some (m', r) → releases m'.call ≠ [] → m' ∈ front'

def Exact (srv next : Server) (answer : Option (Message × Reply)) : Prop :=
  ∀ id ∈ next.proc.registry.buffers, id ∈ srv.proc.registry.buffers ∨
    ∃ m r, answer = some (m, r) ∧ ⟨id, srv.generation⟩ ∈ handlesOf r

theorem served_aside {srv : Server} {m : Message} {rest : List Message} {r : Reply}
    (box : srv.mailbox = m :: rest) (answer : Answers m.call r)
    (truth : ∀ g, r = .generation g → g = srv.generation) (bare : handlesOf r = [])
    (mild : releases m.call = []) :
    Served srv { srv with mailbox := rest } (some (m, r)) ∧
      Exact srv { srv with mailbox := rest } (some (m, r)) := by
  have there : m ∈ srv.pending := by simp [Server.pending, box]
  refine ⟨⟨rfl, Nat.le_refl _, ?_, ?_, ?_, fun id mem => Or.inl mem, ?_, fun h => h,
    fun m mem => Or.inl mem, ?_⟩, fun id mem => Or.inl mem⟩
  · simp [Server.pending, box]
  · rintro m' r' ⟨⟩
    exact ⟨there, answer, truth, fun some => absurd bare some⟩
  · rintro m' r' ⟨⟩
    simp [bare]
  · rintro m' r' ⟨⟩
    simp [mild]
  · intro front x back split
    simp only [queue, box] at split ⊢
    rcases List.append_eq_append_iff.mp split with ⟨mid, rfl, tail⟩ | ⟨mid, port, tail⟩
    · -- the request is in the mailbox, behind the call that is answered
      refine ⟨srv.port ++ m :: mid, back, by simp [tail], by simp; tauto, ?_⟩
      rintro m' r' ⟨⟩ released
      exact absurd mild released
    · cases mid with
      | nil =>
        refine ⟨srv.port ++ [m], back, ?_, ?_, ?_⟩
        · simpa using tail.symm
        · simp [port]; tauto
        · rintro m' r' ⟨⟩ released
          exact absurd mild released
      | cons y mid =>
        simp only [List.cons_append, List.cons.injEq] at tail
        obtain ⟨rfl, tail⟩ := tail
        refine ⟨front, mid ++ m :: rest, by simp [port], fun _ mem => mem, ?_⟩
        rintro m' r' ⟨⟩ released
        exact absurd mild released

theorem served_forward {srv : Server} {m : Message} {rest : List Message}
    (box : srv.mailbox = m :: rest) (request : isRequest m.call = true) :
    Served srv { srv with mailbox := rest, port := srv.port ++ [m] } none ∧
      Exact srv { srv with mailbox := rest, port := srv.port ++ [m] } none := by
  have unanswered {P : Message → Reply → Prop} (m : Message) (r : Reply) (same : none = some (m, r)) :
      P m r := by cases same
  refine ⟨⟨rfl, Nat.le_refl _, ?_, unanswered, unanswered, fun id mem => Or.inl mem, unanswered,
    fun h => h, ?_, ?_⟩, fun id mem => Or.inl mem⟩
  · simp only [Server.pending, box, Option.toList_none, List.map_nil, List.nil_append,
      ← List.append_assoc, List.cons_append]
    exact (List.perm_append_singleton m (rest ++ srv.port)).symm
  · intro x mem
    rcases List.mem_append.mp mem with old | new
    · exact Or.inl old
    · rw [List.mem_singleton.mp new]
      exact Or.inr request
  · intro front x back split
    refine ⟨front, back, ?_, fun _ mem => mem, unanswered⟩
    rw [← split]
    simp [queue, box]

theorem served_handleCall {srv next : Server} {answer : Option (Message × Reply)}
    (h : srv.handleCall = some (next, answer)) : Served srv next answer ∧ Exact srv next answer := by
  unfold Server.handleCall at h
  cases box : srv.mailbox with
  | nil => simp [box] at h
  | cons m rest =>
    cases call : m.call with
    | generation why =>
      simp only [box, call, Option.some.injEq, Prod.mk.injEq] at h
      obtain ⟨rfl, rfl⟩ := h
      exact served_aside box (by rw [call]; exact ⟨_, rfl⟩)
        (by rintro g ⟨⟩; rfl) rfl (by rw [call]; rfl)
    | info =>
      simp only [box, call, Option.some.injEq, Prod.mk.injEq] at h
      obtain ⟨rfl, rfl⟩ := h
      exact served_aside box (by rw [call]; rfl) nofun rfl (by rw [call]; rfl)
    | upload | download x | runNode hs | compile graph read | execute e hs n | release hs
    | releaseExecutable es =>
      simp only [box, call, Option.some.injEq, Prod.mk.injEq] at h
      obtain ⟨rfl, rfl⟩ := h
      exact served_forward box (by rw [call]; rfl)

theorem handleCall_bare {srv next : Server} {m : Message} {r : Reply}
    (h : srv.handleCall = some (next, some (m, r))) : handlesOf r = [] := by
  unfold Server.handleCall at h
  cases box : srv.mailbox with
  | nil => simp [box] at h
  | cons x rest =>
    cases call : x.call <;> simp_all [handlesOf] <;> obtain ⟨_, _, rfl⟩ := h <;> rfl

theorem served_port {srv : Server} {m : Message} {rest : List Message} {p : Proc} {r : Reply}
    (port : srv.port = m :: rest) (answer : Answers m.call r) (request : isRequest m.call = true)
    (nextId : srv.proc.registry.nextId ≤ p.registry.nextId)
    (mints : handlesOf r ≠ [] → mints m.call = true)
    (minted : (handlesOf r).Nodup ∧ ∀ h ∈ handlesOf r, h.issuer = srv.generation ∧
      srv.proc.registry.nextId ≤ h.id ∧ h.id ∈ p.registry.buffers)
    (stays : ∀ id ∈ srv.proc.registry.buffers, id ∈ p.registry.buffers ∨
      id ∈ (releases m.call).map (·.id))
    (gone : ∀ h ∈ releases m.call, h.id ∉ p.registry.buffers)
    (numbered : (∀ id ∈ srv.proc.registry.buffers, id < srv.proc.registry.nextId) →
      ∀ id ∈ p.registry.buffers, id < p.registry.nextId) :
    Served srv { srv with port := rest, proc := p } (some (m, r)) := by
  have there : m ∈ srv.pending := by simp [Server.pending, port]
  refine ⟨rfl, nextId, ?_, ?_, ?_, ?_, ?_, numbered, ?_, ?_⟩
  · simp only [Server.pending, port, Option.toList_some, List.map_cons, List.map_nil, List.cons_append,
      List.nil_append]
    exact List.perm_middle
  · rintro m' r' ⟨⟩
    refine ⟨there, answer, ?_, mints⟩
    rintro g rfl
    cases call : m.call with
    | generation why => simp [call, isRequest] at request
    | _ => simp [call, Answers] at answer
  · rintro m' r' ⟨⟩
    exact minted
  · intro id mem
    rcases stays id mem with kept | released
    · exact Or.inl kept
    · exact Or.inr ⟨m, r, rfl, released⟩
  · rintro m' r' ⟨⟩
    exact gone
  · intro x mem
    rw [port]
    exact Or.inl (List.mem_cons_of_mem m mem)
  · intro front x back split
    refine ⟨m :: front, back, ?_, fun y mem => List.mem_cons_of_mem _ mem, ?_⟩
    · simp only [queue, port] at split ⊢
      simp [split]
    · rintro m' r' ⟨⟩ _
      exact List.mem_cons_self

theorem put_served {srv : Server} {m : Message} {rest : List Message} {r : Reply} {n : Nat}
    (port : srv.port = m :: rest) (answer : Answers m.call r) (mints : mints m.call = true)
    (minted : handlesOf r = srv.proc.minted srv.generation n ∨ handlesOf r = []) :
    Served srv { srv with port := rest, proc := srv.proc.putBuffers n } (some (m, r)) := by
  have mild : releases m.call = [] := by
    cases call : m.call <;> simp_all [releases, Handles.mints]
  have request : isRequest m.call = true := by
    cases call : m.call <;> simp_all [isRequest, Handles.mints]
  apply served_port port answer request (Nat.le_add_right _ _) (fun _ => mints)
  · rcases minted with all | none
    · rw [all]
      refine ⟨?_, fun h mem => ?_⟩
      · apply List.Nodup.map _ List.nodup_range'
        intro i j same
        exact congrArg Minted.id same
      · obtain ⟨i, new, rfl⟩ := List.mem_map.mp mem
        refine ⟨rfl, (List.mem_range'_1.mp new).1, ?_⟩
        exact List.mem_append_right _ new
    · simp [none]
  · exact fun id mem => Or.inl (List.mem_append_left _ mem)
  · simp [mild]
  · intro old id mem
    simp only [Proc.putBuffers, TensorRegistry.put, List.mem_append, List.mem_range'_1] at mem ⊢
    rcases mem with mem | mem
    · exact Nat.lt_add_right _ (old id mem)
    · exact mem.2

theorem put_exact {srv : Server} {m : Message} {rest : List Message} {r : Reply} {n : Nat}
    (minted : handlesOf r = srv.proc.minted srv.generation n) :
    Exact srv { srv with port := rest, proc := srv.proc.putBuffers n } (some (m, r)) := by
  intro id mem
  rcases List.mem_append.mp mem with old | new
  · exact Or.inl old
  · refine Or.inr ⟨m, r, rfl, ?_⟩
    rw [minted]
    exact List.mem_map_of_mem new

theorem idle_served {srv : Server} {m : Message} {rest : List Message} {p : Proc} {r : Reply}
    (port : srv.port = m :: rest) (answer : Answers m.call r) (request : isRequest m.call = true)
    (mild : releases m.call = []) (same : p.registry = srv.proc.registry) (bare : handlesOf r = []) :
    Served srv { srv with port := rest, proc := p } (some (m, r)) ∧
      Exact srv { srv with port := rest, proc := p } (some (m, r)) := by
  constructor
  · apply served_port port answer request (Nat.le_of_eq (by rw [same])) (fun some => absurd bare some)
    · simp [bare]
    · rw [same]
      exact fun id mem => Or.inl mem
    · simp [mild]
    · rw [same]
      exact fun h => h
  · intro id mem
    rw [same] at mem
    exact Or.inl mem

theorem served_work {srv next : Server} {fault : Bool} {m : Message} {r : Reply}
    (requests : ∀ m ∈ srv.port, isRequest m.call = true)
    (h : srv.work fault = some (next, m, r)) :
    Served srv next (some (m, r)) ∧ Exact srv next (some (m, r)) := by
  unfold Server.work at h
  cases port : srv.port with
  | nil => simp [port] at h
  | cons x rest =>
    have request := requests x (by simp [port])
    simp only [port, Option.some.injEq, Prod.mk.injEq] at h
    obtain ⟨rfl, rfl, rfl⟩ := h
    have failed : ∀ {p : Proc}, Answers x.call .error → releases x.call = [] →
        p.registry = srv.proc.registry →
        Served srv { srv with port := rest, proc := p } (some (x, .error)) ∧
          Exact srv { srv with port := rest, proc := p } (some (x, .error)) :=
      fun answer mild same => idle_served port answer request mild same rfl
    cases call : x.call with
    | info => simp [call, isRequest] at request
    | generation why => simp [call, isRequest] at request
    | upload =>
      simp only [Proc.handle]
      split
      · exact failed (by rw [call]; exact Or.inl rfl) (by rw [call]; rfl) rfl
      · have minted : handlesOf (.id ⟨srv.proc.registry.nextId, srv.generation⟩) =
            srv.proc.minted srv.generation 1 := rfl
        exact ⟨put_served port (by rw [call]; exact Or.inr ⟨_, rfl⟩) (by rw [call]; rfl)
          (Or.inl minted), put_exact minted⟩
    | download h =>
      simp only [Proc.handle]
      split
      · exact failed (by rw [call]; exact Or.inl rfl) (by rw [call]; rfl) rfl
      · exact idle_served port (by rw [call]; exact Or.inr rfl) request (by rw [call]; rfl) rfl rfl
    | runNode hs =>
      simp only [Proc.handle]
      split
      · exact failed (by rw [call]; exact Or.inl rfl) (by rw [call]; rfl) rfl
      · have minted : handlesOf (.id ⟨srv.proc.registry.nextId, srv.generation⟩) =
            srv.proc.minted srv.generation 1 := rfl
        exact ⟨put_served port (by rw [call]; exact Or.inr ⟨_, rfl⟩) (by rw [call]; rfl)
          (Or.inl minted), put_exact minted⟩
    | compile graph read =>
      simp only [Proc.handle]
      split
      · exact failed (by rw [call]; exact Or.inl rfl) (by rw [call]; rfl) rfl
      · exact idle_served port (by rw [call]; exact Or.inr ⟨_, rfl⟩) request (by rw [call]; rfl) rfl rfl
    | execute e hs n =>
      simp only [Proc.handle]
      split
      · exact failed (by rw [call]; exact Or.inl rfl) (by rw [call]; rfl) rfl
      · have minted : handlesOf (.outputs (srv.proc.minted srv.generation n)) =
            srv.proc.minted srv.generation n := rfl
        exact ⟨put_served port (by rw [call]; exact Or.inr ⟨_, rfl⟩) (by rw [call]; rfl)
          (Or.inl minted), put_exact minted⟩
    | release hs =>
      refine ⟨?_, fun id mem => Or.inl (List.mem_of_mem_filter mem)⟩
      let p : Proc := { srv.proc with registry := srv.proc.registry.release (hs.map (·.id)) }
      apply served_port (p := p) port (by rw [call]; rfl) request (Nat.le_refl _)
        (fun some => absurd rfl some)
      · simp [Proc.handle, handlesOf]
      · intro id mem
        by_cases named : id ∈ hs.map (·.id)
        · exact Or.inr (by rw [call]; exact named)
        · exact Or.inl (List.mem_filter.mpr ⟨mem, by simpa using named⟩)
      · rw [call]
        intro h mem kept
        have out := (List.mem_filter.mp kept).2
        simp only [Bool.not_eq_true', List.contains_eq_mem, decide_eq_false_iff_not] at out
        exact out (List.mem_map_of_mem mem)
      · exact fun old id mem => old id (List.mem_of_mem_filter mem)
    | releaseExecutable es =>
      exact idle_served port (by rw [call]; rfl) request (by rw [call]; rfl) rfl rfl

theorem served_fail {srv next : Server} {k : Nat} {m : Message}
    (h : failExecute srv k = some (next, m)) :
    Served srv next (some (m, .error)) ∧ (k = 0 → Exact srv next (some (m, .error))) := by
  unfold failExecute at h
  cases port : srv.port with
  | nil => simp [port] at h
  | cons x rest =>
    cases call : x.call with
    | execute e hs n =>
      simp only [port, call, Option.ite_none_right_eq_some, Option.some.injEq, Prod.mk.injEq] at h
      obtain ⟨_, rfl, rfl⟩ := h
      refine ⟨put_served port (by rw [call]; exact Or.inl rfl) (by rw [call]; rfl) (Or.inr rfl), ?_⟩
      rintro rfl id mem
      exact Or.inl (by simpa [Proc.putBuffers, TensorRegistry.put] using mem)
    | _ => simp [port, call] at h

variable {s t : Cluster.State} {B : Books}

def Later (s t : Cluster.State) : Prop :=
  ∀ w srv, s.workers w = some srv → ∃ next, t.workers w = some next ∧
    next.generation = srv.generation ∧ srv.proc.registry.nextId ≤ next.proc.registry.nextId

theorem old_later (later : Later s t) {w : Name} {h : Minted} (old : Old s w h) : Old t w h := by
  obtain ⟨srv, up, issuer, id⟩ := old
  obtain ⟨next, up', gen, ids⟩ := later w srv up
  exact ⟨next, up', issuer.trans gen.symm, Nat.lt_of_lt_of_le id ids⟩

theorem up_later (later : Later s t) {w : Name} (up : Up s w) : Up t w := by
  obtain ⟨srv, running⟩ := Option.isSome_iff_exists.mp up
  obtain ⟨next, running', _⟩ := later w srv running
  simp [Up, running']

theorem old_up {w : Name} {h : Minted} (old : Old s w h) : Up s w := by
  obtain ⟨srv, up, _⟩ := old
  simp [Up, up]

theorem old_resident (L : Ledger s B) {w : Name} {h : Minted} (here : Resident s w h) : Old s w h := by
  obtain ⟨srv, up, issuer, mem⟩ := here
  exact ⟨srv, up, issuer, L.numbered w srv up h.id mem⟩

theorem later_update {w : Name} {srv next : Server} (up : s.workers w = some srv)
    (gen : next.generation = srv.generation)
    (ids : srv.proc.registry.nextId ≤ next.proc.registry.nextId)
    (workers : t.workers = Function.update s.workers w (some next)) : Later s t := by
  intro w' srv' up'
  by_cases same : w' = w
  · subst same
    cases Option.some.inj (up.symm.trans up')
    exact ⟨next, by simp [workers], gen, ids⟩
  · exact ⟨srv', by simpa [workers, Function.update_of_ne same] using up', rfl, Nat.le_refl _⟩

structure Moved (s t : Cluster.State) (w : Name) (next : Server) : Prop where
  workers : t.workers = Function.update s.workers w (some next)
  refs : t.refs = s.refs
  taken : t.taken = s.taken
  nextRef : t.nextRef = s.nextRef
  tensorQueue : t.tensorQueue = s.tensorQueue

theorem live_moved {w : Name} {next : Server} (moved : Moved s t w next) {w' : Name} {h : Minted} :
    Live t w' h ↔ Live s w' h := by
  simp only [Live, moved.refs, moved.taken]

theorem queued_moved {w : Name} {next : Server} (moved : Moved s t w next) {w' : Name} {h : Minted} :
    Queued t w' h ↔ Queued s w' h := by
  simp only [Queued, moved.tensorQueue]

theorem touched_moved {w : Name} {next : Server} (moved : Moved s t w next)
    (posts : ∀ m ∈ next.pending, ∀ h ∈ releases m.call, Touched s B w h) {w' : Name} {h : Minted}
    (touched : Touched t B w' h) : Touched s B w' h := by
  rcases touched with queued | ⟨srv, up, m, mem, released⟩ | may
  · exact Or.inl ((queued_moved moved).mp queued)
  · rw [moved.workers] at up
    rcases Generations.update_some up with ⟨rfl, rfl⟩ | ⟨_, up⟩
    · exact posts m mem h released
    · exact Or.inr (Or.inl ⟨srv, up, m, mem, released⟩)
  · exact Or.inr (Or.inr may)

theorem ledger_moved (L : Ledger s B) {w : Name} {srv next : Server} (up : s.workers w = some srv)
    (moved : Moved s t w next) (gen : next.generation = srv.generation)
    (ids : srv.proc.registry.nextId ≤ next.proc.registry.nextId)
    (numbered : ∀ id ∈ next.proc.registry.buffers, id < next.proc.registry.nextId)
    (posts : ∀ m ∈ next.pending, ∀ h ∈ releases m.call, Touched s B w h)
    (keeps : ∀ h, Live s w h ∨ Held B w h → h.id ∈ next.proc.registry.buffers) : Ledger t B := by
  have later : Later s t := later_update up gen ids moved.workers
  have back : ∀ {w' : Name} {h : Minted}, Touched t B w' h → Touched s B w' h :=
    fun touched => touched_moved moved posts touched
  refine ⟨?_, ?_, ?_, ?_, ?_, ?_, fun w' h touched =>
    old_later later (L.touchedOld w' h (back touched)), L.ownNodup, L.ownApart, ?_, ?_, ?_⟩
  · rw [moved.refs, moved.nextRef]
    exact L.refNumbers
  · rw [moved.taken, moved.nextRef]
    exact L.takenNumbers
  · rw [moved.refs]
    exact L.refsNodup
  · rw [moved.refs]
    exact L.sameRef
  · rw [moved.refs]
    exact L.sameHandle
  · rw [moved.refs]
    exact fun b mem => old_later later (L.refsOld b mem)
  · rw [moved.refs]
    exact L.ownNoRef
  · intro w' h claimed
    rw [live_moved moved] at claimed
    obtain ⟨⟨srv', up', issuer, mem⟩, free⟩ := L.safe w' h claimed
    refine ⟨?_, fun touched => free (back touched)⟩
    by_cases same : w' = w
    · subst same
      cases Option.some.inj (up.symm.trans up')
      exact ⟨next, by simp [moved.workers], issuer.trans gen.symm, keeps h claimed⟩
    · exact ⟨srv', by simpa [moved.workers, Function.update_of_ne same] using up', issuer, mem⟩
  · intro w' srv' up'
    rw [moved.workers] at up'
    rcases Generations.update_some up' with ⟨rfl, rfl⟩ | ⟨_, up'⟩
    · exact numbered
    · exact L.numbered w' srv' up'

def Books.hand (B : Books) (c : Nat) (w : Name) (hs : List Minted) : Books :=
  { B with own := Function.update B.own c (B.own c ++ hs.map (w, ·)) }

theorem mem_hand {c c' : Nat} {w : Name} {hs : List Minted} {p : Name × Minted} :
    p ∈ (B.hand c w hs).own c' ↔ p ∈ B.own c' ∨ c' = c ∧ p.1 = w ∧ p.2 ∈ hs := by
  by_cases same : c' = c
  · subst same
    simp only [Books.hand, Function.update_self, List.mem_append, List.mem_map, true_and]
    constructor
    · rintro (old | ⟨h, mem, rfl⟩)
      · exact Or.inl old
      · exact Or.inr ⟨rfl, mem⟩
    · rintro (old | ⟨rfl, mem⟩)
      · exact Or.inl old
      · exact Or.inr ⟨p.2, mem, rfl⟩
  · simp [Books.hand, same]

theorem held_hand {c : Nat} {w w' : Name} {hs : List Minted} {h : Minted} :
    Held (B.hand c w hs) w' h ↔ Held B w' h ∨ w' = w ∧ h ∈ hs := by
  constructor
  · rintro ⟨c', mem⟩
    rcases mem_hand.mp mem with old | ⟨_, here, new⟩
    · exact Or.inl ⟨c', old⟩
    · exact Or.inr ⟨here, new⟩
  · rintro (⟨c', mem⟩ | ⟨rfl, new⟩)
    · exact ⟨c', mem_hand.mpr (Or.inl mem)⟩
    · exact ⟨c, mem_hand.mpr (Or.inr ⟨rfl, rfl, new⟩)⟩

theorem ledger_hand (L : Ledger s B) {c : Nat} {w : Name} {hs : List Minted} (nodup : hs.Nodup)
    (fresh : ∀ h ∈ hs, Resident s w h ∧ ¬ Touched s B w h ∧ ¬ Held B w h ∧
      ∀ b ∈ s.refs, b.worker = w → b.handle ≠ h) : Ledger s (B.hand c w hs) := by
  refine { L with touchedOld := L.touchedOld, ownNodup := ?_, ownApart := ?_, ownNoRef := ?_, safe := ?_ }
  · intro c'
    by_cases same : c' = c
    · subst same
      simp only [Books.hand, Function.update_self]
      apply List.Nodup.append (L.ownNodup c') (nodup.map fun x y eq => (Prod.mk.inj eq).2)
      intro p old new
      obtain ⟨h, mem, rfl⟩ := List.mem_map.mp new
      exact (fresh h mem).2.2.1 ⟨c', old⟩
    · simpa [Books.hand, Function.update_of_ne same] using L.ownNodup c'
  · intro c₁ c₂ p first second
    rcases mem_hand.mp first with old | ⟨rfl, here, new⟩ <;>
      rcases mem_hand.mp second with old' | ⟨rfl, here', new'⟩
    · exact L.ownApart c₁ c₂ p old old'
    · exact absurd ⟨c₁, by rw [← here']; exact old⟩ (fresh p.2 new').2.2.1
    · exact absurd ⟨c₂, by rw [← here]; exact old'⟩ (fresh p.2 new).2.2.1
    · rfl
  · intro c' b mem held
    rcases mem_hand.mp held with old | ⟨_, here, new⟩
    · exact L.ownNoRef c' b mem old
    · exact (fresh b.handle new).2.2.2 b mem here rfl
  · intro w' h claimed
    rw [held_hand] at claimed
    rcases claimed with live | old | ⟨rfl, new⟩
    · exact L.safe w' h (Or.inl live)
    · exact L.safe w' h (Or.inr old)
    · exact ⟨(fresh h new).1, (fresh h new).2.1⟩

def serve (s : Cluster.State) (w : Name) (next : Server) (answer : Option (Message × Reply))
    (events : List Event) : Cluster.State :=
  { (match answer with
      | none => s.setWorker w (some next)
      | some (m, r) => (s.setWorker w (some next)).deliver w m r) with events := events }

def Delivered (s : Cluster.State) (w : Name) (answer : Option (Message × Reply)) (m : Message)
    (r : Reply) (call : Call) (k : Reply → Prog) : Prop :=
  answer = some (m, r) ∧ s.clients m.caller = .await w m.ticket call k

theorem deliver_cases (s : Cluster.State) (w : Name) (m : Message) (r : Reply) :
    (∃ call k, s.clients m.caller = .await w m.ticket call k ∧
      s.deliver w m r = s.setClient m.caller (k r)) ∨
    ((∀ call k, s.clients m.caller ≠ .await w m.ticket call k) ∧ s.deliver w m r = s) := by
  unfold State.deliver
  cases prog : s.clients m.caller with
  | await w' ticket call k =>
    by_cases same : w' = w ∧ ticket = m.ticket
    · obtain ⟨rfl, rfl⟩ := same
      exact Or.inl ⟨call, k, rfl, by simp⟩
    · refine Or.inr ⟨?_, by simp [same]⟩
      intro call' k' eq
      cases eq
      exact same ⟨rfl, rfl⟩
  | _ => exact Or.inr ⟨nofun, rfl⟩

theorem serve_moved (s : Cluster.State) (w : Name) (next : Server) (answer : Option (Message × Reply))
    (events : List Event) : Moved s (serve s w next answer events) w next := by
  cases answer with
  | none => exact ⟨rfl, rfl, rfl, rfl, rfl⟩
  | some reply =>
    obtain ⟨m, r⟩ := reply
    rcases deliver_cases (s.setWorker w (some next)) w m r with ⟨call, k, _, eq⟩ | ⟨_, eq⟩
    all_goals
      simp only [serve, eq]
      exact ⟨rfl, rfl, rfl, rfl, rfl⟩

theorem serve_clients (s : Cluster.State) (w : Name) (next : Server) (answer : Option (Message × Reply))
    (events : List Event) :
    (∃ m r call k, Delivered s w answer m r call k ∧
      (serve s w next answer events).clients = Function.update s.clients m.caller (k r)) ∨
    ((∀ m r call k, ¬ Delivered s w answer m r call k) ∧
      (serve s w next answer events).clients = s.clients) := by
  cases answer with
  | none => exact Or.inr ⟨fun m r call k h => by simp [Delivered] at h, rfl⟩
  | some reply =>
    obtain ⟨m, r⟩ := reply
    rcases deliver_cases (s.setWorker w (some next)) w m r with ⟨call, k, prog, eq⟩ | ⟨none, eq⟩
    · exact Or.inl ⟨m, r, call, k, ⟨rfl, prog⟩, by simp only [serve, eq]; rfl⟩
    · refine Or.inr ⟨?_, by simp only [serve, eq]; rfl⟩
      rintro m' r' call k ⟨same, prog⟩
      cases same
      exact none call k prog

theorem served_pending {srv next : Server} {answer : Option (Message × Reply)}
    (served : Served srv next answer) {m : Message} :
    m ∈ srv.pending ↔ (∃ r, answer = some (m, r)) ∨ m ∈ next.pending := by
  rw [served.perm.mem_iff, List.mem_append, List.mem_map]
  constructor
  · rintro (⟨⟨m', r⟩, mem, rfl⟩ | mem)
    · exact Or.inl ⟨r, by simpa using mem⟩
    · exact Or.inr mem
  · rintro (⟨r, rfl⟩ | mem)
    · exact Or.inl ⟨(m, r), by simp, rfl⟩
    · exact Or.inr mem

theorem released_same (L : Ledger s B) {w : Name} {srv : Server} (up : s.workers w = some srv)
    {m : Message} (pending : m ∈ srv.pending) {h : Minted} (issuer : h.issuer = srv.generation)
    (named : h.id ∈ (releases m.call).map (·.id)) : h ∈ releases m.call := by
  obtain ⟨h', mem, id⟩ := List.mem_map.mp named
  obtain ⟨srv', up', issuer', _⟩ := L.touchedOld w h' (Or.inr (Or.inl ⟨srv, up, m, pending, mem⟩))
  cases Option.some.inj (up.symm.trans up')
  have same : h' = h := by
    cases h
    cases h'
    simp_all
  exact same ▸ mem

theorem ledger_serve (L : Ledger s B) {w : Name} {srv next : Server}
    {answer : Option (Message × Reply)} {events : List Event} (up : s.workers w = some srv)
    (served : Served srv next answer) : Ledger (serve s w next answer events) B := by
  apply ledger_moved L up (serve_moved s w next answer events) served.generation served.nextId
    (served.numbered (L.numbered w srv up))
  · intro m mem h released
    exact Or.inr (Or.inl ⟨srv, up, m, (served_pending served).mpr (Or.inr mem), released⟩)
  · intro h claimed
    obtain ⟨⟨srv', up', issuer, mem⟩, free⟩ := L.safe w h claimed
    cases Option.some.inj (up.symm.trans up')
    rcases served.stays h.id mem with kept | ⟨m, r, answered, named⟩
    · exact kept
    · have pending := (served.served m r answered).1
      exact absurd (Or.inr (Or.inl ⟨srv, up, m, pending, released_same L up pending issuer named⟩)) free

theorem served_new {srv next : Server} {answer : Option (Message × Reply)} {w : Name}
    (served : Served srv next answer) (up : s.workers w = some srv) {m : Message} {r : Reply}
    (answered : answer = some (m, r)) {h : Minted} (mem : h ∈ handlesOf r) : ¬ Old s w h := by
  rintro ⟨srv', up', _, id⟩
  cases Option.some.inj (up.symm.trans up')
  have newer := ((served.minted m r answered).2 h mem).2.1
  omega

theorem ledger_answer (L : Ledger s B) {w : Name} {srv next : Server}
    {answer : Option (Message × Reply)} {events : List Event} (up : s.workers w = some srv)
    (served : Served srv next answer) {m : Message} {r : Reply} (answered : answer = some (m, r)) :
    Ledger (serve s w next answer events) (B.hand m.caller w (handlesOf r)) := by
  have moved := serve_moved s w next answer events
  apply ledger_hand (ledger_serve L up served) (served.minted m r answered).1
  intro h mem
  have new : ¬ Old s w h := served_new served up answered mem
  obtain ⟨issuer, _, here⟩ := (served.minted m r answered).2 h mem
  refine ⟨⟨next, by simp [moved.workers], issuer.trans served.generation.symm, here⟩, ?_, ?_, ?_⟩
  · intro touched
    refine new (L.touchedOld w h (touched_moved moved (fun m' mem' x released => ?_) touched))
    exact Or.inr (Or.inl ⟨srv, up, m', (served_pending served).mpr (Or.inr mem'), released⟩)
  · intro held
    exact new (old_resident L (L.safe w h (Or.inr held)).1)
  · rw [moved.refs]
    rintro b there rfl rfl
    exact new (L.refsOld b there)

theorem claiming_serve {w : Name} {srv next : Server}
    {answer : Option (Message × Reply)} {events : List Event} (up : s.workers w = some srv)
    (served : Served srv next answer) {b : Backend} (claiming : Claiming s B b) {B' : Books}
    (held : ∀ w' h, Held B' w' h → Held B w' h ∨ ¬ Old s w' h) :
    Claiming (serve s w next answer events) B' b := by
  have moved := serve_moved s w next answer events
  refine ⟨by rw [moved.nextRef]; exact claiming.number, claiming.fresh,
    old_later (later_update up served.generation served.nextId moved.workers) claiming.old,
    by rw [moved.refs]; exact claiming.sameRef, by rw [moved.refs]; exact claiming.sameHandle, ?_⟩
  intro taken
  rcases held _ _ taken with before | new
  · exact claiming.free before
  · exact new claiming.old

theorem accounted_serve (A : Accounted s B) {w : Name} {srv next : Server}
    {answer : Option (Message × Reply)} {events : List Event} (up : s.workers w = some srv)
    (served : Served srv next answer) (exact : Exact srv next answer) {B' : Books}
    (still : ∀ w' h, Held B w' h → Held B' w' h)
    (given : ∀ m r, answer = some (m, r) → ∀ h ∈ handlesOf r, Held B' w h)
    (calls : ∀ m r call k, Delivered s w answer m r call k → call = m.call) :
    Accounted (serve s w next answer events) B' := by
  have moved := serve_moved s w next answer events
  have later : Later s (serve s w next answer events) :=
    later_update up served.generation served.nextId moved.workers
  -- what a program owes it still owes after the answer
  have owes : ∀ w' h, Resident s w' h → ∀ c, Owes (Up s) w' h (s.clients c) →
      Owes (Up (serve s w next answer events)) w' h ((serve s w next answer events).clients c) := by
    intro w' h here c owes
    have owes := owes_mono (fun w up => up_later later up) owes
    rcases serve_clients s w next answer events with ⟨m, r, call, k, delivered, clients⟩ | ⟨_, clients⟩
    · rw [clients]
      by_cases same : c = m.caller
      · subst same
        rw [delivered.2] at owes
        rw [Function.update_self]
        obtain ⟨_, answers, gen, _⟩ := served.served m r delivered.1
        cases calls m r call k delivered
        apply owes r answers
        rintro rfl g rfl
        obtain ⟨srv', up', issuer, _⟩ := here
        cases Option.some.inj (up.symm.trans up')
        exact issuer.trans (gen g rfl).symm
      · rwa [Function.update_of_ne same]
    · rwa [clients]
  rintro w' h ⟨srv', up', issuer, mem⟩
  have before : Resident s w' h ∨ Held B' w' h := by
    rw [moved.workers] at up'
    rcases Generations.update_some up' with ⟨rfl, rfl⟩ | ⟨_, up'⟩
    · rcases exact h.id mem with old | ⟨m, r, answered, new⟩
      · exact Or.inl ⟨srv, up, issuer.trans served.generation, old⟩
      · refine Or.inr (given m r answered h ?_)
        have same : (⟨h.id, srv.generation⟩ : Minted) = h := by
          rw [← served.generation, ← issuer]
        exact same ▸ new
    · exact Or.inl ⟨srv', up', issuer, mem⟩
  rcases before with here | held
  · rcases A w' h here with live | held | queued | ⟨srv'', up'', m, pending, released⟩ | ⟨c, owed⟩
    · exact Or.inl ((live_moved moved).mpr live)
    · exact Or.inr (Or.inl (still w' h held))
    · exact Or.inr (Or.inr (Or.inl ((queued_moved moved).mpr queued)))
    · by_cases same : w' = w
      · subst same
        cases Option.some.inj (up.symm.trans up'')
        rcases (served_pending served).mp pending with ⟨r, answered⟩ | more
        · -- the release has just been handled
          rw [moved.workers, Function.update_self] at up'
          cases Option.some.inj up'
          exact absurd mem (served.gone m r answered h released)
        · exact Or.inr (Or.inr (Or.inr (Or.inl ⟨next, by simp [moved.workers], m, more, released⟩)))
      · refine Or.inr (Or.inr (Or.inr (Or.inl ⟨srv'', ?_, m, pending, released⟩)))
        rw [moved.workers, Function.update_of_ne same]
        exact up''
    · exact Or.inr (Or.inr (Or.inr (Or.inr ⟨c, owes w' h here c owed⟩)))
  · exact Or.inr (Or.inl held)

theorem vowed_serve {σ : State} (V : Vowed σ) (L : Ledger σ.sys B) {w : Name} {srv next : Server}
    {answer : Option (Message × Reply)} {events : List Event} (up : σ.sys.workers w = some srv)
    (served : Served srv next answer) {lost : List Minted} (none : lost = []) :
    Vowed ⟨serve σ.sys w next answer events, σ.granted, σ.promised, lost⟩ := by
  have moved := serve_moved σ.sys w next answer events
  refine ⟨?_, ?_, none⟩
  · intro c b mem names
    rw [moved.refs, moved.taken]
    apply V.alive c b mem
    rcases serve_clients σ.sys w next answer events with ⟨m, r, call, k, delivered,
      clients⟩ | ⟨_, clients⟩
    · rw [clients] at names
      by_cases same : c = m.caller
      · subst same
        rw [Function.update_self] at names
        rw [delivered.2]
        exact ⟨r, names⟩
      · rwa [Function.update_of_ne same] at names
    · rwa [clients] at names
  · intro w' srv' up' front m back split h promised
    rw [moved.workers] at up'
    rcases Generations.update_some up' with ⟨rfl, rfl⟩ | ⟨_, up'⟩
    · obtain ⟨front', back', split', sub, ahead⟩ := served.order front m back split
      obtain ⟨issuer, mem, free⟩ := V.queued w' srv up front' m back' split' h promised
      refine ⟨issuer.trans served.generation.symm, ?_, fun x there => free x (sub x there)⟩
      rcases served.stays h.id mem with kept | ⟨m', r, answered, named⟩
      · exact kept
      · -- a release that took the buffer away would have come before the request
        have pending := (served.served m' r answered).1
        have released := released_same L up pending issuer named
        exact absurd released (free m' (ahead m' r answered (List.ne_nil_of_mem released)))
    · exact V.queued w' srv' up' front m back split h promised

theorem inv_serve {W : Watch} {σ : State} (inv : Inv W σ B) {w : Name} {srv next : Server}
    {answer : Option (Message × Reply)} {events : List Event} (up : σ.sys.workers w = some srv)
    (served : Served srv next answer) (exact : W.accounted → Exact srv next answer)
    (heard : W.accounted → ∀ m r, answer = some (m, r) → handlesOf r ≠ [] →
      ∃ k, σ.sys.clients m.caller = .await w m.ticket m.call k)
    (base : Generations.Inv truthful (serve σ.sys w next answer events)) {lost : List Minted}
    (none : W.vowed → lost = []) :
    ∃ B', Inv W ⟨serve σ.sys w next answer events, σ.granted, σ.promised, lost⟩ B' := by
  have L := inv.ledger
  have moved := serve_moved σ.sys w next answer events
  have calls : ∀ m r call k, Delivered σ.sys w answer m r call k → call = m.call := by
    rintro m r call k ⟨answered, waits⟩
    exact ((inv.base.tickets w srv up m (served.served m r answered).1).2 w call k waits).2
  have requests : ∀ w' srv', (serve σ.sys w next answer events).workers w' = some srv' →
      ∀ m ∈ srv'.port, isRequest m.call = true := by
    intro w' srv' up' m mem
    rw [moved.workers] at up'
    rcases Generations.update_some up' with ⟨rfl, rfl⟩ | ⟨_, up'⟩
    · rcases served.requests m mem with old | request
      · exact inv.requests w' srv up m old
      · exact request
    · exact inv.requests w' srv' up' m mem
  have vowed : W.vowed → Vowed ⟨serve σ.sys w next answer events, σ.granted, σ.promised, lost⟩ :=
    fun on => vowed_serve (inv.vowed on) L up served (none on)
  rcases serve_clients σ.sys w next answer events with ⟨m, r, call, k, delivered,
    clients⟩ | ⟨undelivered, clients⟩
  · have answered := delivered.1
    obtain ⟨pending, answers, gen, _⟩ := served.served m r answered
    refine ⟨B.hand m.caller w (handlesOf r), base, ledger_answer L up served answered, ?_, requests,
      fun on => accounted_serve (inv.accounted on) up served (exact on) ?_ ?_ calls, vowed⟩
    · intro c
      rw [clients]
      by_cases same : c = m.caller
      · subst same
        rw [Function.update_self]
        rcases inv.going m.caller with ⟨b, prog, _⟩ | sound
        · rw [delivered.2] at prog
          cases prog
        · rw [delivered.2] at sound
          cases calls m r call k delivered
          have next := sound.2.2 r answers (by
            rintro g rfl h mem
            obtain ⟨srv', up', issuer, _⟩ := (L.safe w h (Or.inr ⟨m.caller, mem⟩)).1
            cases Option.some.inj (up.symm.trans up')
            exact issuer.trans (gen g rfl).symm)
          exact Or.inr (by simpa [Books.hand] using next)
      · rw [Function.update_of_ne same]
        have own : (B.hand m.caller w (handlesOf r)).own c = B.own c := by simp [Books.hand, same]
        rcases inv.going c with ⟨b, prog, hands, claiming⟩ | sound
        · refine Or.inl ⟨b, prog, own.trans hands, claiming_serve up served claiming ?_⟩
          intro w' h held
          rcases held_hand.mp held with before | ⟨rfl, new⟩
          · exact Or.inl before
          · exact Or.inr (served_new served up answered new)
        · exact Or.inr (by rw [own]; exact sound)
    · exact fun w' h held => held_hand.mpr (Or.inl held)
    · rintro m' r' eq h mem
      cases answered.symm.trans eq
      exact held_hand.mpr (Or.inr ⟨rfl, mem⟩)
  · refine ⟨B, base, ledger_serve L up served, ?_, requests,
      fun on => accounted_serve (inv.accounted on) up served (exact on) (fun _ _ held => held) ?_ calls,
      vowed⟩
    · intro c
      rw [clients]
      rcases inv.going c with ⟨b, prog, hands, claiming⟩ | sound
      · exact Or.inl ⟨b, prog, hands, claiming_serve up served claiming fun _ _ held => Or.inl held⟩
      · exact Or.inr sound
    · -- an answer with ids in it is always waited for
      intro m r answered h mem
      obtain ⟨k, waits⟩ := heard on m r answered (List.ne_nil_of_mem mem)
      exact absurd ⟨answered, waits⟩ (undelivered m r m.call k)

structure Alike (s t : Cluster.State) : Prop where
  workers : t.workers = s.workers
  refs : t.refs = s.refs
  taken : t.taken = s.taken
  nextRef : t.nextRef = s.nextRef
  tensorQueue : t.tensorQueue = s.tensorQueue

theorem old_alike (alike : Alike s t) {w : Name} {h : Minted} : Old t w h ↔ Old s w h := by
  simp only [Old, alike.workers]

theorem resident_alike (alike : Alike s t) {w : Name} {h : Minted} : Resident t w h ↔
    Resident s w h := by
  simp only [Resident, alike.workers]

theorem live_alike (alike : Alike s t) {w : Name} {h : Minted} : Live t w h ↔ Live s w h := by
  simp only [Live, alike.refs, alike.taken]

theorem queued_alike (alike : Alike s t) {w : Name} {h : Minted} : Queued t w h ↔ Queued s w h := by
  simp only [Queued, alike.tensorQueue]

theorem posted_alike (alike : Alike s t) {w : Name} {h : Minted} : Posted t w h ↔ Posted s w h := by
  simp only [Posted, alike.workers]

theorem touched_alike (alike : Alike s t) {w : Name} {h : Minted} : Touched t B w h ↔
    Touched s B w h := by
  simp only [Touched, queued_alike alike, posted_alike alike]

theorem up_alike (alike : Alike s t) : Up t = Up s := by
  funext w
  simp only [Up, alike.workers]

theorem ledger_alike (alike : Alike s t) (L : Ledger s B) : Ledger t B := by
  refine ⟨?_, ?_, ?_, ?_, ?_, ?_, ?_, L.ownNodup, L.ownApart, ?_, ?_, ?_⟩
  · rw [alike.refs, alike.nextRef]
    exact L.refNumbers
  · rw [alike.taken, alike.nextRef]
    exact L.takenNumbers
  · rw [alike.refs]
    exact L.refsNodup
  · rw [alike.refs]
    exact L.sameRef
  · rw [alike.refs]
    exact L.sameHandle
  · rw [alike.refs]
    exact fun b mem => (old_alike alike).mpr (L.refsOld b mem)
  · exact fun w h touched => (old_alike alike).mpr (L.touchedOld w h ((touched_alike alike).mp touched))
  · rw [alike.refs]
    exact L.ownNoRef
  · intro w h claimed
    rw [live_alike alike] at claimed
    rw [resident_alike alike, touched_alike alike]
    exact L.safe w h claimed
  · rw [alike.workers]
    exact L.numbered

def Books.keep (B : Books) (c : Nat) (hands : List (Name × Minted)) : Books :=
  { B with own := Function.update B.own c hands }

theorem mem_keep {c c' : Nat} {hands : List (Name × Minted)} (sub : hands.Sublist (B.own c))
    {p : Name × Minted} (mem : p ∈ (B.keep c hands).own c') : p ∈ B.own c' := by
  by_cases same : c' = c
  · subst same
    simp only [Books.keep, Function.update_self] at mem
    exact sub.subset mem
  · simpa [Books.keep, same] using mem

theorem held_keep {c : Nat} {hands : List (Name × Minted)} (sub : hands.Sublist (B.own c))
    {w : Name} {h : Minted} (held : Held (B.keep c hands) w h) : Held B w h := by
  obtain ⟨c', mem⟩ := held
  exact ⟨c', mem_keep sub mem⟩

theorem ledger_keep (L : Ledger s B) {c : Nat} {hands : List (Name × Minted)}
    (sub : hands.Sublist (B.own c)) : Ledger s (B.keep c hands) := by
  refine { L with touchedOld := L.touchedOld, ownNodup := ?_, ownApart := ?_, ownNoRef := ?_, safe := ?_ }
  · intro c'
    by_cases same : c' = c
    · subst same
      simpa [Books.keep] using (L.ownNodup c').sublist sub
    · simpa [Books.keep, same] using L.ownNodup c'
  · exact fun c₁ c₂ p first second => L.ownApart c₁ c₂ p (mem_keep sub first) (mem_keep sub second)
  · exact fun c' b mem held => L.ownNoRef c' b mem (mem_keep sub held)
  · exact fun w h claimed => L.safe w h (claimed.imp_right (held_keep sub))

theorem claiming_alike (alike : Alike s t) {B' : Books} (fewer : ∀ w h, Held B' w h → Held B w h)
    {b : Backend} (claiming : Claiming s B b) : Claiming t B' b := by
  refine ⟨by rw [alike.nextRef]; exact claiming.number, claiming.fresh,
    (old_alike alike).mpr claiming.old, by rw [alike.refs]; exact claiming.sameRef,
    by rw [alike.refs]; exact claiming.sameHandle, fun held => claiming.free (fewer _ _ held)⟩

structure Onward (W : Watch) (s : Cluster.State) (B : Books) (c : Nat) (p : Prog)
    (hands : List (Name × Minted)) : Prop where
  sub : hands.Sublist (B.own c)
  all : W.accounted → hands = B.own c
  going : Going s (B.keep c hands) c p
  owes : W.accounted → ∀ w h, Resident s w h → Owes (Up s) w h (s.clients c) → Owes (Up s) w h p
  names : W.vowed → ∀ w h, Names w h p → Names w h (s.clients c)

theorem going_keep {c : Nat} {p : Prog} {hands : List (Name × Minted)}
    (sound : Sound (B.may c) hands p) :
    Going s (B.keep c hands) c p := Or.inr (by simpa [Books.keep] using sound)

theorem going_alike (alike : Alike s t) {B' : Books} (fewer : ∀ w h, Held B' w h → Held B w h) {c : Nat}
    {p : Prog} (own : B'.own c = B.own c) (may : B'.may c = B.may c) (going : Going s B c p) :
    Going t B' c p := by
  rcases going with ⟨b, prog, none, claiming⟩ | sound
  · exact Or.inl ⟨b, prog, own.trans none, claiming_alike alike fewer claiming⟩
  · exact Or.inr (by rw [own, may]; exact sound)

theorem inv_onward {W : Watch} {σ : State} (inv : Inv W σ B) {c : Nat} {p : Prog}
    {hands : List (Name × Minted)} (on : Onward W σ.sys B c p hands) (alike : Alike σ.sys t)
    (clients : t.clients = Function.update σ.sys.clients c p)
    (base : Generations.Inv truthful t) {granted : Nat → List Backend} {promised : Nat → List Minted}
    (given : ∀ c', ∀ b ∈ granted c', b ∈ σ.granted c')
    (old : ∀ i < σ.sys.ticket, promised i = σ.promised i) :
    ∃ B', Inv W ⟨t, granted, promised, σ.lost⟩ B' := by
  refine ⟨B.keep c hands, base, ledger_keep (ledger_alike alike inv.ledger) on.sub, ?_, ?_, ?_, ?_⟩
  · intro c'
    rw [clients]
    by_cases same : c' = c
    · subst same
      rw [Function.update_self]
      exact going_alike alike (fun _ _ held => held) rfl rfl on.going
    · rw [Function.update_of_ne same]
      have own : (B.keep c hands).own c' = B.own c' := by simp [Books.keep, same]
      exact going_alike alike (fun _ _ => held_keep on.sub) own rfl (inv.going c')
  · rw [alike.workers]
    exact inv.requests
  · intro watched
    have A := inv.accounted watched
    have same : (B.keep c hands).own = B.own := by
      rw [on.all watched]
      exact Function.update_eq_self c B.own
    intro w h here
    rw [resident_alike alike] at here
    rw [live_alike alike, queued_alike alike, posted_alike alike, up_alike alike]
    simp only [Held, same]
    rcases A w h here with live | held | queued | posted | ⟨c', owed⟩
    · exact Or.inl live
    · exact Or.inr (Or.inl held)
    · exact Or.inr (Or.inr (Or.inl queued))
    · exact Or.inr (Or.inr (Or.inr (Or.inl posted)))
    · refine Or.inr (Or.inr (Or.inr (Or.inr ⟨c', ?_⟩)))
      rw [clients]
      by_cases same : c' = c
      · subst same
        rw [Function.update_self]
        exact on.owes watched w h here owed
      · rwa [Function.update_of_ne same]
  · intro watched
    have V := inv.vowed watched
    refine ⟨?_, ?_, V.lost⟩
    · intro c' b mem names
      rw [alike.refs, alike.taken]
      apply V.alive c' b (given c' b mem)
      rw [clients] at names
      by_cases same : c' = c
      · subst same
        rw [Function.update_self] at names
        exact on.names watched _ _ names
      · rwa [Function.update_of_ne same] at names
    · rw [alike.workers]
      intro w srv up front m back split h mem
      have mem : h ∈ promised m.ticket := mem
      have pending : m ∈ srv.pending := by
        have there : m ∈ queue srv := by rw [split]; simp
        simpa [queue, Server.pending, or_comm] using there
      rw [old m.ticket (inv.base.tickets w srv up m pending).1] at mem
      exact V.queued w srv up front m back split h mem

theorem keep_self (c : Nat) : B.keep c (B.own c) = B := by
  simp only [Books.keep, Function.update_eq_self]

theorem inv_still {W : Watch} {σ : State} (inv : Inv W σ B) (alike : Alike σ.sys t)
    (clients : t.clients = σ.sys.clients) (base : Generations.Inv truthful t) :
    ∃ B', Inv W { σ with sys := t } B' := by
  have on : Onward W σ.sys B 0 (σ.sys.clients 0) (B.own 0) :=
    ⟨List.Sublist.refl _, fun _ => rfl, by rw [keep_self]; exact inv.going 0,
      fun _ _ _ _ owes => owes, fun _ _ _ names => names⟩
  exact inv_onward inv on alike (clients.trans (Function.update_eq_self 0 _).symm) base
    (fun _ _ mem => mem) (fun _ _ => rfl)

theorem going_sound {c : Nat} {p : Prog} (going : Going s B c p) (other : ∀ b k, p ≠ .take b k) :
    Sound (B.may c) (B.own c) p := by
  rcases going with ⟨b, prog, _⟩ | sound
  · exact absurd prog (other b _)
  · exact sound

theorem inv_progress {W : Watch} {σ : State} (inv : Inv W σ B) {c : Nat} {p : Prog}
    (alike : Alike σ.sys t) (clients : t.clients = Function.update σ.sys.clients c p)
    (base : Generations.Inv truthful t) (sound : Sound (B.may c) (B.own c) p)
    (owes : ∀ w h, Resident σ.sys w h → Owes (Up σ.sys) w h (σ.sys.clients c) → Owes (Up σ.sys) w h p)
    (names : ∀ w h, Names w h p → Names w h (σ.sys.clients c)) :
    ∃ B', Inv W { σ with sys := t } B' := by
  have on : Onward W σ.sys B c p (B.own c) :=
    ⟨List.Sublist.refl _, fun _ => rfl, going_keep sound, fun _ => owes, fun _ => names⟩
  exact inv_onward inv on alike clients base (fun _ _ mem => mem) (fun _ _ => rfl)

theorem inv_give_up {W : Watch} {σ : State} (inv : Inv W σ B) {c : Nat} {p : Prog}
    (alike : Alike σ.sys t) (clients : t.clients = Function.update σ.sys.clients c p)
    (base : Generations.Inv truthful t) (sound : Sound (B.may c) [] p)
    (empty : W.accounted → B.own c = [])
    (owes : W.accounted → ∀ w h, Owes (Up σ.sys) w h (σ.sys.clients c) → Owes (Up σ.sys) w h p)
    (names : ∀ w h, Names w h p → Names w h (σ.sys.clients c))
    {promised : Nat → List Minted} (old : ∀ i < σ.sys.ticket, promised i = σ.promised i) :
    ∃ B', Inv W ⟨t, σ.granted, promised, σ.lost⟩ B' := by
  have on : Onward W σ.sys B c p [] :=
    ⟨List.nil_sublist _, fun watched => (empty watched).symm, going_keep sound,
      fun watched w h _ => owes watched w h, fun _ => names⟩
  exact inv_onward inv on alike clients base (fun _ _ mem => mem) old

/-- A reference for the handle `h` is added, and the workers and the queue stay. -/
structure Wrapped (s t : Cluster.State) (w : Name) (g : Gen) (h : Minted) : Prop where
  refs : t.refs = ⟨s.nextRef, w, g, h⟩ :: s.refs
  nextRef : t.nextRef = s.nextRef + 1
  taken : t.taken = s.taken
  workers : t.workers = s.workers
  tensorQueue : t.tensorQueue = s.tensorQueue

section
variable {c : Nat} {w : Name} {g : Gen} {h : Minted} {k : Prog}

theorem old_wrapped (wrapped : Wrapped s t w g h) {w' : Name} {h' : Minted} :
    Old t w' h' ↔ Old s w' h' := by
  simp only [Old, wrapped.workers]

theorem resident_wrapped (wrapped : Wrapped s t w g h) {w' : Name} {h' : Minted} :
    Resident t w' h' ↔ Resident s w' h' := by
  simp only [Resident, wrapped.workers]

theorem queued_wrapped (wrapped : Wrapped s t w g h) {w' : Name} {h' : Minted} :
    Queued t w' h' ↔ Queued s w' h' := by
  simp only [Queued, wrapped.tensorQueue]

theorem posted_wrapped (wrapped : Wrapped s t w g h) {w' : Name} {h' : Minted} :
    Posted t w' h' ↔ Posted s w' h' := by
  simp only [Posted, wrapped.workers]

theorem touched_wrapped (wrapped : Wrapped s t w g h) {hands : List (Name × Minted)} {w' : Name}
    {h' : Minted} : Touched t (B.keep c hands) w' h' ↔ Touched s B w' h' := by
  simp only [Touched, queued_wrapped wrapped, posted_wrapped wrapped, Books.keep]

theorem up_wrapped (wrapped : Wrapped s t w g h) : Up t = Up s := by
  funext w'
  simp only [Up, wrapped.workers]

/-- The new reference is live, for its number was never taken. -/
theorem live_wrapped (L : Ledger s B) (wrapped : Wrapped s t w g h) {w' : Name} {h' : Minted} :
    Live t w' h' ↔ (w' = w ∧ h' = h) ∨ Live s w' h' := by
  have untaken : s.nextRef ∉ s.taken := fun mem => Nat.lt_irrefl _ (L.takenNumbers _ mem)
  simp only [Live, wrapped.refs, wrapped.taken, List.exists_mem_cons_iff]
  constructor
  · rintro (⟨_, rfl, rfl⟩ | live)
    · exact Or.inl ⟨rfl, rfl⟩
    · exact Or.inr live
  · rintro (⟨rfl, rfl⟩ | live)
    · exact Or.inl ⟨untaken, rfl, rfl⟩
    · exact Or.inr live

theorem not_mem_erased (L : Ledger s B) (mine : (w, h) ∈ B.own c) (c' : Nat) :
    (w, h) ∉ (B.keep c ((B.own c).erase (w, h))).own c' := by
  intro mem
  by_cases same : c' = c
  · subst same
    simp only [Books.keep, Function.update_self] at mem
    exact (L.ownNodup c').not_mem_erase mem
  · exact same (L.ownApart c' c _ (mem_keep List.erase_sublist mem) mine)

theorem sameRef_wrapped (L : Ledger s B) (wrapped : Wrapped s t w g h) :
    ∀ b ∈ t.refs, ∀ b' ∈ t.refs, b.ref = b'.ref → b = b' := by
  rw [wrapped.refs]
  intro b mem b' mem' same
  rcases List.mem_cons.mp mem with rfl | mem <;> rcases List.mem_cons.mp mem' with rfl | mem'
  · rfl
  · exact absurd (L.refNumbers b' mem') (by rw [← same]; exact Nat.lt_irrefl _)
  · exact absurd (L.refNumbers b mem) (by rw [same]; exact Nat.lt_irrefl _)
  · exact L.sameRef b mem b' mem' same

theorem sameHandle_wrapped (L : Ledger s B) (mine : (w, h) ∈ B.own c) (wrapped : Wrapped s t w g h) :
    ∀ b ∈ t.refs, ∀ b' ∈ t.refs, b.worker = b'.worker → b.handle = b'.handle → b = b' := by
  rw [wrapped.refs]
  intro b mem b' mem' worker handle
  rcases List.mem_cons.mp mem with rfl | mem <;> rcases List.mem_cons.mp mem' with rfl | mem'
  · rfl
  · exact absurd (by rw [← worker, ← handle]; exact mine) (L.ownNoRef c b' mem')
  · exact absurd (by rw [worker, handle]; exact mine) (L.ownNoRef c b mem)
  · exact L.sameHandle b mem b' mem' worker handle

theorem safe_wrapped (L : Ledger s B) (mine : (w, h) ∈ B.own c) (wrapped : Wrapped s t w g h)
    {w' : Name} {h' : Minted} (claimed : Live t w' h' ∨ Held (B.keep c ((B.own c).erase (w, h))) w' h') :
    Resident t w' h' ∧ ¬ Touched t (B.keep c ((B.own c).erase (w, h))) w' h' := by
  have before : Live s w' h' ∨ Held B w' h' := by
    rcases claimed with now | held
    · rcases (live_wrapped L wrapped).mp now with ⟨rfl, rfl⟩ | before
      · exact Or.inr ⟨c, mine⟩
      · exact Or.inl before
    · exact Or.inr (held_keep List.erase_sublist held)
  obtain ⟨there, free⟩ := L.safe w' h' before
  exact ⟨(resident_wrapped wrapped).mpr there, fun touched => free ((touched_wrapped wrapped).mp touched)⟩

theorem ledger_newRef (L : Ledger s B) (mine : (w, h) ∈ B.own c) (wrapped : Wrapped s t w g h) :
    Ledger t (B.keep c ((B.own c).erase (w, h))) where
  refNumbers := by
    rw [wrapped.refs, wrapped.nextRef, List.forall_mem_cons]
    exact ⟨Nat.lt_succ_self _, fun b mem => Nat.lt_succ_of_lt (L.refNumbers b mem)⟩
  takenNumbers := by
    rw [wrapped.taken, wrapped.nextRef]
    exact fun r mem => Nat.lt_succ_of_lt (L.takenNumbers r mem)
  refsNodup := by
    rw [wrapped.refs, List.nodup_cons]
    exact ⟨fun mem => Nat.lt_irrefl _ (L.refNumbers _ mem), L.refsNodup⟩
  sameRef := sameRef_wrapped L wrapped
  sameHandle := sameHandle_wrapped L mine wrapped
  refsOld := by
    obtain ⟨here, _⟩ := L.safe w h (Or.inr ⟨c, mine⟩)
    rw [wrapped.refs, List.forall_mem_cons]
    exact ⟨(old_wrapped wrapped).mpr (old_resident L here),
      fun b mem => (old_wrapped wrapped).mpr (L.refsOld b mem)⟩
  touchedOld w' h' touched :=
    (old_wrapped wrapped).mpr (L.touchedOld w' h' ((touched_wrapped wrapped).mp touched))
  ownNodup := (ledger_keep L List.erase_sublist).ownNodup
  ownApart := (ledger_keep L List.erase_sublist).ownApart
  ownNoRef := by
    rw [wrapped.refs]
    intro c' b mem
    rcases List.mem_cons.mp mem with rfl | mem
    · exact not_mem_erased L mine c'
    · exact (ledger_keep L List.erase_sublist).ownNoRef c' b mem
  safe _ _ claimed := safe_wrapped L mine wrapped claimed
  numbered := by
    rw [wrapped.workers]
    exact L.numbered

/-- A process that gives up another reference than the new one. -/
theorem claiming_wrapped (mine : (w, h) ∈ B.own c) (wrapped : Wrapped s t w g h) {b : Backend}
    (claiming : Claiming s B b) : Claiming t (B.keep c ((B.own c).erase (w, h))) b where
  number := by
    rw [wrapped.nextRef]
    exact Nat.lt_succ_of_lt claiming.number
  fresh := claiming.fresh
  old := (old_wrapped wrapped).mpr claiming.old
  sameRef := by
    rw [wrapped.refs, List.forall_mem_cons]
    refine ⟨fun same => ?_, claiming.sameRef⟩
    exact absurd claiming.number (by rw [← same]; exact Nat.lt_irrefl _)
  sameHandle := by
    rw [wrapped.refs, List.forall_mem_cons]
    refine ⟨fun worker handle => ?_, claiming.sameHandle⟩
    exact absurd ⟨c, by rw [← worker, ← handle]; exact mine⟩ claiming.free
  free held := claiming.free (held_keep List.erase_sublist held)

theorem going_wrapped (mine : (w, h) ∈ B.own c) (wrapped : Wrapped s t w g h) {c' : Nat}
    (other : c' ≠ c) {p : Prog} (going : Going s B c' p) :
    Going t (B.keep c ((B.own c).erase (w, h))) c' p := by
  have own : (B.keep c ((B.own c).erase (w, h))).own c' = B.own c' := by simp [Books.keep, other]
  rcases going with ⟨b, prog, none, claiming⟩ | sound
  · exact Or.inl ⟨b, prog, own.trans none, claiming_wrapped mine wrapped claiming⟩
  · exact Or.inr (by rw [own]; exact sound)

theorem accounted_newRef (L : Ledger s B) (A : Accounted s B) (prog : s.clients c = .newRef w g h k)
    (wrapped : Wrapped s t w g h) (clients : t.clients = Function.update s.clients c k) :
    Accounted t (B.keep c ((B.own c).erase (w, h))) := by
  intro w' h' here
  rw [live_wrapped L wrapped, queued_wrapped wrapped, posted_wrapped wrapped, up_wrapped wrapped]
  rcases A w' h' ((resident_wrapped wrapped).mp here) with now | ⟨c', mem⟩ | q | p | ⟨c', owed⟩
  · exact Or.inl (Or.inr now)
  · by_cases this : (w', h') = (w, h)
    · exact Or.inl (Or.inl (Prod.mk.inj this))
    · refine Or.inr (Or.inl ⟨c', ?_⟩)
      by_cases same : c' = c
      · subst same
        simp only [Books.keep, Function.update_self]
        exact (List.mem_erase_of_ne this).mpr mem
      · simpa [Books.keep, same] using mem
  · exact Or.inr (Or.inr (Or.inl q))
  · exact Or.inr (Or.inr (Or.inr (Or.inl p)))
  · refine Or.inr (Or.inr (Or.inr (Or.inr ⟨c', ?_⟩)))
    rw [clients]
    by_cases same : c' = c
    · subst same
      rw [prog] at owed
      rwa [Function.update_self]
    · rwa [Function.update_of_ne same]

theorem vowed_newRef {σ : State} (V : Vowed σ) (prog : σ.sys.clients c = .newRef w g h k)
    (wrapped : Wrapped σ.sys t w g h) (clients : t.clients = Function.update σ.sys.clients c k) :
    Vowed { σ with sys := t } := by
  refine ⟨?_, by rw [wrapped.workers]; exact V.queued, V.lost⟩
  intro c' b mem names
  have before : Names b.worker b.handle (σ.sys.clients c') := by
    rw [clients] at names
    by_cases same : c' = c
    · subst same
      rw [prog]
      rwa [Function.update_self] at names
    · rwa [Function.update_of_ne same] at names
  obtain ⟨there, free⟩ := V.alive c' b mem before
  rw [wrapped.refs, wrapped.taken]
  exact ⟨List.mem_cons_of_mem _ there, free⟩

theorem inv_newRef {W : Watch} {σ : State} (inv : Inv W σ B) (prog : σ.sys.clients c = .newRef w g h k)
    (wrapped : Wrapped σ.sys t w g h) (clients : t.clients = Function.update σ.sys.clients c k)
    (base : Generations.Inv truthful t) : ∃ B', Inv W { σ with sys := t } B' := by
  have L := inv.ledger
  obtain ⟨mine, _, sound⟩ :
      (w, h) ∈ B.own c ∧ g = h.issuer ∧ Sound (B.may c) ((B.own c).erase (w, h)) k := by
    have sound := going_sound (inv.going c) fun b k same => by cases prog.symm.trans same
    rwa [prog] at sound
  refine ⟨B.keep c ((B.own c).erase (w, h)), base, ledger_newRef L mine wrapped, ?_,
    by rw [wrapped.workers]; exact inv.requests,
    fun watched => accounted_newRef L (inv.accounted watched) prog wrapped clients,
    fun watched => vowed_newRef (inv.vowed watched) prog wrapped clients⟩
  intro c'
  rw [clients]
  by_cases same : c' = c
  · subst same
    rw [Function.update_self]
    exact Or.inr (by simpa [Books.keep] using sound)
  · rw [Function.update_of_ne same]
    exact going_wrapped mine wrapped same (inv.going c')

end

theorem setClient_self (s : Cluster.State) (c : Nat) (p : Prog) : (s.setClient c p).clients c = p :=
  Function.update_self ..

theorem setClient_other {c c' : Nat} (other : c' ≠ c) (s : Cluster.State) (p : Prog) :
    (s.setClient c p).clients c' = s.clients c' := Function.update_of_ne other ..

def Books.permit (B : Books) (c : Nat) (may : Name → Minted → Prop) : Books :=
  { B with may := Function.update B.may c may }

theorem may_permit {c c' : Nat} {may : Name → Minted → Prop} {w : Name} {h : Minted}
    (allowed : (B.permit c may).may c' w h) : may w h ∨ B.may c' w h := by
  by_cases same : c' = c
  · subst same
    exact Or.inl (by simpa [Books.permit] using allowed)
  · exact Or.inr (by simpa [Books.permit, same] using allowed)

/-- The claim of the reference `b`, whoever has claimed it before. -/
def claim (s : Cluster.State) (c : Nat) (b : Backend) : Cluster.State :=
  { s.setClient c (afterTake b (!s.taken.contains b.ref)) with taken := b.ref :: s.taken }

def Books.claim (B : Books) (c : Nat) (b : Backend) : Books :=
  B.permit c fun w h => w = b.worker ∧ h = b.handle

section
variable {c : Nat} {b : Backend}

theorem claim_self : (claim s c b).clients c = afterTake b (!s.taken.contains b.ref) := setClient_self ..

theorem claim_other {c' : Nat} (other : c' ≠ c) : (claim s c b).clients c' = s.clients c' :=
  setClient_other other ..

theorem live_claim (claiming : Claiming s B b) {w : Name} {h : Minted} (live : Live (claim s c b) w h) :
    Live s w h ∧ ¬ (w = b.worker ∧ h = b.handle) := by
  obtain ⟨b', mem, free, rfl, rfl⟩ := live
  rw [claim, List.mem_cons, not_or] at free
  refine ⟨⟨b', mem, free.2, rfl, rfl⟩, ?_⟩
  rintro ⟨worker, handle⟩
  exact free.1 (by rw [claiming.sameHandle b' mem worker handle])

theorem touched_claim {w : Name} {h : Minted} (touched : Touched (claim s c b) (B.claim c b) w h) :
    Touched s B w h ∨ w = b.worker ∧ h = b.handle := by
  rcases touched with queued | posted | ⟨c', may⟩
  · exact Or.inl (Or.inl queued)
  · exact Or.inl (Or.inr (Or.inl posted))
  · rcases may_permit may with this | before
    · exact Or.inr this
    · exact Or.inl (Or.inr (Or.inr ⟨c', before⟩))

theorem ledger_claim (L : Ledger s B) (claiming : Claiming s B b) :
    Ledger (claim s c b) (B.claim c b) := by
  refine { L with takenNumbers := ?_, touchedOld := ?_, safe := ?_ }
  · exact List.forall_mem_cons.mpr ⟨claiming.number, L.takenNumbers⟩
  · intro w h touched
    rcases touched_claim touched with before | ⟨rfl, rfl⟩
    · exact L.touchedOld w h before
    · exact claiming.old
  · intro w h claimed
    have other : (Live s w h ∨ Held B w h) ∧ ¬ (w = b.worker ∧ h = b.handle) := by
      rcases claimed with now | held
      · exact ⟨Or.inl (live_claim claiming now).1, (live_claim claiming now).2⟩
      · refine ⟨Or.inr held, ?_⟩
        rintro ⟨rfl, rfl⟩
        exact claiming.free held
    obtain ⟨here, free⟩ := L.safe w h other.1
    exact ⟨here, fun touched => (touched_claim touched).elim free other.2⟩

theorem going_claim (none : B.own c = []) (going : ∀ c', Going s B c' (s.clients c')) (c' : Nat) :
    Going (claim s c b) (B.claim c b) c' ((claim s c b).clients c') := by
  by_cases same : c' = c
  · subst same
    refine Or.inr ?_
    have sound : Sound (fun w h => w = b.worker ∧ h = b.handle) []
        (afterTake b (!s.taken.contains b.ref)) := sound_afterTake _ ⟨rfl, rfl⟩
    simpa [claim, Books.claim, Books.permit, State.setClient, none] using sound
  · rw [claim_other same]
    rcases going c' with ⟨b', prog', none', claiming'⟩ | sound
    · exact Or.inl ⟨b', prog', none', claiming'.number, claiming'.fresh, claiming'.old,
        claiming'.sameRef, claiming'.sameHandle, claiming'.free⟩
    · exact Or.inr (by simpa [Books.claim, Books.permit, same] using sound)

theorem accounted_claim (A : Accounted s B) (prog : s.clients c = backendDeallocate b .done)
    (claiming : Claiming s B b) : Accounted (claim s c b) (B.claim c b) := by
  intro w h here
  rcases A w h here with ⟨b', mem, free, rfl, rfl⟩ | held | queued | posted | ⟨c', owed⟩
  · by_cases same : b'.ref = b.ref
    · -- the reference that is claimed: its buffer is now for the claimant to release
      have this := claiming.sameRef b' mem same
      subst this
      refine Or.inr (Or.inr (Or.inr (Or.inr ⟨c, ?_⟩)))
      have won : (!s.taken.contains b'.ref) = true := by simpa using free
      rw [claim_self, won]
      exact owes_afterTake claiming.fresh (old_up claiming.old)
    · exact Or.inl ⟨b', mem, by simp [claim, same, free], rfl, rfl⟩
  · exact Or.inr (Or.inl held)
  · exact Or.inr (Or.inr (Or.inl queued))
  · exact Or.inr (Or.inr (Or.inr (Or.inl posted)))
  · refine Or.inr (Or.inr (Or.inr (Or.inr ⟨c', ?_⟩)))
    by_cases same : c' = c
    · subst same
      rw [prog] at owed
      exact owed.elim
    · rw [claim_other same]
      exact owed

theorem vowed_claim {σ : State} (V : Vowed σ) (prog : σ.sys.clients c = backendDeallocate b .done)
    (claiming : Claiming σ.sys B b)
    (kept : ∀ c', b ∈ σ.granted c' → ¬ Names b.worker b.handle (σ.sys.clients c')) :
    Vowed { σ with sys := claim σ.sys c b } := by
  refine ⟨?_, V.queued, V.lost⟩
  intro c' b' mem names
  have names : Names b'.worker b'.handle ((claim σ.sys c b).clients c') := names
  have before : Names b'.worker b'.handle (σ.sys.clients c') := by
    by_cases same : c' = c
    · subst same
      rw [prog]
      rw [claim_self] at names
      exact ⟨_, names⟩
    · rwa [claim_other same] at names
  obtain ⟨there, free⟩ := V.alive c' b' mem before
  refine ⟨there, ?_⟩
  show b'.ref ∉ b.ref :: σ.sys.taken
  rw [List.mem_cons, not_or]
  refine ⟨fun same => ?_, free⟩
  have this := claiming.sameRef b' there same
  subst this
  exact kept c' mem before

theorem inv_take {W : Watch} {σ : State} (inv : Inv W σ B)
    (prog : σ.sys.clients c = backendDeallocate b .done) (none : B.own c = [])
    (claiming : Claiming σ.sys B b)
    (kept : W.vowed → ∀ c', b ∈ σ.granted c' → ¬ Names b.worker b.handle (σ.sys.clients c'))
    (base : Generations.Inv truthful (claim σ.sys c b)) : ∃ B', Inv W { σ with sys := claim σ.sys c b } B' :=
  ⟨B.claim c b, base, ledger_claim inv.ledger claiming, going_claim none inv.going, inv.requests,
    fun watched => accounted_claim (inv.accounted watched) prog claiming,
    fun watched => vowed_claim (inv.vowed watched) prog claiming (kept watched)⟩

end

theorem idle_own {c : Nat} (inv : Going s B c (s.clients c)) (still : idle (s.clients c) = true) :
    B.own c = [] := by
  rcases inv with ⟨b, _, none, _⟩ | sound
  · exact none
  · cases prog : s.clients c with
    | done => simpa [prog, Sound] using sound
    | raise e => simpa [prog, Sound] using sound
    | _ => simp [prog, idle] at still

theorem idle_owes {up : Name → Prop} {p : Prog} (still : idle p = true) {w : Name} {h : Minted} :
    ¬ Owes up w h p := by
  cases p <;> simp_all [idle, Owes]

/-- Client `c` begins an operation; a drain takes everything out of the queues. -/
def begin (s : Cluster.State) (c : Nat) (op : Op) : Cluster.State :=
  { s.setClient c (op.program s) with
    pins := Function.update s.pins c op.pin
    tensorQueue := if op = .drain then [] else s.tensorQueue
    executableQueue := if op = .drain then [] else s.executableQueue }

def Books.begin (B : Books) (s : Cluster.State) (c : Nat) (op : Op) : Books :=
  B.permit c fun w h => op = .drain ∧ Queued s w h

section
variable {c : Nat} {op : Op}

theorem begin_self : (begin s c op).clients c = op.program s := setClient_self ..

theorem begin_other {c' : Nat} (other : c' ≠ c) : (begin s c op).clients c' = s.clients c' :=
  setClient_other other ..

theorem touched_begin {w : Name} {h : Minted} (touched : Touched (begin s c op) (B.begin s c op) w h) :
    Touched s B w h := by
  rcases touched with ⟨r, mem, here⟩ | posted | ⟨c', may⟩
  · simp only [begin] at mem
    split at mem
    · simp at mem
    · exact Or.inl ⟨r, mem, here⟩
  · exact Or.inr (Or.inl posted)
  · rcases may_permit may with ⟨_, queued⟩ | before
    · exact Or.inl queued
    · exact Or.inr (Or.inr ⟨c', before⟩)

theorem ledger_begin (L : Ledger s B) : Ledger (begin s c op) (B.begin s c op) := by
  refine { L with touchedOld := fun w h touched => L.touchedOld w h (touched_begin touched), safe := ?_ }
  intro w h claimed
  obtain ⟨here, free⟩ := L.safe w h claimed
  exact ⟨here, fun touched => free (touched_begin touched)⟩

theorem going_begin_self (L : Ledger s B) (base : Generations.Inv truthful s) (empty : B.own c = [])
    (uses : ∀ b ∈ op.uses, b ∈ s.refs) :
    Going (begin s c op) (B.begin s c op) c ((begin s c op).clients c) := by
  rw [begin_self]
  by_cases claims : ∃ b, op = .backendDeallocate b
  · obtain ⟨b, rfl⟩ := claims
    have mem : b ∈ s.refs := uses b (by simp [Op.uses])
    refine Or.inl ⟨b, rfl, empty, L.refNumbers b mem, (base.refs b mem).1 trivial,
      L.refsOld b mem, fun b' there same => L.sameRef b' there b mem same,
      fun b' there worker handle => L.sameHandle b' there b mem worker handle, ?_⟩
    rintro ⟨c'', mine⟩
    exact L.ownNoRef c'' b mem mine
  · refine Or.inr ?_
    have sound : Sound (fun w h => op = .drain ∧ Queued s w h) [] (op.program s) :=
      sound_program (fun b eq => claims ⟨b, eq⟩) fun drains r mem => ⟨drains, r, mem, rfl, rfl⟩
    simpa [Books.begin, Books.permit, empty] using sound

theorem going_begin_other {c' : Nat} (other : c' ≠ c) (going : Going s B c' (s.clients c')) :
    Going (begin s c op) (B.begin s c op) c' ((begin s c op).clients c') := by
  rw [begin_other other]
  rcases going with ⟨b', prog', none', claiming'⟩ | sound
  · exact Or.inl ⟨b', prog', none', claiming'.number, claiming'.fresh, claiming'.old,
      claiming'.sameRef, claiming'.sameHandle, claiming'.free⟩
  · exact Or.inr (by simpa [Books.begin, Books.permit, other] using sound)

theorem accounted_begin (A : Accounted s B) (L : Ledger s B) (base : Generations.Inv truthful s)
    (still : idle (s.clients c) = true) : Accounted (begin s c op) (B.begin s c op) := by
  intro w h here
  rcases A w h here with live | held | ⟨r, mem, rfl, rfl⟩ | posted | ⟨c', owed⟩
  · exact Or.inl live
  · exact Or.inr (Or.inl held)
  · by_cases drains : op = .drain
    · -- the reaper has taken the entry out of the queue
      subst drains
      refine Or.inr (Or.inr (Or.inr (Or.inr ⟨c, ?_⟩)))
      rw [begin_self]
      exact owes_drain mem (base.queued r mem trivial)
        fun x there => old_up (L.touchedOld _ _ (Or.inl ⟨x, there, rfl, rfl⟩))
    · exact Or.inr (Or.inr (Or.inl ⟨r, by simpa [begin, drains] using mem, rfl, rfl⟩))
  · exact Or.inr (Or.inr (Or.inr (Or.inl posted)))
  · refine Or.inr (Or.inr (Or.inr (Or.inr ⟨c', ?_⟩)))
    by_cases same : c' = c
    · subst same
      exact absurd owed (idle_owes still)
    · rw [begin_other same]
      exact owed

theorem vowed_begin {σ : State} (V : Vowed σ) (uses : ∀ b ∈ op.uses, b ∈ σ.sys.refs) :
    Vowed { σ with
      sys := begin σ.sys c op
      granted := Function.update σ.granted c (op.uses.filter fun b => !σ.sys.taken.contains b.ref) } := by
  refine ⟨?_, V.queued, V.lost⟩
  intro c' b mem names
  by_cases same : c' = c
  · subst same
    simp only [Function.update_self, List.mem_filter, Bool.not_eq_true', List.contains_eq_mem,
      decide_eq_false_iff_not] at mem
    exact ⟨uses b mem.1, mem.2⟩
  · simp only [Function.update_of_ne same] at mem
    have names : Names b.worker b.handle ((begin σ.sys c op).clients c') := names
    exact V.alive c' b mem (by rwa [begin_other same] at names)

theorem inv_start {W : Watch} {σ : State} (inv : Inv W σ B) (still : idle (σ.sys.clients c) = true)
    (uses : ∀ b ∈ op.uses, b ∈ σ.sys.refs) (base : Generations.Inv truthful (begin σ.sys c op)) :
    ∃ B', Inv W { σ with
      sys := begin σ.sys c op
      granted := Function.update σ.granted c (op.uses.filter fun b => !σ.sys.taken.contains b.ref) }
        B' := by
  have empty := idle_own (inv.going c) still
  refine ⟨B.begin σ.sys c op, base, ledger_begin inv.ledger, ?_, inv.requests,
    fun watched => accounted_begin (inv.accounted watched) inv.ledger inv.base still,
    fun watched => vowed_begin (inv.vowed watched) uses⟩
  intro c'
  by_cases same : c' = c
  · subst same
    exact going_begin_self inv.ledger inv.base empty uses
  · exact going_begin_other same (inv.going c')

end

theorem snoc_split {xs front back : List Message} {m y : Message}
    (split : xs ++ [y] = front ++ m :: back) :
    (front = xs ∧ m = y) ∨ ∃ mid, xs = front ++ m :: mid := by
  induction back using List.reverseRecOn with
  | nil =>
    obtain ⟨same, last⟩ := List.append_inj' split rfl
    exact Or.inl ⟨same.symm, (List.cons.inj last).1.symm⟩
  | append_singleton back z _ =>
    rw [← List.cons_append, ← List.append_assoc] at split
    obtain ⟨same, _⟩ := List.append_inj' split rfl
    exact Or.inr ⟨back, same⟩

abbrev mailed (srv : Server) (m : Message) : Server := { srv with mailbox := srv.mailbox ++ [m] }

/-- A client sends a request: the worker has it last in its mailbox, and the client waits. -/
def post (s : Cluster.State) (c : Nat) (w : Name) (call : Call) (k : Reply → Prog) (srv : Server) :
    Cluster.State :=
  { (s.setWorker w (some (mailed srv ⟨c, s.ticket, call⟩))).setClient c (.await w s.ticket call k) with
    ticket := s.ticket + 1 }

section
variable {c : Nat} {w : Name} {call : Call} {k : Reply → Prog} {srv : Server}

theorem pending_mailed {m m' : Message} : m ∈ (mailed srv m').pending ↔ m ∈ srv.pending ∨ m = m' := by
  simp only [Server.pending, List.mem_append, List.mem_singleton]
  tauto

theorem moved_post : Moved s (post s c w call k srv) w (mailed srv ⟨c, s.ticket, call⟩) :=
  ⟨rfl, rfl, rfl, rfl, rfl⟩

theorem later_post (up : s.workers w = some srv) : Later s (post s c w call k srv) :=
  @later_update _ _ w srv (mailed srv ⟨c, s.ticket, call⟩) up rfl (Nat.le_refl _) moved_post.workers

theorem post_self : (post s c w call k srv).clients c = .await w s.ticket call k := setClient_self ..

theorem post_other {c' : Nat} (other : c' ≠ c) : (post s c w call k srv).clients c' = s.clients c' :=
  setClient_other other ..

theorem resident_post (up : s.workers w = some srv) {w' : Name} {h : Minted}
    (here : Resident (post s c w call k srv) w' h) : Resident s w' h := by
  obtain ⟨srv', up', issuer, mem⟩ := here
  rcases Generations.update_some up' with ⟨rfl, rfl⟩ | ⟨_, up'⟩
  · exact ⟨srv, up, issuer, mem⟩
  · exact ⟨srv', up', issuer, mem⟩

theorem ledger_post (L : Ledger s B) (up : s.workers w = some srv)
    (allowed : ∀ h ∈ releases call, B.may c w h) : Ledger (post s c w call k srv) B := by
  refine ledger_moved L up moved_post rfl (Nat.le_refl _) (L.numbered w srv up) ?_ ?_
  · intro m mem h released
    rcases pending_mailed.mp mem with old | rfl
    · exact Or.inr (Or.inl ⟨srv, up, m, old, released⟩)
    · exact Or.inr (Or.inr ⟨c, allowed h released⟩)
  · intro h claimed
    obtain ⟨⟨srv', up', _, mem⟩, _⟩ := L.safe w h claimed
    cases Option.some.inj (up.symm.trans up')
    exact mem

theorem going_post (up : s.workers w = some srv) {c' : Nat} (other : c' ≠ c)
    (going : Going s B c' (s.clients c')) :
    Going (post s c w call k srv) B c' ((post s c w call k srv).clients c') := by
  rw [post_other other]
  rcases going with ⟨b, prog, none, claiming⟩ | sound
  · exact Or.inl ⟨b, prog, none, claiming.number, claiming.fresh,
      old_later (later_post up) claiming.old, claiming.sameRef, claiming.sameHandle, claiming.free⟩
  · exact Or.inr sound

/-- A request may be the release that its client owed; then it is posted now. -/
theorem accounted_post (A : Accounted s B) (prog : s.clients c = .call w call k)
    (up : s.workers w = some srv) : Accounted (post s c w call k srv) B := by
  intro w' h here
  have later : Later s (post s c w call k srv) := later_post up
  have sent : ∀ m ∈ (mailed srv ⟨c, s.ticket, call⟩).pending, h ∈ releases m.call →
      Posted (post s c w call k srv) w h := fun m mem released =>
    ⟨_, by simp [post, State.setWorker, State.setClient], m, mem, released⟩
  rcases A w' h (resident_post up here) with live | held | queued | ⟨srv', up', m, mem, released⟩ |
    ⟨c', owed⟩
  · exact Or.inl live
  · exact Or.inr (Or.inl held)
  · exact Or.inr (Or.inr (Or.inl queued))
  · refine Or.inr (Or.inr (Or.inr (Or.inl ?_)))
    by_cases same : w' = w
    · subst same
      cases Option.some.inj (up.symm.trans up')
      exact sent m (pending_mailed.mpr (Or.inl mem)) released
    · exact ⟨srv', by simpa [post, State.setWorker, State.setClient, same] using up', m, mem, released⟩
  · have owed := owes_mono (fun w up' => up_later later up') owed
    by_cases same : c' = c
    · subst same
      rw [prog] at owed
      rcases owed.2 with ⟨rfl, released⟩ | more
      · exact Or.inr (Or.inr (Or.inr (Or.inl (sent _ (pending_mailed.mpr (Or.inr rfl)) released))))
      · exact Or.inr (Or.inr (Or.inr (Or.inr ⟨c', by rw [post_self]; exact more⟩)))
    · exact Or.inr (Or.inr (Or.inr (Or.inr ⟨c', by rw [post_other same]; exact owed⟩)))

theorem pending_queue {m : Message} : m ∈ queue srv ↔ m ∈ srv.pending := by
  simp only [queue, Server.pending, List.mem_append, or_comm]

/-- What is promised to a request when it is sent is resident, and no request before it releases it. -/
theorem promise_resident {σ : State} (V : Vowed σ) (L : Ledger σ.sys B)
    (prog : σ.sys.clients c = .call w call k) (up : σ.sys.workers w = some srv) {h : Minted}
    (mem : h ∈ σ.promise c) : h.issuer = srv.generation ∧ h.id ∈ srv.proc.registry.buffers ∧
      ∀ m ∈ queue srv, h ∉ releases m.call := by
  simp only [State.promise, prog] at mem
  obtain ⟨b, chosen, rfl⟩ := List.mem_map.mp mem
  simp only [List.mem_filter, Bool.and_eq_true, decide_eq_true_eq, List.contains_eq_mem] at chosen
  obtain ⟨granted, here, named⟩ := chosen
  have names : Names b.worker b.handle (σ.sys.clients c) := by
    rw [prog]
    exact Or.inl ⟨here.symm, named⟩
  obtain ⟨there, free⟩ := V.alive c b granted names
  obtain ⟨⟨srv', up', issuer, buffer⟩, untouched⟩ :=
    L.safe b.worker b.handle (Or.inl ⟨b, there, free, rfl, rfl⟩)
  rw [here] at up' untouched
  cases Option.some.inj (up.symm.trans up')
  exact ⟨issuer, buffer, fun m ahead released =>
    untouched (Or.inr (Or.inl ⟨srv, up, m, pending_queue.mp ahead, released⟩))⟩

theorem alive_post {σ : State} (V : Vowed σ) (prog : σ.sys.clients c = .call w call k) (c' : Nat) :
    ∀ b ∈ σ.granted c', Names b.worker b.handle ((post σ.sys c w call k srv).clients c') →
      b ∈ σ.sys.refs ∧ b.ref ∉ σ.sys.taken := by
  intro b mem names
  refine V.alive c' b mem ?_
  by_cases same : c' = c
  · subst same
    rw [prog]
    rw [post_self] at names
    exact Or.inr names
  · rwa [post_other same] at names

theorem vowed_post {σ : State} (V : Vowed σ) (L : Ledger σ.sys B) (base : Generations.Inv truthful σ.sys)
    (prog : σ.sys.clients c = .call w call k) (up : σ.sys.workers w = some srv) :
    Vowed { σ with
      sys := post σ.sys c w call k srv
      promised := Function.update σ.promised σ.sys.ticket (σ.promise c) } := by
  refine ⟨fun c' => alive_post V prog c', ?_, V.lost⟩
  -- an older request keeps what was promised to it
  have older : ∀ {w' : Name} {srv' : Server} {m : Message}, σ.sys.workers w' = some srv' → m ∈ queue srv' →
      ∀ h ∈ Function.update σ.promised σ.sys.ticket (σ.promise c) m.ticket, h ∈ σ.promised m.ticket := by
    intro w' srv' m up' there h mem
    rwa [Function.update_of_ne (Nat.ne_of_lt (base.tickets w' srv' up' m (pending_queue.mp there)).1)] at mem
  intro w' srv' up' front m back split h mem
  rcases Generations.update_some up' with ⟨rfl, rfl⟩ | ⟨_, up'⟩
  · have split : queue srv ++ [⟨c, σ.sys.ticket, call⟩] = front ++ m :: back := by
      rw [← split]
      simp [queue]
    rcases snoc_split split with ⟨rfl, rfl⟩ | ⟨mid, whole⟩
    · have mem : h ∈ Function.update σ.promised σ.sys.ticket (σ.promise c) σ.sys.ticket := mem
      rw [Function.update_self] at mem
      exact promise_resident V L prog up mem
    · exact V.queued w' srv up front m mid whole h (older up (by rw [whole]; simp) h mem)
  · exact V.queued w' srv' up' front m back split h (older up' (by rw [split]; simp) h mem)

theorem inv_post {W : Watch} {σ : State} (inv : Inv W σ B) (prog : σ.sys.clients c = .call w call k)
    (up : σ.sys.workers w = some srv) (base : Generations.Inv truthful (post σ.sys c w call k srv)) :
    ∃ B', Inv W { σ with
      sys := post σ.sys c w call k srv
      promised := Function.update σ.promised σ.sys.ticket (σ.promise c) } B' := by
  obtain ⟨hands, _, allowed, failed, answered⟩ : Sound (B.may c) (B.own c) (.call w call k) := by
    have sound := going_sound (inv.going c) fun b k same => by cases prog.symm.trans same
    rwa [prog] at sound
  refine ⟨B, base, ledger_post inv.ledger up allowed, ?_, ?_,
    fun watched => accounted_post (inv.accounted watched) prog up,
    fun watched => vowed_post (inv.vowed watched) inv.ledger inv.base prog up⟩
  · intro c'
    by_cases same : c' = c
    · subst same
      rw [post_self]
      exact Or.inr ⟨hands, failed, answered⟩
    · exact going_post up same (inv.going c')
  · intro w' srv' up' m mem
    rcases Generations.update_some up' with ⟨rfl, rfl⟩ | ⟨_, up'⟩
    · exact inv.requests w' srv up m mem
    · exact inv.requests w' srv' up' m mem

end

theorem inv_restart {W : Watch} {σ : State} (inv : Inv W σ B) {w : Name} (down : σ.sys.workers w = none)
    (base : Generations.Inv truthful { σ.sys.setWorker w (some (.start (σ.sys.counter + 1))) with
      counter := σ.sys.counter + 1 }) :
    ∃ B', Inv W { σ with sys := { σ.sys.setWorker w (some (.start (σ.sys.counter + 1))) with
      counter := σ.sys.counter + 1 } } B' := by
  have L := inv.ledger
  have stays : ∀ w' srv, σ.sys.workers w' = some srv →
      Function.update σ.sys.workers w (some (.start (σ.sys.counter + 1))) w' = some srv := by
    intro w' srv up
    rw [Function.update_of_ne]
    · exact up
    · rintro rfl
      rw [down] at up
      cases up
  have old : ∀ {w' : Name} {h : Minted}, Old σ.sys w' h → Old { σ.sys.setWorker w
      (some (.start (σ.sys.counter + 1))) with counter := σ.sys.counter + 1 } w' h := by
    rintro w' h ⟨srv, up, rest⟩
    exact ⟨srv, stays w' srv up, rest⟩
  have posted : ∀ {w' : Name} {h : Minted}, Posted { σ.sys.setWorker w
      (some (.start (σ.sys.counter + 1))) with counter := σ.sys.counter + 1 } w' h →
        Posted σ.sys w' h := by
    rintro w' h ⟨srv, up, m, mem, released⟩
    rcases Generations.update_some up with ⟨rfl, rfl⟩ | ⟨_, up⟩
    · simp [Server.start, Server.pending] at mem
    · exact ⟨srv, up, m, mem, released⟩
  have touched : ∀ {w' : Name} {h : Minted}, Touched { σ.sys.setWorker w
      (some (.start (σ.sys.counter + 1))) with counter := σ.sys.counter + 1 } B w' h →
        Touched σ.sys B w' h :=
    fun t => t.imp_right fun t => t.imp_left posted
  refine ⟨B, base, ?_, ?_, ?_, ?_, ?_⟩
  · refine { L with
      refsOld := fun b mem => old (L.refsOld b mem)
      touchedOld := fun w' h t => old (L.touchedOld w' h (touched t))
      safe := ?_
      numbered := ?_ }
    · intro w' h claimed
      obtain ⟨⟨srv, up, rest⟩, free⟩ := L.safe w' h claimed
      exact ⟨⟨srv, stays w' srv up, rest⟩, fun t => free (touched t)⟩
    · intro w' srv up
      rcases Generations.update_some up with ⟨rfl, rfl⟩ | ⟨_, up⟩
      · simp [Server.start, Proc.fresh, TensorRegistry.empty]
      · exact L.numbered w' srv up
  · intro c
    rcases inv.going c with ⟨b, prog, none, claiming⟩ | sound
    · exact Or.inl ⟨b, prog, none, claiming.number, claiming.fresh, old claiming.old,
        claiming.sameRef, claiming.sameHandle, claiming.free⟩
    · exact Or.inr sound
  · intro w' srv up m mem
    rcases Generations.update_some up with ⟨rfl, rfl⟩ | ⟨_, up⟩
    · simp [Server.start] at mem
    · exact inv.requests w' srv up m mem
  · intro watched
    have A := inv.accounted watched
    rintro w' h ⟨srv, up, issuer, mem⟩
    rcases Generations.update_some up with ⟨rfl, rfl⟩ | ⟨_, up⟩
    · simp [Server.start, Proc.fresh, TensorRegistry.empty] at mem
    · rcases A w' h ⟨srv, up, issuer, mem⟩ with live | held | queued | ⟨srv', up', more⟩ | ⟨c, owed⟩
      · exact Or.inl live
      · exact Or.inr (Or.inl held)
      · exact Or.inr (Or.inr (Or.inl queued))
      · exact Or.inr (Or.inr (Or.inr (Or.inl ⟨srv', stays w' srv' up', more⟩)))
      · refine Or.inr (Or.inr (Or.inr (Or.inr ⟨c, owes_mono ?_ owed⟩)))
        intro w'' running
        obtain ⟨srv', up'⟩ := Option.isSome_iff_exists.mp running
        exact Option.isSome_iff_exists.mpr ⟨srv', stays w'' srv' up'⟩
  · intro watched
    have V := inv.vowed watched
    refine ⟨V.alive, ?_, V.lost⟩
    intro w' srv up front m back split
    rcases Generations.update_some up with ⟨rfl, rfl⟩ | ⟨_, up⟩
    · simp [queue, Server.start] at split
    · exact V.queued w' srv up front m back split

/-- The garbage collector finds no use of `b`; a reference that was not claimed is queued. -/
def dropped (s : Cluster.State) (b : Backend) : Cluster.State :=
  { s with
    refs := s.refs.erase b
    tensorQueue := if s.taken.contains b.ref then s.tensorQueue else s.tensorQueue ++ [b.release] }

section
variable {b : Backend}

theorem refs_dropped : ∀ x ∈ (dropped s b).refs, x ∈ s.refs := fun _ mem => List.mem_of_mem_erase mem

theorem touched_dropped {w : Name} {h : Minted} (touched : Touched (dropped s b) B w h) :
    Touched s B w h ∨ w = b.worker ∧ h = b.handle := by
  rcases touched with ⟨r, mem, rfl, rfl⟩ | posted | may
  · simp only [dropped] at mem
    split at mem
    · exact Or.inl (Or.inl ⟨r, mem, rfl, rfl⟩)
    · rcases List.mem_append.mp mem with old | new
      · exact Or.inl (Or.inl ⟨r, old, rfl, rfl⟩)
      · rw [List.mem_singleton.mp new]
        exact Or.inr ⟨rfl, rfl⟩
  · exact Or.inl (Or.inr (Or.inl posted))
  · exact Or.inl (Or.inr (Or.inr may))

theorem safe_dropped (L : Ledger s B) (there : b ∈ s.refs) {w : Name} {h : Minted}
    (claimed : Live (dropped s b) w h ∨ Held B w h) :
    Resident (dropped s b) w h ∧ ¬ Touched (dropped s b) B w h := by
  have before : Live s w h ∨ Held B w h := by
    rcases claimed with ⟨x, mem, rest⟩ | held
    · exact Or.inl ⟨x, refs_dropped x mem, rest⟩
    · exact Or.inr held
  obtain ⟨here, free⟩ := L.safe w h before
  refine ⟨here, fun touched => ?_⟩
  rcases touched_dropped touched with touched | ⟨rfl, rfl⟩
  · exact free touched
  · rcases claimed with ⟨x, mem, _, worker, handle⟩ | ⟨c, mine⟩
    · have this := L.sameHandle x (refs_dropped x mem) b there worker handle
      exact L.refsNodup.not_mem_erase (this ▸ mem)
    · exact L.ownNoRef c b there mine

theorem ledger_dropped (L : Ledger s B) (there : b ∈ s.refs) : Ledger (dropped s b) B := by
  refine { L with
    refNumbers := fun x mem => L.refNumbers x (refs_dropped x mem)
    refsNodup := L.refsNodup.erase b
    sameRef := fun x mem y mem' => L.sameRef x (refs_dropped x mem) y (refs_dropped y mem')
    sameHandle := fun x mem y mem' => L.sameHandle x (refs_dropped x mem) y (refs_dropped y mem')
    refsOld := fun x mem => L.refsOld x (refs_dropped x mem)
    touchedOld := ?_
    ownNoRef := fun c x mem => L.ownNoRef c x (refs_dropped x mem)
    safe := fun w h claimed => safe_dropped L there claimed }
  intro w h touched
  rcases touched_dropped touched with before | ⟨rfl, rfl⟩
  · exact L.touchedOld w h before
  · exact L.refsOld b there

theorem accounted_dropped (A : Accounted s B) : Accounted (dropped s b) B := by
  intro w h here
  rcases A w h here with ⟨x, mem, free, rfl, rfl⟩ | held | ⟨r, mem, named⟩ | posted | owed
  · by_cases same : x = b
    · subst same
      refine Or.inr (Or.inr (Or.inl ⟨x.release, ?_, rfl, rfl⟩))
      rw [dropped, if_neg (by simpa using free)]
      exact List.mem_append_right _ List.mem_cons_self
    · exact Or.inl ⟨x, (List.mem_erase_of_ne same).mpr mem, free, rfl, rfl⟩
  · exact Or.inr (Or.inl held)
  · refine Or.inr (Or.inr (Or.inl ⟨r, ?_, named⟩))
    simp only [dropped]
    split
    · exact mem
    · exact List.mem_append_left _ mem
  · exact Or.inr (Or.inr (Or.inr (Or.inl posted)))
  · exact Or.inr (Or.inr (Or.inr (Or.inr owed)))

theorem inv_drop {W : Watch} {σ : State} (inv : Inv W σ B) (there : b ∈ σ.sys.refs)
    (kept : W.vowed → ∀ c, b ∈ σ.granted c → ¬ Names b.worker b.handle (σ.sys.clients c))
    (base : Generations.Inv truthful (dropped σ.sys b)) :
    ∃ B', Inv W { σ with sys := dropped σ.sys b } B' := by
  refine ⟨B, base, ledger_dropped inv.ledger there, ?_, inv.requests,
    fun watched => accounted_dropped (inv.accounted watched), ?_⟩
  · intro c
    rcases inv.going c with ⟨x, prog, none, claiming⟩ | sound
    · exact Or.inl ⟨x, prog, none, claiming.number, claiming.fresh, claiming.old,
        fun y mem => claiming.sameRef y (refs_dropped y mem),
        fun y mem => claiming.sameHandle y (refs_dropped y mem), claiming.free⟩
    · exact Or.inr sound
  · intro watched
    have V := inv.vowed watched
    refine ⟨?_, V.queued, V.lost⟩
    intro c x mem names
    obtain ⟨present, free⟩ := V.alive c x mem names
    refine ⟨(List.mem_erase_of_ne ?_).mpr present, free⟩
    rintro rfl
    exact kept watched c mem names

end

/-- The caller of a request that is answered with ids still waits for it, nobody gives up a call on
    which the release of a buffer depends, and no execute fails after it has registered an output. -/
def Orderly (s : State) : Label → Prop
  | .cluster (.crash _) => False
  | .cluster (.work w fault) => ∀ srv next m r, s.sys.workers w = some srv →
      srv.work fault = some (next, m, r) →
      handlesOf r ≠ [] → ∃ k, s.sys.clients m.caller = .await w m.ticket m.call k
  | .cluster (.abort c) => ∀ w t call k, s.sys.clients c = .await w t call k →
      building call = false ∧ ∀ w' h, Owes (Up s.sys) w' h (.await w t call k) →
      Owes (Up s.sys) w' h (k .error)
  | .cluster (.exit c) => ∀ w t call k, s.sys.clients c = .await w t call k →
      building call = false ∧ ∀ w' h, ¬ Owes (Up s.sys) w' h (.await w t call k)
  | .partialExecute _ k => k = 0
  | _ => True

/-- No reference that an operation was given is dropped or claimed as long as the operation is still
    to name its id in a request. -/
def Keeping (s : State) : Label → Prop
  | .cluster (.crash _) => False
  | .cluster (.drop b) => ∀ c, b ∈ s.granted c → ¬ Names b.worker b.handle (s.sys.clients c)
  | .cluster (.act c) => ∀ b k, s.sys.clients c = .take b k →
      ∀ c', b ∈ s.granted c' → ¬ Names b.worker b.handle (s.sys.clients c')
  | _ => True

structure Careful (W : Watch) (s : State) (a : Label) : Prop where
  calm : ∀ w, a ≠ .cluster (.crash w)
  orderly : W.accounted → Orderly s a
  keeping : W.vowed → Keeping s a

variable {W : Watch} {σ τ : State}

theorem unmet_nil (V : Vowed σ) (w : Name) : σ.unmet w = [] := by
  unfold State.unmet
  cases up : σ.sys.workers w with
  | none => rfl
  | some srv =>
    cases port : srv.port with
    | nil => simp only [port]
    | cons m rest =>
      simp only [port]
      rw [List.filter_eq_nil_iff]
      intro h mem
      have here := (V.queued w srv up [] m (rest ++ srv.mailbox) (by simp [queue, port]) h mem).2.1
      simpa using here

theorem inv_receive (inv : Inv W σ B) {w : Name} (base : Generations.Inv truthful t)
    (moved : Cluster.step σ.sys (.receive w) = some t) : ∃ B', Inv W { σ with sys := t } B' := by
  obtain ⟨srv, up, rest⟩ := Option.bind_eq_some_iff.mp moved
  obtain ⟨⟨next, answer⟩, handled, shape⟩ := Option.map_eq_some_iff.mp rest
  obtain ⟨served, exact⟩ := served_handleCall handled
  have eq : t = serve σ.sys w next answer σ.sys.events := by
    subst shape
    cases answer with
    | none => rfl
    | some reply =>
      have same : ((σ.sys.setWorker w (some next)).deliver w reply.1 reply.2).events = σ.sys.events :=
        Generations.deliver_events
      simp only [serve, ← same]
  subst eq
  refine inv_serve inv up served (fun _ => exact) ?_ base fun watched => (inv.vowed watched).lost
  intro _ m r answered some
  exact absurd (handleCall_bare (answered ▸ handled)) some

theorem inv_work (inv : Inv W σ B) {w : Name} {fault : Bool}
    (orderly : W.accounted → Orderly σ (.cluster (.work w fault))) (base : Generations.Inv truthful t)
    (moved : Cluster.step σ.sys (.work w fault) = some t) :
    ∃ B', Inv W { σ with sys := t, lost := σ.lost ++ σ.unmet w } B' := by
  obtain ⟨srv, up, rest⟩ := Option.bind_eq_some_iff.mp moved
  obtain ⟨⟨next, m, r⟩, handled, rfl⟩ := Option.map_eq_some_iff.mp rest
  obtain ⟨served, exact⟩ := served_work (inv.requests w srv up) handled
  refine inv_serve inv up served (fun _ => exact) ?_ base fun watched => ?_
  · rintro watched m' r' ⟨⟩ some
    exact orderly watched srv next m r up handled some
  rw [(inv.vowed watched).lost, unmet_nil (inv.vowed watched)]
  rfl

theorem inv_partial (inv : Inv W σ B) {w : Name} {k : Nat} (clean : W.accounted → k = 0)
    (moved : step σ (.partialExecute w k) = some τ) : ∃ B', Inv W τ B' := by
  obtain ⟨srv, up, rest⟩ := Option.bind_eq_some_iff.mp moved
  obtain ⟨⟨next, m⟩, failed, rfl⟩ := Option.map_eq_some_iff.mp rest
  obtain ⟨served, exact⟩ := served_fail failed
  have pending : m ∈ srv.pending := (served.served m .error rfl).1
  have relied := inv.base.posted w srv up m pending
  have later : Continues srv next := by
    have same : next.proc.execRegistry = srv.proc.execRegistry := by
      unfold failExecute at failed
      split at failed
      · cases failed
      · split at failed
        · split at failed
          · cases failed
            rfl
          · cases failed
        · cases failed
    exact ⟨served.generation, Nat.le_of_eq (by rw [same]), fun e mem => Or.inl (by rwa [same] at mem)⟩
  have calm := Generations.inv_setWorker inv.base up later fun x mem =>
    (served_pending served).mpr (Or.inr mem)
  have delivered := Generations.inv_deliver calm (by simp [State.setWorker]) (r := .error) trivial
    (fun f need => Generations.holds_continues later (relied f need))
    (inv.base.tickets w srv up m pending).2
  have base : Generations.Inv truthful (serve σ.sys w next (some (m, .error))
      (⟨srv.generation, m.call, ranGraph srv m.call⟩ :: σ.sys.events)) :=
    { delivered with
      events := List.forall_mem_cons.mpr ⟨Generations.bornOut_of_relied relied, inv.base.events⟩ }
  refine inv_serve inv up served (fun watched => exact (clean watched)) ?_ base fun watched => ?_
  · rintro watched m' r' ⟨⟩ some
    exact absurd rfl some
  rw [(inv.vowed watched).lost, unmet_nil (inv.vowed watched)]
  rfl

theorem inv_act (inv : Inv W σ B) {c : Nat} (keeping : W.vowed → Keeping σ (.cluster (.act c)))
    (base : Generations.Inv truthful t) (moved : σ.sys.act c = some t) :
      ∃ B', Inv W { σ with sys := t } B' := by
  have going := inv.going c
  unfold State.act at moved
  cases prog : σ.sys.clients c with
  | newRef w g h k =>
    simp only [prog, Option.some.injEq] at moved
    subst moved
    exact inv_newRef inv prog ⟨rfl, rfl, rfl, rfl, rfl⟩ rfl base
  | newExecutable w g e k =>
    simp only [prog, Option.some.injEq] at moved
    subst moved
    have sound := going_sound going (by rw [prog]; nofun)
    rw [prog] at sound
    refine inv_progress inv ⟨rfl, rfl, rfl, rfl, rfl⟩ rfl base sound ?_ ?_
    · exact fun w h _ owes => by rwa [prog] at owes
    · exact fun w h names => by rwa [prog]
  | take b k =>
    simp only [prog, Option.some.injEq] at moved
    subst moved
    rcases going with ⟨b', same, none, claiming⟩ | sound
    · rw [prog] at same
      obtain ⟨rfl, rfl⟩ := Prog.take.inj same
      exact inv_take inv prog none claiming (fun watched => keeping watched b _ prog) base
    · rw [prog] at sound
      exact sound.elim
  | lookup key g k =>
    simp only [prog, Option.some.injEq] at moved
    subst moved
    have sound := going_sound going (by rw [prog]; nofun)
    rw [prog] at sound
    refine inv_progress inv ⟨rfl, rfl, rfl, rfl, rfl⟩ rfl base (sound _) ?_ ?_
    · intro w h _ owes
      rw [prog] at owes
      exact owes _
    · exact fun w h names => by rw [prog]; exact ⟨_, names⟩
  | put key entry k =>
    simp only [prog, Option.some.injEq] at moved
    subst moved
    have sound := going_sound going (by rw [prog]; nofun)
    rw [prog] at sound
    refine inv_progress inv ⟨rfl, rfl, rfl, rfl, rfl⟩ rfl base sound ?_ ?_
    · exact fun w h _ owes => by rwa [prog] at owes
    · exact fun w h names => by rwa [prog]
  | close ctx k =>
    simp only [prog, Option.some.injEq] at moved
    subst moved
    have sound := going_sound going (by rw [prog]; nofun)
    rw [prog] at sound
    refine inv_progress inv ⟨rfl, rfl, rfl, rfl, rfl⟩ rfl base sound ?_ ?_
    · exact fun w h _ owes => by rwa [prog] at owes
    · exact fun w h names => by rwa [prog]
  | whereis w k =>
    simp only [prog, Option.some.injEq] at moved
    subst moved
    have sound := going_sound going (by rw [prog]; nofun)
    rw [prog] at sound
    refine inv_progress inv ⟨rfl, rfl, rfl, rfl, rfl⟩ rfl base (sound _) ?_ ?_
    · intro w' h here owes
      rw [prog] at owes
      cases up : (σ.sys.workers w).isSome with
      | true => exact owes.1
      | false =>
        -- the worker of a resident buffer runs
        apply owes.2
        rintro rfl
        have running : (σ.sys.workers w).isSome = true := old_up (old_resident inv.ledger here)
        rw [up] at running
        cases running
    · exact fun w h names => by rw [prog]; exact ⟨_, names⟩
  | done | raise error | call w call k | await w ticket call k => simp [prog] at moved

theorem inv_send (inv : Inv W σ B) {c : Nat} (base : Generations.Inv truthful t)
    (moved : σ.sys.send c = some t) :
    ∃ B', Inv W { σ with
      sys := t, promised := Function.update σ.promised σ.sys.ticket (σ.promise c) } B' := by
  unfold State.send at moved
  cases prog : σ.sys.clients c with
  | call w call k =>
    simp only [prog] at moved
    cases up : σ.sys.workers w with
    | none =>
      simp only [up, Option.some.injEq] at moved
      subst moved
      have sound := going_sound (inv.going c) fun b k same => by cases prog.symm.trans same
      rw [prog] at sound
      have alike : Alike σ.sys (σ.sys.setClient c (.raise .exit)) := ⟨rfl, rfl, rfl, rfl, rfl⟩
      refine inv_give_up inv alike rfl base rfl ?_ ?_ ?_ ?_
      · intro _
        cases hands : B.own c with
        | nil => rfl
        | cons p rest =>
          have mine : p ∈ B.own c := by simp [hands]
          have here : p.1 = w := sound.2.1 p mine
          obtain ⟨⟨srv, running, _⟩, _⟩ := inv.ledger.safe p.1 p.2 (Or.inr ⟨c, mine⟩)
          rw [here, up] at running
          cases running
      · intro _ w' h owes
        rw [prog] at owes
        have running : (σ.sys.workers w).isSome = true := owes.1
        rw [up] at running
        cases running
      · exact fun w' h names => names.elim
      · exact fun i old => Function.update_of_ne (Nat.ne_of_lt old) ..
    | some srv =>
      simp only [up, Option.some.injEq] at moved
      subst moved
      exact inv_post inv prog up base
  | done | raise error | await w ticket call k | newRef w g h k | newExecutable w g e k | take b k
  | lookup key g k | put key entry k | close ctx k | whereis w k => simp [prog] at moved

theorem inv_step {a : Label} (inv : Inv W σ B) (careful : Careful W σ a) (moved : step σ a = some τ) :
    ∃ B', Inv W τ B' := by
  cases a with
  | partialExecute w k => exact inv_partial inv careful.orderly moved
  | cluster a =>
    obtain ⟨t, stepped, rfl⟩ := Option.map_eq_some_iff.mp moved
    have base : Generations.Inv truthful t := by
      refine Generations.inv_step id inv.base ?_ stepped
      cases a with
      | crash w => exact absurd rfl (careful.calm w)
      | _ => trivial
    cases a with
    | start c op =>
      simp only [Cluster.step, Option.ite_none_right_eq_some, Option.some.injEq,
        Bool.and_eq_true] at stepped
      obtain ⟨⟨still, available⟩, rfl⟩ := stepped
      obtain ⟨uses, _⟩ : (∀ b ∈ op.uses, b ∈ σ.sys.refs) ∧ ∀ ctx, op.pin = some ctx →
          ctx ∈ σ.sys.closures := by
        simpa [Op.available, Option.all_eq_true] using available
      exact inv_start inv still uses base
    | finish c =>
      simp only [Cluster.step, Option.ite_none_right_eq_some, Option.some.injEq] at stepped
      obtain ⟨still, rfl⟩ := stepped
      have empty := idle_own (inv.going c) still
      refine inv_progress inv ⟨rfl, rfl, rfl, rfl, rfl⟩ rfl base (by rw [empty]; rfl) ?_ ?_
      · exact fun w h _ owes => absurd owes (idle_owes still)
      · exact fun w h names => names.elim
    | send c => exact inv_send inv base stepped
    | act c => exact inv_act inv careful.keeping base stepped
    | abort c =>
      simp only [Cluster.step] at stepped
      split at stepped
      · rename_i w ticket call k prog
        cases stepped
        have sound := going_sound (inv.going c) fun b k same => by cases prog.symm.trans same
        rw [prog] at sound
        have orderly : W.accounted → _ := fun watched => careful.orderly watched w ticket call k prog
        have alike : Alike σ.sys (σ.sys.setClient c (k .error)) := ⟨rfl, rfl, rfl, rfl, rfl⟩
        refine inv_give_up inv alike rfl base sound.2.1 ?_ ?_ ?_ (fun _ _ => rfl)
        · exact fun watched => sound.1 (orderly watched).1
        · intro watched w' h owes
          rw [prog] at owes
          exact (orderly watched).2 w' h owes
        · intro w' h names
          rw [prog]
          exact ⟨.error, names⟩
      · cases stepped
    | exit c =>
      simp only [Cluster.step] at stepped
      split at stepped
      · rename_i w ticket call k prog
        cases stepped
        have sound := going_sound (inv.going c) fun b k same => by cases prog.symm.trans same
        rw [prog] at sound
        have orderly : W.accounted → _ := fun watched => careful.orderly watched w ticket call k prog
        have alike : Alike σ.sys (σ.sys.setClient c (.raise .exit)) := ⟨rfl, rfl, rfl, rfl, rfl⟩
        refine inv_give_up inv alike rfl base rfl ?_ ?_ ?_ (fun _ _ => rfl)
        · exact fun watched => sound.1 (orderly watched).1
        · intro watched w' h owes
          rw [prog] at owes
          exact absurd owes ((orderly watched).2 w' h)
        · exact fun w' h names => names.elim
      · cases stepped
    | receive w => exact inv_receive inv base stepped
    | work w fault => exact inv_work inv careful.orderly base stepped
    | crash w => exact absurd rfl (careful.calm w)
    | restart w =>
      simp only [Cluster.step] at stepped
      split at stepped
      · rename_i down
        cases stepped
        exact inv_restart inv down base
      · cases stepped
    | drop b =>
      simp only [Cluster.step, Option.ite_none_right_eq_some, Option.some.injEq] at stepped
      obtain ⟨live, rfl⟩ := stepped
      exact inv_drop inv (by simpa using live) careful.keeping base
    | dropExecutable r =>
      simp only [Cluster.step, Option.ite_none_right_eq_some, Option.some.injEq] at stepped
      obtain ⟨_, rfl⟩ := stepped
      exact inv_still inv ⟨rfl, rfl, rfl, rfl, rfl⟩ rfl base
    | forget ctx =>
      simp only [Cluster.step, Option.ite_none_right_eq_some, Option.some.injEq] at stepped
      obtain ⟨_, rfl⟩ := stepped
      exact inv_still inv ⟨rfl, rfl, rfl, rfl, rfl⟩ rfl base
    | evict key =>
      simp only [Cluster.step, Option.some.injEq] at stepped
      subst stepped
      exact inv_still inv ⟨rfl, rfl, rfl, rfl, rfl⟩ rfl base

theorem inv_init : Inv W init ⟨fun _ => [], fun _ _ _ => False⟩ := by
  have bare : ∀ w h, ¬ Touched Cluster.init ⟨fun _ => [], fun _ _ _ => False⟩ w h := by
    rintro w h (⟨r, mem, _⟩ | ⟨srv, up, _⟩ | ⟨c, no⟩)
    · cases mem
    · cases up
    · exact no
  refine ⟨Generations.inv_init, ?_, fun c => Or.inr rfl, nofun, ?_, ?_⟩
  · constructor
    case touchedOld => exact fun w h touched => absurd touched (bare w h)
    case ownNodup => exact fun c => List.nodup_nil
    case refsNodup => exact List.nodup_nil
    case safe =>
      rintro w h (⟨b, mem, _⟩ | ⟨c, mem⟩)
      · cases mem
      · cases mem
    all_goals nofun
  · rintro _ w h ⟨srv, up, _⟩
    cases up
  · exact fun _ => ⟨nofun, nofun, rfl⟩

theorem inv_run {ok : State → Label → Prop} (careful : ∀ s a, ok s a → Careful W s a) {s : State}
    (run : Runs.Run step ok init s) : ∃ B, Inv W s B := by
  refine Runs.run_invariant (fun s => ∃ B, Inv W s B) run ⟨_, inv_init⟩ ?_
  rintro s a t ⟨B, inv⟩ guard moved
  exact inv_step inv (careful s a guard) moved

/-- No operation is under way, no request is with a worker, and the release queue is empty. -/
structure Quiet (s : Cluster.State) : Prop where
  clients : ∀ c, idle (s.clients c) = true
  pending : ∀ w srv, s.workers w = some srv → srv.pending = []
  tensorQueue : s.tensorQueue = []

def crashes : Label → Bool
  | .cluster (.crash _) => true
  | _ => false

def calm (_ : State) (a : Label) : Prop := crashes a = false

theorem live_of_quiet {s : Cluster.State} (quiet : Quiet s) (A : Accounted s B)
    (going : ∀ c, Going s B c (s.clients c)) {w : Name} {h : Minted} (here : Resident s w h) :
      Live s w h := by
  rcases A w h here with live | ⟨c, held⟩ | ⟨r, mem, _⟩ | ⟨srv, up, m, mem, _⟩ | ⟨c, owed⟩
  · exact live
  · rw [idle_own (going c) (quiet.clients c)] at held
    cases held
  · rw [quiet.tensorQueue] at mem
    cases mem
  · rw [quiet.pending w srv up] at mem
    cases mem
  · exact absurd owed (idle_owes (quiet.clients c))

theorem no_orphan {s : State} (run : Runs.Run step Orderly init s) (quiet : Quiet s.sys) (w : Name)
    (h : Minted) : Resident s.sys w h ↔ Live s.sys w h := by
  have careful : ∀ s a, Orderly s a → Careful ⟨True, False⟩ s a := by
    refine fun s a orderly => ⟨?_, fun _ => orderly, False.elim⟩
    rintro w rfl
    exact orderly
  obtain ⟨B, inv⟩ := inv_run careful run
  constructor
  · exact live_of_quiet quiet (inv.accounted trivial) inv.going
  · exact fun live => (inv.ledger.safe w h (Or.inl live)).1

/-- The request at the head of the port of `w` is one that its caller still waits for. -/
def heard (s : State) (w : Name) : Bool :=
  match s.sys.workers w with
  | none => true
  | some srv => match srv.port with
    | [] => true
    | m :: _ => match s.sys.clients m.caller with
      | .await w' t call _ => decide (w' = w ∧ t = m.ticket ∧ call = m.call)
      | _ => false

def tidy (s : State) : Label → Bool
  | .cluster (.work w _) => heard s w
  | .cluster (.crash _) | .cluster (.abort _) | .cluster (.exit _) | .partialExecute _ _ => false
  | _ => true

theorem orderly_of_tidy {s : State} {a : Label} (passed : tidy s a = true) : Orderly s a := by
  cases a with
  | partialExecute w k => cases passed
  | cluster a =>
    cases a with
    | work w fault =>
      intro srv next m r up handled _
      unfold Server.work at handled
      cases port : srv.port with
      | nil => simp [port] at handled
      | cons x rest =>
        simp only [port, Option.some.injEq, Prod.mk.injEq] at handled
        obtain ⟨_, rfl, _⟩ := handled
        simp only [tidy, heard, up, port] at passed
        split at passed
        · simp only [decide_eq_true_eq] at passed
          obtain ⟨rfl, rfl, rfl⟩ := passed
          exact ⟨_, by assumption⟩
        · cases passed
    | crash w | abort c | exit c => cases passed
    | _ => trivial

def uploadAndDrop : List Label :=
  [.restart 0, .start 0 (.fromBinary 0), .send 0, .receive 0, .work 0 false, .send 0,
    .receive 0, .act 0,
    .start 0 (.fromBinary 0), .send 0, .receive 0, .work 0 false, .send 0, .receive 0, .act 0,
    .drop ⟨0, 0, 1, ⟨1, 1⟩⟩, .start 1 .drain, .act 1, .send 1, .receive 0, .send 1, .receive 0,
    .work 0 false].map .cluster

theorem second_upload_stays : ∃ t : State, (∀ w h, Resident t.sys w h ↔ Live t.sys w h) ∧
    Resident t.sys 0 ⟨2, 1⟩ ∧ ¬ Resident t.sys 0 ⟨1, 1⟩ := by
  have ends : (Runs.follow (fun s a => if tidy s a then step s a
    else none) init uploadAndDrop).isSome = true := by
    decide
  obtain ⟨t, done⟩ := Option.isSome_iff_exists.mp ends
  have run : Runs.Run step Orderly init t := Runs.run_of_test (fun _ _ => orderly_of_tidy) done
  cases done
  refine ⟨_, no_orphan run ⟨?_, ?_, rfl⟩, ⟨_, rfl, rfl, by decide⟩, ?_⟩
  · rintro (_ | _ | c) <;> rfl
  · rintro (_ | w) srv up
    · cases up
      rfl
    · cases up
  · rintro ⟨srv, up, _, mem⟩
    cases up
    revert mem
    decide

def lateUpload : List Label :=
  [.restart 0, .start 0 (.fromBinary 0), .send 0, .receive 0, .abort 0, .work 0 false].map .cluster

theorem late_reply_orphans : ¬ ∀ t, Runs.Run step calm init t → Quiet t.sys →
    ∀ w h, Resident t.sys w h ↔ Live t.sys w h := by
  intro claim
  have ends : (Runs.follow step init lateUpload).isSome = true := by decide
  obtain ⟨t, done⟩ := Option.isSome_iff_exists.mp ends
  have run : Runs.Run step calm init t :=
    Runs.guarded_of_follow (fun a mem _ => (by decide : ∀ a ∈ lateUpload, crashes a = false) a mem) done
  cases done
  refine absurd ((claim _ run ⟨?_, ?_, rfl⟩ 0 ⟨1, 1⟩).mp ⟨_, rfl, rfl, by decide⟩) ?_
  · rintro (_ | c) <;> rfl
  · rintro (_ | w) srv up
    · cases up
      rfl
    · cases up
  · rintro ⟨b, mem, _⟩
    cases mem

/-! No handle is released before the request that names it. -/

theorem promises_kept {s : State} (run : Runs.Run step Keeping init s) : s.lost = [] := by
  have careful : ∀ s a, Keeping s a → Careful ⟨False, True⟩ s a := by
    refine fun s a keeping => ⟨?_, False.elim, fun _ => keeping⟩
    rintro w rfl
    exact keeping
  obtain ⟨B, inv⟩ := inv_run careful run
  exact (inv.vowed trivial).lost

def hoarding (s : State) : Label → Bool
  | .cluster (.crash _) | .cluster (.drop _) => false
  | .cluster (.act c) => match s.sys.clients c with
    | .take _ _ => false
    | _ => true
  | _ => true

theorem keeping_of_hoarding {s : State} {a : Label} (passed : hoarding s a = true) : Keeping s a := by
  cases a with
  | partialExecute w k => trivial
  | cluster a =>
    cases a with
    | act c =>
      intro b k prog
      simp [hoarding, prog] at passed
    | crash w | drop b => cases passed
    | _ => trivial

def uploaded : Backend := ⟨0, 0, 1, ⟨1, 1⟩⟩

def addition : List Label :=
  [.restart 0, .start 0 (.fromBinary 0), .send 0, .receive 0, .work 0 false, .send 0,
    .receive 0, .act 0,
    .start 0 (.eager [.backend uploaded, .backend uploaded] 0), .send 0, .receive 0,
    .send 0, .receive 0, .send 0].map .cluster

def reaping : List Label :=
  [.start 1 .drain, .act 1, .send 1, .receive 0, .receive 0, .send 1, .receive 0, .work 0 false,
    .work 0 false].map .cluster

theorem addition_finds_operands : ∃ t : State, t.lost = [] ∧
    (t.sys.events.take 2).map (·.call) = [.release [⟨1, 1⟩], .runNode [⟨1, 1⟩, ⟨1, 1⟩]] ∧
    t.promised 4 = [⟨1, 1⟩, ⟨1, 1⟩] := by
  let test (s : State) (a : Label) : Option State := if hoarding s a then step s a else none
  have ends : ((Runs.follow test init addition).bind fun s =>
      (step s (.cluster (.drop uploaded))).bind fun u => Runs.follow test u reaping).map
        (fun t => ((t.sys.events.take 2).map (·.call), t.promised 4)) =
      some ([.release [⟨1, 1⟩], .runNode [⟨1, 1⟩, ⟨1, 1⟩]], [⟨1, 1⟩, ⟨1, 1⟩]) := by
    decide
  obtain ⟨t, done, same⟩ := Option.map_eq_some_iff.mp ends
  obtain ⟨s, sent, done⟩ := Option.bind_eq_some_iff.mp done
  obtain ⟨u, dropped, done⟩ := Option.bind_eq_some_iff.mp done
  have keeping : Keeping s (.cluster (.drop uploaded)) := by
    cases sent
    rintro (_ | c) granted names
    · -- what is left to do is to build the result
      obtain ⟨r, names⟩ := names
      cases r with
      | id h =>
        rcases names with ⟨_, mem⟩ | ⟨r, names⟩
        · cases mem
        · cases r <;> cases names
      | _ => cases names
    · cases granted
  have before : Runs.Run step Keeping init s := Runs.run_of_test (fun _ _ => keeping_of_hoarding) sent
  have after : Runs.Run step Keeping u t := Runs.run_of_test (fun _ _ => keeping_of_hoarding) done
  obtain ⟨handled, promised⟩ := Prod.mk.inj same
  exact ⟨t, promises_kept (Runs.run_trans (.next before keeping dropped) after), handled, promised⟩

/-- While `eager` checks its second operand the first is collected, and the reaper drains the queue. -/
def collectedOperand : List Label :=
  [.restart 0, .start 0 (.fromBinary 0), .send 0, .receive 0, .work 0 false, .send 0,
    .receive 0, .act 0,
    .start 0 (.fromBinary 0), .send 0, .receive 0, .work 0 false, .send 0, .receive 0, .act 0,
    .start 0 (.eager [.backend ⟨0, 0, 1, ⟨1, 1⟩⟩, .backend ⟨1, 0, 1, ⟨2, 1⟩⟩] 0), .send 0, .receive 0,
    .drop ⟨0, 0, 1, ⟨1, 1⟩⟩, .start 1 .drain, .act 1, .send 1, .receive 0, .send 1, .receive 0,
    .work 0 false, .send 0, .receive 0, .send 0, .receive 0, .work 0 false].map .cluster

theorem collected_operand_lost : ¬ ∀ t, Runs.Run step calm init t → t.lost = [] := by
  intro claim
  have ends : (Runs.follow step init collectedOperand).map (·.lost) = some [⟨1, 1⟩] := by decide
  obtain ⟨t, done, lost⟩ := Option.map_eq_some_iff.mp ends
  have run : Runs.Run step calm init t :=
    Runs.guarded_of_follow (fun a mem _ =>
      (by decide : ∀ a ∈ collectedOperand, crashes a = false) a mem) done
  have none := claim t run
  rw [none] at lost
  cases lost

end NxTinygrad.Custody
