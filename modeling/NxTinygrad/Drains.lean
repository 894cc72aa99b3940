import NxTinygrad.Custody

/- A drain of the release queues. It empties both before it looks at a worker, so what is
   left of the entries is up to the program that has them, and to the workers it calls. -/
namespace NxTinygrad.Drains
open Worker Client Cluster Handles

/-- What an entry of a release queue is to bring about: one request, to the process the entry is of. -/
structure Duty where
  worker : Name
  generation : Gen
  asks : Call → Prop
  request : ∀ c, asks c → isRequest c = true

def executableReleases : Call → List Executable
  | .releaseExecutable es => es
  | _ => []

def tensorDuty (r : Release Minted) : Duty where
  worker := r.worker
  generation := r.generation
  asks c := r.handle ∈ releases c
  request c := by cases c <;> simp [releases, isRequest]

def executableDuty (r : Release Executable) : Duty where
  worker := r.worker
  generation := r.generation
  asks c := r.handle ∈ executableReleases c
  request c := by cases c <;> simp [executableReleases, isRequest]

def duties (s : State) : List Duty :=
  s.tensorQueue.map tensorDuty ++ s.executableQueue.map executableDuty

def Alive (s : State) (d : Duty) : Prop := generationOf s d.worker = some d.generation

def Requested (s : State) (d : Duty) : Prop :=
  (∃ srv, s.workers d.worker = some srv ∧ srv.generation = d.generation ∧ ∃ m ∈ srv.pending,
    d.asks m.call) ∨
  ∃ e ∈ s.events, e.generation = d.generation ∧ d.asks e.call

/-- No release is lost between `s`, in which a drain starts, and `t`. -/
def NoneLost (s t : State) : Prop :=
  (∀ r ∈ s.tensorQueue, Alive s (tensorDuty r) → Alive t (tensorDuty r) →
    Requested t (tensorDuty r) ∨ r ∈ t.tensorQueue) ∧
  (∀ r ∈ s.executableQueue, Alive s (executableDuty r) → Alive t (executableDuty r) →
    Requested t (executableDuty r) ∨ r ∈ t.executableQueue)

/-- A reachable state, with anything at all in the release queues. -/
def Reached (s : State) : Prop :=
  ∃ s₀ tensors executables, Runs.Run step Runs.anyStep init s₀ ∧
    s = { s₀ with tensorQueue := tensors, executableQueue := executables }

/-- A reply that process `d.generation` may give when it is the one asked, and any reply of another. -/
def Fits (d : Duty) (w : Name) : Call → Reply → Prop
  | .generation _, r => ∃ g, r = .generation g ∧ (w = d.worker → g = d.generation)
  | _, _ => True

/-- The program sends the request of `d` unless a call of it exits or the process of `d` is gone. -/
def Owed (d : Duty) : Prog → Prop
  | .call w c k => (w = d.worker ∧ d.asks c) ∨ ∀ r, Fits d w c r → Owed d (k r)
  | .await w _ c k => ∀ r, Fits d w c r → Owed d (k r)
  | .whereis w k => Owed d (k true) ∧ (w ≠ d.worker → Owed d (k false))
  | _ => False

theorem owed_generation {d : Duty} {w : Name} {why : Purpose} {k : Gen → Prog}
    (cont : ∀ g, (w = d.worker → g = d.generation) → Owed d (k g)) : Owed d (generation w why k) := by
  refine Or.inr ?_
  rintro r ⟨g, rfl, same⟩
  exact cont g same

theorem owed_past {α : Type} {d : Duty} {command : List α → Call}
    {entries : List (Release α)} {k : Prog}
    (rest : Owed d k) (names : List Name) : Owed d (releaseGroups command entries k names) := by
  induction names with
  | nil => exact rest
  | cons w names ih =>
    refine ⟨?_, fun _ => ih⟩
    apply owed_generation
    intro g _
    dsimp only
    split
    · exact Or.inr fun _ _ => ih
    · exact ih

theorem owed_group {α : Type} {d : Duty} {command : List α → Call}
    {entries : List (Release α)} {k : Prog}
    {r : Release α} (mem : r ∈ entries) (worker : r.worker = d.worker)
    (gen : r.generation = d.generation)
    (asks : ∀ hs, r.handle ∈ hs → d.asks (command hs)) {names : List Name} (here : d.worker ∈ names) :
    Owed d (releaseGroups command entries k names) := by
  induction names with
  | nil => simp at here
  | cons w rest ih =>
    have later : w ≠ d.worker → Owed d (releaseGroups command entries k rest) := by
      intro other
      exact ih (by simpa [other.symm] using here)
    refine ⟨?_, later⟩
    apply owed_generation
    intro g current
    dsimp only
    by_cases mine : w = d.worker
    · have kept : r.handle ∈ ((entries.filter fun x => x.worker = w).filter
          fun x => x.generation = g).map (·.handle) := by
        apply List.mem_map_of_mem
        simp only [List.mem_filter, decide_eq_true_eq]
        exact ⟨⟨mem, worker.trans mine.symm⟩, gen.trans (current mine).symm⟩
      rw [if_pos (List.ne_nil_of_mem kept)]
      exact Or.inl ⟨mine, asks _ kept⟩
    · split
      · exact Or.inr fun _ _ => later mine
      · exact later mine

theorem owed_drain {s : State} {d : Duty} (mem : d ∈ duties s) :
    Owed d (drain s.tensorQueue s.executableQueue) := by
  have named : ∀ {α : Type} {entries : List (Release α)} {r : Release α}, r ∈ entries →
      r.worker ∈ workerNames entries := fun here => List.mem_dedup.mpr (List.mem_map_of_mem here)
  rcases List.mem_append.mp mem with tensor | executable
  · obtain ⟨r, here, rfl⟩ := List.mem_map.mp tensor
    exact owed_group here rfl rfl (fun _ inside => inside) (named here)
  · obtain ⟨r, here, rfl⟩ := List.mem_map.mp executable
    exact owed_past (owed_group here rfl rfl (fun _ inside => inside) (named here)) _

/-- The step makes a call of client `c` exit. Only a request can be failed with an error instead. -/
def exits (s : State) (c : Nat) : Label → Bool
  | .exit c' => c' = c
  | .abort c' => c' = c && match s.clients c with
      | .await _ _ call _ => !isRequest call
      | _ => false
  | .send c' => c' = c && match s.clients c with
      | .call w _ _ => (s.workers w).isNone
      | _ => false
  | _ => false

/-- The condition on the steps after `s`: no call of `c` exits while the program has a request still to send
    to a process that is there to take it. -/
def Answering (s : State) (c : Nat) (now : State) (a : Label) : Prop :=
  exits now c a = true → ∀ d ∈ duties s, Alive now d → ¬ Owed d (now.clients c)

inductive Became (s t : State) (w : Name) (next : Server) : Prop where
  | stayed (up : s.workers w = some next)
  | posted (srv : Server) (m : Message) (up : s.workers w = some srv)
      (eq : next = { srv with mailbox := srv.mailbox ++ [m] })
  | received (srv : Server) (answer : Option (Message × Reply)) (up : s.workers w = some srv)
      (moved : srv.handleCall = some (next, answer))
  | worked (srv : Server) (fault : Bool) (m : Message) (r : Reply) (up : s.workers w = some srv)
      (moved : srv.work fault = some (next, m, r))
      (logged : ∃ e ∈ t.events, e.generation = srv.generation ∧ e.call = m.call)
  | started (eq : next = .start (s.counter + 1))

inductive Went (s t : State) (c : Nat) (a : Label) : Prop where
  | stayed (same : t.clients c = s.clients c)
  | rested (still : idle (s.clients c) = true)
  | acted (moved : s.act c = some t)
  | posted (w : Name) (call : Call) (k : Reply → Prog) (prog : s.clients c = .call w call k)
      (waits : t.clients c = .await w s.ticket call k) (srv : Server) (up : t.workers w = some srv)
      (there : ∃ m ∈ srv.pending, m.call = call)
  | answered (w : Name) (ticket : Nat) (call : Call) (k : Reply → Prog) (r : Reply)
      (prog : s.clients c = .await w ticket call k) (went : t.clients c = k r)
      (fits : ∀ d, Alive s d → Fits d w call r)
  | exited (out : exits s c a = true)

variable {s t : State} {a : Label} {c : Nat} {d : Duty}

theorem act_frame (moved : s.act c = some t) :
    t.workers = s.workers ∧ t.events = s.events ∧ t.counter = s.counter ∧
      ∀ c', c' ≠ c → t.clients c' = s.clients c' := by
  unfold State.act at moved
  split at moved
  all_goals first
    | cases moved
      exact ⟨rfl, rfl, rfl, fun c' other => Function.update_of_ne other _ _⟩
    | cases moved

theorem handleCall_cases {srv next : Server} {answer : Option (Message × Reply)}
    (handled : srv.handleCall = some (next, answer)) : ∃ m rest, srv.mailbox = m :: rest ∧
      next.generation = srv.generation ∧ next.mailbox = rest ∧
      ((isRequest m.call = true ∧ answer = none ∧ next.port = srv.port ++ [m]) ∨
        (isRequest m.call = false ∧ next.port = srv.port ∧ ∃ r, answer = some (m, r) ∧
          ∀ why, m.call = .generation why → r = .generation srv.generation)) := by
  unfold Server.handleCall at handled
  cases box : srv.mailbox with
  | nil => simp [box] at handled
  | cons m rest =>
    refine ⟨m, rest, rfl, ?_⟩
    simp only [box] at handled
    cases call : m.call with
    | generation why =>
      simp only [call, Option.some.injEq, Prod.mk.injEq] at handled
      obtain ⟨rfl, rfl⟩ := handled
      exact ⟨rfl, rfl, Or.inr ⟨rfl, rfl, _, rfl, fun _ _ => rfl⟩⟩
    | info =>
      simp only [call, Option.some.injEq, Prod.mk.injEq] at handled
      obtain ⟨rfl, rfl⟩ := handled
      exact ⟨rfl, rfl, Or.inr ⟨rfl, rfl, _, rfl, nofun⟩⟩
    | _ =>
      simp only [call, Option.some.injEq, Prod.mk.injEq] at handled
      obtain ⟨rfl, rfl⟩ := handled
      exact ⟨rfl, rfl, Or.inl ⟨rfl, rfl, rfl⟩⟩

theorem deliver_frame (s : State) (w : Name) (m : Message) (r : Reply) :
    (s.deliver w m r).workers = s.workers ∧ (s.deliver w m r).events = s.events ∧
      (s.deliver w m r).counter = s.counter := by
  rcases Custody.deliver_cases s w m r with ⟨call, k, _, eq⟩ | ⟨_, eq⟩
  all_goals
    rw [eq]
    exact ⟨rfl, rfl, rfl⟩

theorem send_worker_changes (moved : s.send c = some t) {w : Name} {next : Server}
    (up : t.workers w = some next) :
    Became s t w next := by
  unfold State.send at moved
  cases prog : s.clients c with
  | call w' call k =>
    simp only [prog] at moved
    cases there : s.workers w' with
    | none =>
      simp only [there, Option.some.injEq] at moved
      subst moved
      exact .stayed up
    | some srv =>
      simp only [there, Option.some.injEq] at moved
      subst moved
      rcases Generations.update_some up with ⟨rfl, rfl⟩ | ⟨_, old⟩
      · exact .posted srv _ there rfl
      · exact .stayed old
  | _ => simp [prog] at moved

theorem worker_changes (moved : step s a = some t) {w : Name} {next : Server} (up : t.workers w = some next) :
    Became s t w next := by
  cases a with
  | send c => exact send_worker_changes moved up
  | act c => exact .stayed ((act_frame moved).1 ▸ up)
  | abort c | exit c =>
    simp only [step] at moved
    split at moved
    · cases moved
      exact .stayed up
    · cases moved
  | receive w' =>
    obtain ⟨srv, there, rest⟩ := Option.bind_eq_some_iff.mp moved
    obtain ⟨⟨after, answer⟩, handled, rfl⟩ := Option.map_eq_some_iff.mp rest
    have workers : Function.update s.workers w' (some after) w = some next := by
      cases answer with
      | none => exact up
      | some reply => exact (congrFun (deliver_frame _ _ _ _).1 w).symm.trans up
    rcases Generations.update_some workers with ⟨rfl, rfl⟩ | ⟨_, old⟩
    · exact .received srv answer there handled
    · exact .stayed old
  | work w' fault =>
    obtain ⟨srv, there, rest⟩ := Option.bind_eq_some_iff.mp moved
    obtain ⟨⟨after, m, r⟩, handled, rfl⟩ := Option.map_eq_some_iff.mp rest
    have workers : Function.update s.workers w' (some after) w = some next :=
      (congrFun (deliver_frame (s.setWorker w' (some after)) w' m r).1 w).symm.trans up
    rcases Generations.update_some workers with ⟨rfl, rfl⟩ | ⟨_, old⟩
    · exact .worked srv fault m r there handled ⟨_, List.mem_cons_self, rfl, rfl⟩
    · exact .stayed old
  | crash w' =>
    obtain ⟨srv, _, rfl⟩ := Option.map_eq_some_iff.mp moved
    by_cases same : w = w'
    · subst same
      simp [State.setWorker] at up
    · exact .stayed (by simpa [State.setWorker, Function.update_of_ne same] using up)
  | restart w' =>
    simp only [step] at moved
    split at moved
    · cases moved
      rcases Generations.update_some up with ⟨rfl, rfl⟩ | ⟨_, old⟩
      · exact .started rfl
      · exact .stayed old
    · cases moved
  | start c op | finish c | drop b | dropExecutable r | forget ctx =>
    simp only [step, Option.ite_none_right_eq_some, Option.some.injEq] at moved
    obtain ⟨_, rfl⟩ := moved
    exact .stayed up
  | evict key =>
    simp only [step, Option.some.injEq] at moved
    subst moved
    exact .stayed up

theorem log_grows (moved : step s a = some t) : s.events ⊆ t.events ∧ s.counter ≤ t.counter := by
  have still : ∀ {u : State}, u.events = s.events → u.counter = s.counter →
      s.events ⊆ u.events ∧ s.counter ≤ u.counter := by
    intro u events counter
    exact ⟨fun e mem => events ▸ mem, Nat.le_of_eq counter.symm⟩
  cases a with
  | send c =>
    simp only [step, State.send] at moved
    split at moved
    · split at moved <;> cases moved <;> exact still rfl rfl
    · cases moved
  | act c => exact still (act_frame moved).2.1 (act_frame moved).2.2.1
  | abort c | exit c =>
    simp only [step] at moved
    split at moved
    · cases moved
      exact still rfl rfl
    · cases moved
  | receive w =>
    obtain ⟨srv, _, rest⟩ := Option.bind_eq_some_iff.mp moved
    obtain ⟨⟨after, answer⟩, _, rfl⟩ := Option.map_eq_some_iff.mp rest
    cases answer with
    | none => exact still rfl rfl
    | some reply => exact still (deliver_frame _ _ _ _).2.1 (deliver_frame _ _ _ _).2.2
  | work w fault =>
    obtain ⟨srv, _, rest⟩ := Option.bind_eq_some_iff.mp moved
    obtain ⟨⟨after, m, r⟩, _, rfl⟩ := Option.map_eq_some_iff.mp rest
    exact ⟨fun e mem => List.mem_cons_of_mem _ mem,
      Nat.le_of_eq (deliver_frame (s.setWorker w (some after)) w m r).2.2.symm⟩
  | crash w =>
    obtain ⟨srv, _, rfl⟩ := Option.map_eq_some_iff.mp moved
    exact still rfl rfl
  | restart w =>
    simp only [step] at moved
    split at moved
    · cases moved
      exact ⟨fun e mem => mem, Nat.le_succ _⟩
    · cases moved
  | start c op | finish c | drop b | dropExecutable r | forget ctx =>
    simp only [step, Option.ite_none_right_eq_some, Option.some.injEq] at moved
    obtain ⟨_, rfl⟩ := moved
    exact still rfl rfl
  | evict key =>
    simp only [step, Option.some.injEq] at moved
    subst moved
    exact still rfl rfl

def nothing : Reliance.Relied := ⟨False, False, False, False⟩

/-- The calls on their way are those their clients wait for, and what a port holds is a request. -/
structure Wired (s : State) : Prop where
  inv : Generations.Inv nothing s
  ports : ∀ w srv, s.workers w = some srv → ∀ m ∈ srv.port, isRequest m.call = true

theorem no_needs {w : Name} {p : Prog} {f : Reliance.Fact} : ¬ Reliance.Needs nothing w p f := by
  have none : ∀ call, ¬ nothing.call call f := by
    intro call
    cases call with
    | generation why => cases why <;> simp [Reliance.Relied.call, nothing]
    | _ => simp [Reliance.Relied.call, nothing]
  induction p with
  | done | raise => exact id
  | call w' call k ih =>
    rintro (⟨_, needs⟩ | ⟨_, r, needs⟩)
    · exact none call needs
    · exact ih r needs
  | await w' ticket call k ih => exact fun ⟨_, r, needs⟩ => ih r needs
  | newRef _ _ _ k ih | newExecutable _ _ _ k ih => exact ih
  | take b k ih | whereis w' k ih => exact fun ⟨x, needs⟩ => ih x needs
  | lookup key g k ih =>
    rintro (⟨no, _⟩ | needs)
    · exact no
    · exact ih _ needs
  | put key entry k ih | close ctx k ih =>
    rintro (⟨no, _⟩ | needs)
    · exact no
    · exact ih needs

theorem careful_nothing (s : State) (a : Label) : Generations.Careful nothing s a := by
  cases a with
  | crash w => exact ⟨fun c f => no_needs, fun no => no.elim, fun no => no.elim⟩
  | _ => trivial

theorem wired_step (wired : Wired s) (moved : step s a = some t) : Wired t := by
  refine ⟨Generations.inv_step (fun no => no) wired.inv (careful_nothing s a) moved, ?_⟩
  intro w next up
  cases worker_changes moved up with
  | stayed old => exact wired.ports w next old
  | posted srv m old eq =>
    subst eq
    exact wired.ports w srv old
  | received srv answer old handled =>
    obtain ⟨m, rest, _, _, _, ⟨request, _, port⟩ | ⟨_, port, _⟩⟩ := handleCall_cases handled
    all_goals
      intro x mem
      rw [port] at mem
    · rcases List.mem_append.mp mem with before | new
      · exact wired.ports w srv old x before
      · exact List.mem_singleton.mp new ▸ request
    · exact wired.ports w srv old x mem
  | worked srv fault m r old handled _ =>
    intro x mem
    obtain ⟨_, port, _⟩ := work_spec handled
    exact wired.ports w srv old x (by simp [port, mem])
  | started eq =>
    subst eq
    simp [Server.start]

theorem wired_reached (reached : Reached s) : Wired s := by
  obtain ⟨s₀, tensors, executables, run, rfl⟩ := reached
  have first : Wired init := ⟨Generations.inv_init, by simp [init]⟩
  have wired : Wired s₀ :=
    Runs.run_invariant Wired run first fun _ _ _ now _ moved => wired_step now moved
  exact ⟨{ wired.inv with queued := fun _ _ no => no.elim }, wired.ports⟩

theorem alive_iff {d : Duty} : Alive s d ↔
    ∃ srv, s.workers d.worker = some srv ∧ srv.generation = d.generation :=
  Option.map_eq_some_iff

theorem alive_back (moved : step s a = some t) (told : d.generation ≤ s.counter) (alive : Alive t d) :
    Alive s d := by
  obtain ⟨next, up, gen⟩ := alive_iff.mp alive
  apply alive_iff.mpr
  cases worker_changes moved up with
  | stayed old => exact ⟨next, old, gen⟩
  | posted srv m old eq => exact ⟨srv, old, by rw [← gen, eq]⟩
  | received srv answer old handled =>
    obtain ⟨_, _, _, same, _⟩ := handleCall_cases handled
    exact ⟨srv, old, same.symm.trans gen⟩
  | worked srv fault m r old handled _ =>
    exact ⟨srv, old, (work_spec handled).2.2.1.generation.symm.trans gen⟩
  | started eq =>
    rw [eq] at gen
    have new : s.counter + 1 = d.generation := gen
    exact absurd (new ▸ told) (Nat.not_succ_le_self _)

theorem requested_step (moved : step s a = some t) (told : d.generation ≤ s.counter) (alive : Alive t d)
    (sent : Requested s d) : Requested t d := by
  rcases sent with ⟨srv, old, gen, m, pending, asks⟩ | ⟨e, mem, gen, asks⟩
  · obtain ⟨next, up, same⟩ := alive_iff.mp alive
    have waits : m ∈ next.pending → Requested t d :=
      fun there => Or.inl ⟨next, up, same, m, there, asks⟩
    cases worker_changes moved up with
    | stayed old' =>
      cases Option.some.inj (old.symm.trans old')
      exact waits pending
    | posted srv' m' old' eq =>
      cases Option.some.inj (old.symm.trans old')
      subst eq
      simp only [Server.pending, List.mem_append] at pending waits
      exact waits (pending.imp_left Or.inl)
    | received srv' answer old' handled =>
      cases Option.some.inj (old.symm.trans old')
      obtain ⟨x, rest, box, _, mailbox, kind⟩ := handleCall_cases handled
      simp only [Server.pending, box, List.mem_append, List.mem_cons] at pending
      simp only [Server.pending, mailbox, List.mem_append] at waits
      rcases kind with ⟨_, _, port⟩ | ⟨quick, port, _⟩
      · rw [port] at waits
        rcases pending with (rfl | later) | written
        · exact waits (Or.inr (by simp))
        · exact waits (Or.inl later)
        · exact waits (Or.inr (by simp [written]))
      · rw [port] at waits
        rcases pending with (rfl | later) | written
        · -- the GenServer answers no release itself
          rw [d.request _ asks] at quick
          cases quick
        · exact waits (Or.inl later)
        · exact waits (Or.inr written)
    | worked srv' fault x r old' handled logged =>
      cases Option.some.inj (old.symm.trans old')
      obtain ⟨mailbox, port, _⟩ := work_spec handled
      simp only [Server.pending, port, List.mem_append, List.mem_cons] at pending
      simp only [Server.pending, mailbox, List.mem_append] at waits
      rcases pending with later | rfl | written
      · exact waits (Or.inl later)
      · obtain ⟨e, mem, by_srv, call⟩ := logged
        exact Or.inr ⟨e, mem, by_srv.trans gen, call ▸ asks⟩
      · exact waits (Or.inr written)
    | started eq =>
      rw [eq] at same
      have new : s.counter + 1 = d.generation := same
      exact absurd (new ▸ told) (Nat.not_succ_le_self _)
  · exact Or.inr ⟨e, (log_grows moved).1 mem, gen, asks⟩

theorem fits_request {w : Name} {call : Call} {r : Reply} (request : isRequest call = true) :
    Fits d w call r := by
  cases call with
  | generation why => simp [isRequest] at request
  | _ => trivial

theorem client_changes_deliver {u : State} {w : Name} {srv : Server} {m : Message} {r : Reply} (wired : Wired s)
    (up : s.workers w = some srv) (pending : m ∈ srv.pending) (clients : u.clients = s.clients)
    (after : t.clients = (u.deliver w m r).clients) (fits : ∀ d, Alive s d → Fits d w m.call r) :
    Went s t c a := by
  rcases Custody.deliver_cases u w m r with ⟨call, k, waits, eq⟩ | ⟨_, eq⟩
  · rw [eq] at after
    rw [clients] at waits
    by_cases same : m.caller = c
    · subst same
      obtain ⟨_, agreed⟩ := wired.inv.tickets w srv up m pending
      obtain ⟨_, rfl⟩ := agreed w call k waits
      exact .answered w m.ticket _ k r waits (by rw [after]; exact Function.update_self ..) fits
    · refine .stayed ?_
      rw [after, ← clients]
      exact Function.update_of_ne (Ne.symm same) _ _
  · exact .stayed (by rw [after, eq, clients])

theorem client_changes_set (s : State) (c c' : Nat) {p : Prog} (after : t.clients = (s.setClient c' p).clients) :
    (c' = c ∧ t.clients c = p) ∨ t.clients c = s.clients c := by
  by_cases same : c = c'
  · subst same
    exact Or.inl ⟨rfl, by rw [after]; exact Function.update_self ..⟩
  · exact Or.inr (by rw [after]; exact Function.update_of_ne same _ _)

theorem client_changes_send {c' : Nat} (moved : s.send c' = some t) : Went s t c (.send c') := by
  unfold State.send at moved
  cases prog : s.clients c' with
  | call w call k =>
    simp only [prog] at moved
    cases up : s.workers w with
    | none =>
      simp only [up, Option.some.injEq] at moved
      subst moved
      rcases client_changes_set s c c' rfl with ⟨rfl, _⟩ | same
      · exact .exited (by simp [exits, prog, up])
      · exact .stayed same
    | some srv =>
      simp only [up, Option.some.injEq] at moved
      subst moved
      by_cases same : c = c'
      · subst same
        refine .posted w call k prog (Function.update_self ..) _ (Function.update_self ..) ?_
        exact ⟨⟨c, s.ticket, call⟩, by simp [Server.pending], rfl⟩
      · exact .stayed (Function.update_of_ne same _ _)
  | _ => simp [prog] at moved

theorem client_changes (wired : Wired s) (moved : step s a = some t) : Went s t c a := by
  cases a with
  | start c' op | finish c' =>
    simp only [step, Option.ite_none_right_eq_some, Option.some.injEq, Bool.and_eq_true] at moved
    obtain ⟨still, rfl⟩ := moved
    rcases client_changes_set s c c' rfl with ⟨rfl, _⟩ | same
    · exact .rested (by simp_all)
    · exact .stayed same
  | send c' => exact client_changes_send moved
  | act c' =>
    by_cases same : c = c'
    · subst same
      exact .acted moved
    · exact .stayed ((act_frame moved).2.2.2 c same)
  | abort c' =>
    simp only [step] at moved
    split at moved
    · rename_i w ticket call k waits
      cases moved
      rcases client_changes_set s c c' rfl with ⟨rfl, went⟩ | same
      · by_cases request : isRequest call = true
        · exact .answered w ticket call k .error waits went fun d _ => fits_request request
        · exact .exited (by simp [exits, waits, request])
      · exact .stayed same
    · cases moved
  | exit c' =>
    simp only [step] at moved
    split at moved
    · cases moved
      rcases client_changes_set s c c' rfl with ⟨rfl, _⟩ | same
      · exact .exited (by simp [exits])
      · exact .stayed same
    · cases moved
  | receive w =>
    obtain ⟨srv, up, rest⟩ := Option.bind_eq_some_iff.mp moved
    obtain ⟨⟨after, answer⟩, handled, rfl⟩ := Option.map_eq_some_iff.mp rest
    obtain ⟨m, box, there, _, _, ⟨_, none, _⟩ | ⟨_, _, r, some, truth⟩⟩ := handleCall_cases handled
    · subst none
      exact .stayed rfl
    · subst some
      have pending : m ∈ srv.pending := by simp [Server.pending, there]
      refine client_changes_deliver (u := s.setWorker w after) wired up pending rfl rfl ?_
      intro d alive
      cases call : m.call with
      | generation why =>
        refine ⟨srv.generation, truth why call, ?_⟩
        rintro rfl
        obtain ⟨srv', up', gen⟩ := alive_iff.mp alive
        cases Option.some.inj (up.symm.trans up')
        exact gen
      | _ => trivial
  | work w fault =>
    obtain ⟨srv, up, rest⟩ := Option.bind_eq_some_iff.mp moved
    obtain ⟨⟨after, m, r⟩, handled, rfl⟩ := Option.map_eq_some_iff.mp rest
    obtain ⟨_, port, _⟩ := work_spec handled
    have there : m ∈ srv.port := by simp [port]
    exact client_changes_deliver (u := s.setWorker w after) wired up (List.mem_append_right _ there) rfl rfl
      fun d _ => fits_request (wired.ports w srv up m there)
  | crash w =>
    obtain ⟨srv, _, rfl⟩ := Option.map_eq_some_iff.mp moved
    exact .stayed rfl
  | restart w =>
    simp only [step] at moved
    split at moved
    · cases moved
      exact .stayed rfl
    · cases moved
  | drop b | dropExecutable r | forget ctx =>
    simp only [step, Option.ite_none_right_eq_some, Option.some.injEq] at moved
    obtain ⟨_, rfl⟩ := moved
    exact .stayed rfl
  | evict key =>
    simp only [step, Option.some.injEq] at moved
    subst moved
    exact .stayed rfl

/-- The entry `d` has been sent, or is still to be sent by client `c`, as long as there is someone to send it
    to. -/
structure Safe (c : Nat) (d : Duty) (s : State) : Prop where
  told : d.generation ≤ s.counter
  kept : Alive s d → Requested s d ∨ Owed d (s.clients c)

theorem owed_act (moved : s.act c = some t) (alive : Alive s d) (owed : Owed d (s.clients c)) :
    Owed d (t.clients c) := by
  unfold State.act at moved
  cases prog : s.clients c with
  | whereis w k =>
    simp only [prog, Option.some.injEq] at moved owed
    subst moved
    have after : (s.setClient c (k (s.workers w).isSome)).clients c = k (s.workers w).isSome :=
      Function.update_self ..
    rw [after]
    cases up : (s.workers w).isSome with
    | true => exact owed.1
    | false =>
      apply owed.2
      rintro rfl
      obtain ⟨srv, there, _⟩ := alive_iff.mp alive
      simp [there] at up
  | _ => simp_all [Owed]

theorem safe_step (wired : Wired s) (safe : Safe c d s) (moved : step s a = some t)
    (answering : exits s c a = true → Alive s d → ¬ Owed d (s.clients c)) : Safe c d t := by
  refine ⟨Nat.le_trans safe.told (log_grows moved).2, fun alive => ?_⟩
  have before : Alive s d := alive_back moved safe.told alive
  rcases safe.kept before with sent | owed
  · exact Or.inl (requested_step moved safe.told alive sent)
  · cases client_changes (c := c) wired moved with
    | stayed same => exact Or.inr (same ▸ owed)
    | rested still =>
      cases prog : s.clients c <;> simp [prog, idle, Owed] at still owed
    | acted acted => exact Or.inr (owed_act acted before owed)
    | posted w call k prog waits srv up there =>
      rw [prog] at owed
      rcases owed with ⟨rfl, asks⟩ | later
      · obtain ⟨m, pending, rfl⟩ := there
        obtain ⟨srv', up', gen⟩ := alive_iff.mp alive
        cases Option.some.inj (up.symm.trans up')
        exact Or.inl (Or.inl ⟨srv, up, gen, m, pending, asks⟩)
      · exact Or.inr (waits ▸ later)
    | answered w ticket call k r prog gone fits =>
      rw [prog] at owed
      exact Or.inr (gone ▸ owed r (fits d before))
    | exited out => exact absurd owed (answering out before)

theorem safe_start (wired : Wired s) (moved : step s (.start c .drain) = some t) (mem : d ∈ duties s)
    (alive : Alive s d) : Safe c d t := by
  simp only [step, Option.ite_none_right_eq_some, Option.some.injEq] at moved
  obtain ⟨_, rfl⟩ := moved
  obtain ⟨srv, up, gen⟩ := alive_iff.mp alive
  refine ⟨gen ▸ wired.inv.bounded _ srv up, fun _ => Or.inr ?_⟩
  have starts : (s.setClient c (Op.drain.program s)).clients c = Op.drain.program s :=
    Function.update_self ..
  change Owed d ((s.setClient c (Op.drain.program s)).clients c)
  rw [starts]
  exact owed_drain mem

/-- A drain loses no release as long as no call of it exits while it has one to send. -/
theorem none_lost {s d t : State} {c : Nat} (reached : Reached s)
    (started : step s (.start c .drain) = some d)
    (run : Runs.Run step (Answering s c) d t) (ended : idle (t.clients c) = true) : NoneLost s t := by
  have wired : Wired d := wired_step (wired_reached reached) started
  have sent : ∀ e ∈ duties s, Alive s e → Alive t e → Requested t e := by
    intro e mem before after
    have first : Safe c e d := safe_start (wired_reached reached) started mem before
    have kept : Wired t ∧ Safe c e t :=
      Runs.run_invariant (fun u => Wired u ∧ Safe c e u) run ⟨wired, first⟩
        fun u a v now answering moved => ⟨wired_step now.1 moved,
          safe_step now.1 now.2 moved fun out alive => answering out e mem alive⟩
    rcases kept.2.kept after with sent | owed
    · exact sent
    · cases prog : t.clients c <;> simp [prog, idle, Owed] at ended owed
  constructor
  · exact fun r mem before after =>
      Or.inl (sent _ (List.mem_append_left _ (List.mem_map_of_mem mem)) before after)
  · exact fun r mem before after =>
      Or.inl (sent _ (List.mem_append_right _ (List.mem_map_of_mem mem)) before after)

theorem exit_loses (moved : step s (.exit c) = some t) (alive : Alive s d) (unsent : ¬ Requested s d) :
    idle (t.clients c) = true ∧ Alive t d ∧ ¬ Requested t d ∧
      t.tensorQueue = s.tensorQueue ∧ t.executableQueue = s.executableQueue := by
  simp only [step] at moved
  split at moved
  · cases moved
    refine ⟨?_, alive, unsent, rfl, rfl⟩
    have ends : (s.setClient c (.raise .exit)).clients c = .raise .exit := Function.update_self ..
    rw [ends]
    rfl
  · cases moved

def twoDropped : List Label :=
  [.restart 0, .restart 1, .start 0 (.fromBinary 0), .send 0, .receive 0, .work 0 false,
    .send 0, .receive 0,
    .act 0, .start 0 (.fromBinary 1), .send 0, .receive 1, .work 1 false, .send 0, .receive 1, .act 0,
    .drop ⟨0, 0, 1, ⟨1, 1⟩⟩, .drop ⟨1, 1, 2, ⟨1, 2⟩⟩]

def drainBoth : List Label :=
  [.act 1, .send 1, .receive 0, .send 1, .receive 0, .abort 1, .act 1, .send 1, .receive 1,
    .send 1, .receive 1, .work 1 false]

def drainLate : List Label := [.act 1, .send 1, .exit 1]

theorem none_lost_two : ∃ s t, s.tensorQueue.length = 2 ∧ idle (t.clients 1) = true ∧ NoneLost s t := by
  have prepared : (Runs.follow step init twoDropped).isSome = true := by decide
  obtain ⟨s, before⟩ := Option.isSome_iff_exists.mp prepared
  have reached : Reached s := ⟨s, _, _, Runs.run_of_follow before, rfl⟩
  cases before
  refine ⟨_, _, rfl, ?_, none_lost (c := 1) reached rfl (Runs.run_of_test ?_
    (rfl : Runs.follow (fun now a => if !exits now 1 a then step now a else none) _ drainBoth =
      some _)) ?_⟩
  · rfl
  · intro now a calm out
    simp [out] at calm
  · rfl

theorem late_worker_loses : ¬ ∀ (s d t : State) (c : Nat), Reached s →
    step s (.start c .drain) = some d →
    Runs.Run step Runs.anyStep d t → idle (t.clients c) = true → NoneLost s t := by
  intro claim
  have prepared : (Runs.follow step init twoDropped).isSome = true := by decide
  obtain ⟨s, before⟩ := Option.isSome_iff_exists.mp prepared
  have reached : Reached s := ⟨s, _, _, Runs.run_of_follow before, rfl⟩
  cases before
  have lossless := claim _ _ _ 1 reached rfl
    (Runs.run_of_follow (rfl : Runs.follow step _ drainLate = some _)) rfl
  have kept := lossless.1 ⟨1, 2, ⟨1, 2⟩⟩ (by decide) rfl rfl
  rcases kept with (⟨srv, up, _, m, pending, _⟩ | ⟨e, mem, gen, asks⟩) | queued
  · cases up
    change m ∈ ([] : List Message) at pending
    simp at pending
  · change e ∈ ([⟨2, .upload, none⟩, ⟨1, .upload, none⟩] : List Event) at mem
    simp only [List.mem_cons, List.not_mem_nil, or_false] at mem
    rcases mem with rfl | rfl <;> simp [tensorDuty, releases] at asks
  · change _ ∈ ([] : List (Release Minted)) at queued
    simp at queued

end NxTinygrad.Drains
