import NxTinygrad.Reliance

/- Generations over whole runs. Nothing a client or a worker holds is out of date as
   long as no worker crashes while something counts on it. -/
namespace NxTinygrad.Generations
open Worker Client Cluster Reliance

def unsent : Prog → Prog
  | .await w _ c k => .call w c k
  | p => p

def Moving (p : Prog) : Prop := ∀ w t c k, p ≠ .await w t c k

/-- What is known about the program `p` of a client process inside a call of `pin`. -/
structure Tracked (R : Relied) (counter : Gen) (workers : Name → Option Server)
    (pin : Option Ctx) (p : Prog) (o : Origin) (seen : Gen) : Prop where
  seen_le : seen ≤ counter
  bound_le : o.bound ≤ counter
  pin : o.pin = pin
  base : ∀ w srv, workers w = some srv → o.base w = some srv.generation ∨ o.bound < srv.generation
  checked : Checked R o seen (unsent p)

def Current (s : State) (w : Name) (f : Fact) : Prop :=
  ∃ srv, s.workers w = some srv ∧ f.Holds srv

def BornOut (R : Relied) (e : Event) : Prop :=
  ∀ f, R.call e.call f → match f with
    | .generation g => g = e.generation
    | .executable x => x.issuer = e.generation ∧ ∀ graph, e.ran = some graph → graph = x.graph

structure Inv (R : Relied) (s : State) : Prop where
  bounded : ∀ w srv, s.workers w = some srv → srv.generation ≤ s.counter
  tracked : ∀ c, ∃ o seen, Tracked R s.counter s.workers (s.pins c) (s.clients c) o seen
  needs : ∀ c w f, Needs R w (s.clients c) f → Current s w f
  posted : ∀ w srv, s.workers w = some srv → ∀ m ∈ srv.pending, ∀ f, R.call m.call f → f.Holds srv
  tickets : ∀ w srv, s.workers w = some srv → ∀ m ∈ srv.pending, m.ticket < s.ticket ∧
    ∀ w' c' k, s.clients m.caller = .await w' m.ticket c' k → w' = w ∧ c' = m.call
  refs : ∀ b ∈ s.refs, (R.records → b.generation = b.handle.issuer) ∧ b.generation ≤ s.counter
  queued : ∀ r ∈ s.tensorQueue, R.records → r.generation = r.handle.issuer
  executableRefs : R.entries → ∀ r ∈ s.executableRefs, r.generation = r.handle.issuer
  cache : ∀ key entry, s.cache key = some entry →
    (R.entries → entry.generation = entry.executable.issuer) ∧
      entry.generation ≤ s.counter ∧ entry.executable.graph = key.graph ∧
      (R.executables → ∀ srv, s.workers key.worker = some srv →
        srv.generation = entry.generation → Issued srv entry.executable)
  closures : ∀ ctx ∈ s.closures, ctx.executable.graph = ctx.graph ∧
    (R.executables → Current s ctx.worker (.executable ctx.executable))
  pins : ∀ c ctx, s.pins c = some ctx → R.executables →
    Current s ctx.worker (.executable ctx.executable)
  events : ∀ e ∈ s.events, BornOut R e

structure Unneeded (R : Relied) (s : State) (w : Name) : Prop where
  programs : ∀ c f, ¬ Needs R w (s.clients c) f
  closures : R.executables → ∀ ctx ∈ s.closures, ctx.worker ≠ w
  pins : R.executables → ∀ c ctx, s.pins c = some ctx → ctx.worker ≠ w

def Careful (R : Relied) (s : State) : Label → Prop
  | .crash w => Unneeded R s w
  | _ => True

variable {R : Relied} {s : State}

theorem inv_init : Inv R init where
  bounded := by simp [init]
  tracked c := ⟨⟨fun _ => none, 0, none⟩, 0, Nat.le_refl _, Nat.le_refl _, rfl, by simp [init], trivial⟩
  needs _ _ _ no := no.elim
  posted := by simp [init]
  tickets := by simp [init]
  refs := by simp [init]
  queued := by simp [init]
  executableRefs := by simp [init]
  cache := by simp [init]
  closures := by simp [init]
  pins := by simp [init]
  events := by simp [init]

theorem checked_moving {o : Origin} {seen : Gen} {p : Prog} (h : Checked R o seen p) :
    Moving p := by
  rintro w t c k rfl
  exact h

theorem unsent_moving {p : Prog} (h : Moving p) : unsent p = p := by
  cases p with
  | await w t c k => exact absurd rfl (h w t c k)
  | _ => rfl

theorem holds_continues {srv next : Server} (later : Continues srv next) {f : Fact}
    (h : f.Holds srv) : f.Holds next := by
  cases f with
  | generation g => exact Eq.trans h later.generation.symm
  | executable e => exact h.continues later

theorem inv_continue (inv : Inv R s) {c : Nat} {p : Prog} {o : Origin} {seen seen' : Gen}
    (t : Tracked R s.counter s.workers (s.pins c) (s.clients c) o seen) (le : seen' ≤ s.counter)
    (checked : Checked R o seen' p) (needs : ∀ w f, Needs R w p f → Current s w f) :
    Inv R (s.setClient c p) :=
  have moving := checked_moving checked
  { inv with
    tracked := fun c' => by
      by_cases same : c' = c
      · subst same
        refine ⟨o, seen', le, t.bound_le, t.pin, t.base, ?_⟩
        simpa [State.setClient, unsent_moving moving] using checked
      · obtain ⟨o', seen', t⟩ := inv.tracked c'
        refine ⟨o', seen', t.seen_le, t.bound_le, t.pin, t.base, ?_⟩
        simpa [State.setClient, Function.update_of_ne same] using t.checked
    needs := fun c' w f need => by
      by_cases same : c' = c
      · subst same
        exact needs w f (by simpa [State.setClient] using need)
      · exact inv.needs c' w f (by simpa [State.setClient, Function.update_of_ne same] using need)
    tickets := fun w srv up m mem => by
      obtain ⟨old, waits⟩ := inv.tickets w srv up m mem
      refine ⟨old, fun w' c' k wait => ?_⟩
      by_cases same : m.caller = c
      · rw [same] at wait
        exact absurd (by simpa [State.setClient] using wait) (moving w' m.ticket c' k)
      · exact waits w' c' k (by simpa [State.setClient, Function.update_of_ne same] using wait) }

theorem inv_raise (inv : Inv R s) (c : Nat) (error : ClientError) :
    Inv R (s.setClient c (.raise error)) := by
  obtain ⟨o, seen, t⟩ := inv.tracked c
  exact inv_continue inv t t.seen_le trivial (fun _ _ no => no.elim)

theorem inv_act (inv : Inv R s) {c : Nat} {t : State} (moved : s.act c = some t) : Inv R t := by
  obtain ⟨o, seen, track⟩ := inv.tracked c
  have checked := track.checked
  have needs := inv.needs c
  unfold State.act at moved
  cases prog : s.clients c with
  | newRef w g h k =>
    simp only [prog, Option.some.injEq] at moved needs
    subst moved
    rw [prog] at checked
    obtain ⟨truthful, bound, rest⟩ := checked
    have base := inv_continue inv track track.seen_le rest needs
    exact { base with
      refs := List.forall_mem_cons.mpr
        ⟨⟨truthful, Nat.le_trans bound track.seen_le⟩, base.refs⟩ }
  | newExecutable w g e k =>
    simp only [prog, Option.some.injEq] at moved needs
    subst moved
    rw [prog] at checked
    obtain ⟨truthful, rest⟩ := checked
    have base := inv_continue inv track track.seen_le rest needs
    exact { base with
      executableRefs := fun on =>
        List.forall_mem_cons.mpr ⟨truthful on, base.executableRefs on⟩ }
  | take b k =>
    simp only [prog, Option.some.injEq] at moved needs
    subst moved
    rw [prog] at checked
    have base := inv_continue inv track track.seen_le (checked (!s.taken.contains b.ref))
      (fun w f need => needs w f ⟨_, need⟩)
    exact { base with }
  | lookup key g k =>
    simp only [prog, Option.some.injEq] at moved needs
    subst moved
    rw [prog] at checked
    obtain ⟨miss, hit⟩ := checked
    cases found : (s.cache key).filter fun e => e.generation = g with
    | none => exact inv_continue inv track track.seen_le miss (fun w f need => needs w f (Or.inr need))
    | some e =>
      obtain ⟨cached, match_read⟩ := Option.filter_eq_some_iff.mp found
      have same : e.generation = g := by simpa using match_read
      obtain ⟨_, _, graph, issued⟩ := inv.cache key e cached
      obtain ⟨only, rest⟩ := hit e same graph
      refine inv_continue inv track track.seen_le rest (fun w f need => ?_)
      obtain ⟨on, rfl, rfl⟩ := only w f need
      obtain ⟨srv, up, read⟩ := needs key.worker (.generation g) (Or.inl ⟨on, rfl, rfl⟩)
      exact ⟨srv, up, issued on srv up (Eq.trans read.symm same.symm)⟩
  | put key entry k =>
    simp only [prog, Option.some.injEq] at moved needs
    subst moved
    rw [prog] at checked
    obtain ⟨truthful, bound, graph, rest⟩ := checked
    have base := inv_continue inv track track.seen_le rest (fun w f need => needs w f (Or.inr need))
    exact { base with
      cache := fun key' entry' cached => by
        by_cases same : key' = key
        · subst same
          have eq : entry = entry' := by simpa using cached
          subst eq
          refine ⟨truthful, Nat.le_trans bound track.seen_le, graph, fun on srv up _ => ?_⟩
          obtain ⟨srv', up', issued⟩ := needs key'.worker _ (Or.inl ⟨on, rfl, rfl⟩)
          have eq : srv' = srv := Option.some.inj (up'.symm.trans up)
          exact eq ▸ issued
        · exact inv.cache key' entry' (by simpa [Function.update_of_ne same] using cached) }
  | close ctx k =>
    simp only [prog, Option.some.injEq] at moved needs
    subst moved
    rw [prog] at checked
    obtain ⟨graph, rest⟩ := checked
    have base := inv_continue inv track track.seen_le rest (fun w f need => needs w f (Or.inr need))
    exact { base with
      closures := List.forall_mem_cons.mpr
        ⟨⟨graph, fun on => needs ctx.worker _ (Or.inl ⟨on, rfl, rfl⟩)⟩, base.closures⟩ }
  | whereis w k =>
    simp only [prog, Option.some.injEq] at moved needs
    subst moved
    rw [prog] at checked
    exact inv_continue inv track track.seen_le (checked _) (fun w f need => needs w f ⟨_, need⟩)
  | done | raise error | call w call k | await w ticket call k => simp [prog] at moved

theorem inv_fail (inv : Inv R s) {c : Nat} {w : Name} {ticket : Nat} {call : Call}
    {k : Reply → Prog} (prog : s.clients c = .await w ticket call k) :
    Inv R (s.setClient c (k .error)) := by
  obtain ⟨o, seen, track⟩ := inv.tracked c
  have checked := track.checked
  rw [prog] at checked
  exact inv_continue inv track track.seen_le checked.2.2
    (fun w f need => (checked.2.1 w f need).elim)

theorem inv_start (inv : Inv R s) (sure : R.operands → R.records) {c : Nat} {op : Op}
    (available : op.available s) :
    Inv R { s.setClient c (op.program s) with
      pins := Function.update s.pins c op.pin
      tensorQueue := if op = .drain then [] else s.tensorQueue
      executableQueue := if op = .drain then [] else s.executableQueue } := by
  obtain ⟨uses, pinned⟩ : (∀ b ∈ op.uses, b ∈ s.refs) ∧ ∀ ctx, op.pin = some ctx →
      ctx ∈ s.closures := by
    simpa [Op.available, Option.all_eq_true] using available
  have vouched : Vouched R ⟨fun w => (s.workers w).map (·.generation), s.counter, op.pin⟩ op.uses :=
    fun b mem => ⟨fun on => (inv.refs b (uses b mem)).1 (sure on), (inv.refs b (uses b mem)).2⟩
  have checked : Checked R _ s.counter (op.program s) :=
    checked_program rfl vouched (fun on r mem => inv.queued r mem (sure on))
  have moving := checked_moving checked
  have quiet : Quiet R (op.program s) := quiet_program (fun on b mem => (vouched b mem).1 on)
  exact { inv with
    tracked := fun c' => by
      by_cases same : c' = c
      · subst same
        refine ⟨⟨fun w => (s.workers w).map (·.generation), s.counter, op.pin⟩, s.counter,
          Nat.le_refl _, Nat.le_refl _, by simp, fun w srv up => ?_, ?_⟩
        · have up : s.workers w = some srv := up
          exact Or.inl (by simp only [up, Option.map_some])
        · simpa [State.setClient, unsent_moving moving] using checked
      · obtain ⟨o, seen, t⟩ := inv.tracked c'
        refine ⟨o, seen, t.seen_le, t.bound_le, ?_, t.base, ?_⟩
        · simpa [Function.update_of_ne same] using t.pin
        · simpa [State.setClient, Function.update_of_ne same] using t.checked
    needs := fun c' w f need => by
      by_cases same : c' = c
      · subst same
        exact (quiet w f (by simpa [State.setClient] using need)).elim
      · exact inv.needs c' w f (by simpa [State.setClient, Function.update_of_ne same] using need)
    tickets := fun w srv up m mem => by
      obtain ⟨old, waits⟩ := inv.tickets w srv up m mem
      refine ⟨old, fun w' c' k wait => ?_⟩
      by_cases same : m.caller = c
      · rw [same] at wait
        exact absurd (by simpa [State.setClient] using wait) (moving w' m.ticket c' k)
      · exact waits w' c' k (by simpa [State.setClient, Function.update_of_ne same] using wait)
    queued := fun r mem => by
      split at mem
      · exact absurd mem (by simp)
      · exact inv.queued r mem
    pins := fun c' ctx pin on => by
      by_cases same : c' = c
      · subst same
        exact (inv.closures ctx (pinned ctx (by simpa using pin))).2 on
      · exact inv.pins c' ctx (by simpa [Function.update_of_ne same] using pin) on }

theorem inv_finish (inv : Inv R s) (c : Nat) :
    Inv R { s.setClient c .done with pins := Function.update s.pins c none } := by
  obtain ⟨o, seen, t⟩ := inv.tracked c
  have base : Inv R (s.setClient c .done) :=
    inv_continue inv t t.seen_le trivial (fun _ _ no => no.elim)
  exact { base with
    tracked := fun c' => by
      by_cases same : c' = c
      · subst same
        refine ⟨⟨o.base, o.bound, none⟩, seen, t.seen_le, t.bound_le, by simp, t.base, ?_⟩
        simp [State.setClient, unsent, Checked]
      · obtain ⟨o', seen', t'⟩ := base.tracked c'
        refine ⟨o', seen', t'.seen_le, t'.bound_le, ?_, t'.base, t'.checked⟩
        rw [t'.pin]
        simp [State.setClient, Function.update_of_ne same]
    pins := fun c' ctx pin on => by
      by_cases same : c' = c
      · subst same
        simp at pin
      · exact inv.pins c' ctx (by simpa [Function.update_of_ne same] using pin) on }

theorem update_some {workers : Name → Option Server} {w w' : Name} {next srv : Server}
    (up : Function.update workers w (some next) w' = some srv) :
    w' = w ∧ srv = next ∨ w' ≠ w ∧ workers w' = some srv := by
  by_cases same : w' = w
  · subst same
    exact Or.inl ⟨rfl, by simpa using up.symm⟩
  · exact Or.inr ⟨same, by simpa [Function.update_of_ne same] using up⟩

theorem current_setWorker {w : Name} {srv next : Server} (up : s.workers w = some srv)
    (later : Continues srv next) {w' : Name} {f : Fact} (h : Current s w' f) :
    Current (s.setWorker w (some next)) w' f := by
  obtain ⟨srv', up', holds⟩ := h
  by_cases same : w' = w
  · subst same
    have eq : srv' = srv := Option.some.inj (up'.symm.trans up)
    subst eq
    exact ⟨next, by simp [State.setWorker], holds_continues later holds⟩
  · exact ⟨srv', by simpa [State.setWorker, Function.update_of_ne same] using up', holds⟩

theorem inv_setWorker (inv : Inv R s) {w : Name} {srv next : Server}
    (up : s.workers w = some srv) (later : Continues srv next)
    (queues : ∀ m ∈ next.pending, m ∈ srv.pending) : Inv R (s.setWorker w (some next)) :=
  { inv with
    bounded := fun w' srv' up' => by
      rcases update_some up' with ⟨rfl, rfl⟩ | ⟨_, up'⟩
      · rw [later.generation]
        exact inv.bounded w' srv up
      · exact inv.bounded w' srv' up'
    tracked := fun c => by
      obtain ⟨o, seen, t⟩ := inv.tracked c
      refine ⟨o, seen, t.seen_le, t.bound_le, t.pin, fun w' srv' up' => ?_, t.checked⟩
      rcases update_some up' with ⟨rfl, rfl⟩ | ⟨_, up'⟩
      · rw [later.generation]
        exact t.base w' srv up
      · exact t.base w' srv' up'
    needs := fun c w' f need => current_setWorker up later (inv.needs c w' f need)
    posted := fun w' srv' up' m mem f relied => by
      rcases update_some up' with ⟨rfl, rfl⟩ | ⟨_, up'⟩
      · exact holds_continues later (inv.posted w' srv up m (queues m mem) f relied)
      · exact inv.posted w' srv' up' m mem f relied
    tickets := fun w' srv' up' m mem => by
      rcases update_some up' with ⟨rfl, rfl⟩ | ⟨_, up'⟩
      · exact inv.tickets w' srv up m (queues m mem)
      · exact inv.tickets w' srv' up' m mem
    cache := fun key entry cached => by
      obtain ⟨truthful, bound, graph, issued⟩ := inv.cache key entry cached
      refine ⟨truthful, bound, graph, fun on srv' up' match_gen => ?_⟩
      rcases update_some up' with ⟨same, rfl⟩ | ⟨_, up'⟩
      · exact (issued on srv (same ▸ up) (later.generation ▸ match_gen)).continues later
      · exact issued on srv' up' match_gen
    closures := fun ctx mem =>
      ⟨(inv.closures ctx mem).1, fun on => current_setWorker up later ((inv.closures ctx mem).2 on)⟩
    pins := fun c ctx pin on => current_setWorker up later (inv.pins c ctx pin on) }

theorem inv_deliver (inv : Inv R s) {w : Name} {srv : Server} {m : Message} {r : Reply}
    (up : s.workers w = some srv) (from_srv : r.From srv m.call)
    (relied : ∀ f, R.call m.call f → f.Holds srv)
    (waits : ∀ w' c' k, s.clients m.caller = .await w' m.ticket c' k → w' = w ∧ c' = m.call) :
    Inv R (s.deliver w m r) := by
  unfold State.deliver
  split
  · rename_i w' ticket call k prog
    split
    · rename_i match_ticket
      obtain ⟨rfl, rfl⟩ := match_ticket
      obtain ⟨_, rfl⟩ := waits w' call k prog
      obtain ⟨o, seen, track⟩ := inv.tracked m.caller
      have checked := track.checked
      rw [prog] at checked
      have allows : o.Allows R w' srv := by
        refine ⟨track.base w' srv up, fun ctx pin on same => ?_⟩
        obtain ⟨srv', up', issued⟩ := inv.pins m.caller ctx (track.pin ▸ pin) on
        rw [same] at up'
        have eq : srv' = srv := Option.some.inj (up'.symm.trans up)
        exact eq ▸ issued
      obtain ⟨needs, rest⟩ := checked.1 srv r from_srv relied allows
      refine inv_continue inv track (Nat.max_le.mpr ⟨track.seen_le, inv.bounded w' srv up⟩) rest ?_
      intro w'' f need
      by_cases same : w'' = w'
      · subst same
        exact ⟨srv, up, needs f need⟩
      · -- another worker was already counted on before the answer came
        refine inv.needs m.caller w'' f ?_
        rw [prog]
        exact ⟨fun eq => same eq.symm, r, need⟩
    · exact inv
  · exact inv

theorem deliver_events {w : Name} {m : Message} {r : Reply} :
    (s.deliver w m r).events = s.events := by
  unfold State.deliver
  split
  · split <;> rfl
  · rfl

theorem inv_receive (inv : Inv R s) {w : Name} {t : State}
    (moved : step s (.receive w) = some t) : Inv R t := by
  obtain ⟨srv, up, rest⟩ := Option.bind_eq_some_iff.mp moved
  obtain ⟨⟨next, answer⟩, handled, rfl⟩ := Option.map_eq_some_iff.mp rest
  obtain ⟨generation, proc, queues, answered⟩ := handleCall_spec handled
  have later := continues_of_proc generation proc
  have base := inv_setWorker inv up later queues
  cases answer with
  | none => exact base
  | some reply =>
    obtain ⟨m, r⟩ := reply
    obtain ⟨mem, from_srv⟩ := answered m r rfl
    refine inv_deliver base (by simp [State.setWorker]) from_srv (fun f relied => ?_) ?_
    · exact holds_continues later (inv.posted w srv up m mem f relied)
    · exact (inv.tickets w srv up m mem).2

theorem bornOut_of_relied {srv : Server} {call : Call}
    (relied : ∀ f, R.call call f → f.Holds srv) :
    BornOut R ⟨srv.generation, call, ranGraph srv call⟩ := by
  intro f need
  have holds := relied f need
  cases f with
  | generation g => exact holds
  | executable x =>
    refine ⟨holds.issuer, fun graph ran => holds.graph graph ?_⟩
    cases call with
    | execute e hs n =>
      rcases need with ⟨_, same⟩ | ⟨_, h, _, same⟩
      · rw [Fact.executable.inj same]
        exact get_mem ran
      · cases same
    | _ => simp [ranGraph] at ran

theorem inv_work (inv : Inv R s) {w : Name} {fault : Bool} {t : State}
    (moved : step s (.work w fault) = some t) : Inv R t := by
  obtain ⟨srv, up, rest⟩ := Option.bind_eq_some_iff.mp moved
  obtain ⟨⟨next, m, r⟩, handled, rfl⟩ := Option.map_eq_some_iff.mp rest
  obtain ⟨box, port, later, from_srv⟩ := work_spec handled
  have mem : m ∈ srv.pending := by simp [Server.pending, port]
  have relied := inv.posted w srv up m mem
  have base : Inv R ((s.setWorker w (some next)).deliver w m r) := by
    refine inv_deliver (inv_setWorker inv up later ?_) (by simp [State.setWorker]) from_srv
      (fun f need => holds_continues later (relied f need)) (inv.tickets w srv up m mem).2
    intro x pending
    simp only [Server.pending, box, port, List.mem_append, List.mem_cons] at pending ⊢
    tauto
  exact { base with
    events := List.forall_mem_cons.mpr ⟨bornOut_of_relied relied, inv.events⟩ }

theorem inv_post (inv : Inv R s) {c : Nat} {w : Name} {call : Call} {k : Reply → Prog}
    {srv next : Server} (prog : s.clients c = .call w call k) (up : s.workers w = some srv)
    (posted : next = { srv with mailbox := srv.mailbox ++ [⟨c, s.ticket, call⟩] }) :
    Inv R { (s.setWorker w (some next)).setClient c (.await w s.ticket call k) with
      ticket := s.ticket + 1 } := by
  have later : Continues srv next := continues_of_proc (by rw [posted]) (by rw [posted])
  have queues : ∀ m ∈ next.pending, m ∈ srv.pending ∨ m = ⟨c, s.ticket, call⟩ := by
    intro m mem
    simp only [posted, Server.pending, List.mem_append, List.mem_singleton] at mem ⊢
    tauto
  have needs := inv.needs c
  rw [prog] at needs
  exact { inv with
    bounded := fun w' srv' up' => by
      rcases update_some up' with ⟨rfl, rfl⟩ | ⟨_, up'⟩
      · rw [later.generation]
        exact inv.bounded w' srv up
      · exact inv.bounded w' srv' up'
    tracked := fun c' => by
      obtain ⟨o, seen, t⟩ := inv.tracked c'
      refine ⟨o, seen, t.seen_le, t.bound_le, t.pin, fun w' srv' up' => ?_, ?_⟩
      · rcases update_some up' with ⟨rfl, rfl⟩ | ⟨_, up'⟩
        · rw [later.generation]
          exact t.base w' srv up
        · exact t.base w' srv' up'
      · by_cases same : c' = c
        · subst same
          have checked := t.checked
          rw [prog] at checked
          simpa [State.setClient, unsent] using checked
        · simpa [State.setClient, State.setWorker, Function.update_of_ne same] using t.checked
    needs := fun c' w' f need => by
      refine current_setWorker up later ?_
      by_cases same : c' = c
      · subst same
        refine needs w' f (Or.inr ?_)
        simpa [State.setClient, Needs] using need
      · refine inv.needs c' w' f ?_
        simpa [State.setClient, State.setWorker, Function.update_of_ne same] using need
    posted := fun w' srv' up' m mem f relied => by
      rcases update_some up' with ⟨rfl, rfl⟩ | ⟨_, up'⟩
      · refine holds_continues later ?_
        rcases queues m mem with old | rfl
        · exact inv.posted w' srv up m old f relied
        · obtain ⟨srv', up'', holds⟩ := needs w' f (Or.inl ⟨rfl, relied⟩)
          have eq : srv' = srv := Option.some.inj (up''.symm.trans up)
          exact eq ▸ holds
      · exact inv.posted w' srv' up' m mem f relied
    tickets := fun w' srv' up' m mem => by
      have kept : ∀ srv', s.workers w' = some srv' → m ∈ srv'.pending →
          m.ticket < s.ticket + 1 ∧ ∀ w'' c' k',
            Function.update s.clients c (.await w s.ticket call k) m.caller =
              .await w'' m.ticket c' k' → w'' = w' ∧ c' = m.call := by
        intro srv' up' mem
        obtain ⟨old, waits⟩ := inv.tickets w' srv' up' m mem
        refine ⟨Nat.lt_succ_of_lt old, fun w'' c' k' wait => ?_⟩
        by_cases same : m.caller = c
        · rw [same, Function.update_self] at wait
          have eq : s.ticket = m.ticket := (Prog.await.inj wait).2.1
          omega
        · exact waits w'' c' k' (by rwa [Function.update_of_ne same] at wait)
      rcases update_some up' with ⟨rfl, rfl⟩ | ⟨_, up'⟩
      · rcases queues m mem with old | rfl
        · exact kept srv up old
        · refine ⟨Nat.lt_succ_self _, fun w'' c' k' wait => ?_⟩
          have eq : Prog.await w' s.ticket call k = .await w'' s.ticket c' k' := by
            simpa [State.setClient] using wait
          obtain ⟨rfl, _, rfl, _⟩ := Prog.await.inj eq
          exact ⟨rfl, rfl⟩
      · exact kept srv' up' mem
    cache := fun key entry cached => by
      obtain ⟨truthful, bound, graph, issued⟩ := inv.cache key entry cached
      refine ⟨truthful, bound, graph, fun on srv' up' match_gen => ?_⟩
      rcases update_some up' with ⟨same, rfl⟩ | ⟨_, up'⟩
      · exact (issued on srv (same ▸ up) (later.generation ▸ match_gen)).continues later
      · exact issued on srv' up' match_gen
    closures := fun ctx mem =>
      ⟨(inv.closures ctx mem).1, fun on => current_setWorker up later ((inv.closures ctx mem).2 on)⟩
    pins := fun c ctx pin on => current_setWorker up later (inv.pins c ctx pin on) }

theorem inv_send (inv : Inv R s) {c : Nat} {t : State} (moved : s.send c = some t) : Inv R t := by
  unfold State.send at moved
  cases prog : s.clients c with
  | call w call k =>
    simp only [prog] at moved
    cases up : s.workers w with
    | none =>
      simp only [up, Option.some.injEq] at moved
      subst moved
      exact inv_raise inv c .exit
    | some srv =>
      simp only [up, Option.some.injEq] at moved
      subst moved
      exact inv_post inv prog up rfl
  | _ => simp [prog] at moved

theorem inv_crash (inv : Inv R s) {w : Name} (safe : Unneeded R s w) :
    Inv R (s.setWorker w none) := by
  have back : ∀ {w' : Name} {srv : Server}, (s.setWorker w none).workers w' = some srv →
      s.workers w' = some srv := by
    intro w' srv up
    by_cases same : w' = w
    · subst same
      simp [State.setWorker] at up
    · simpa [State.setWorker, Function.update_of_ne same] using up
  have stays : ∀ {w' : Name} {f : Fact}, w' ≠ w → Current s w' f →
      Current (s.setWorker w none) w' f := by
    rintro w' f ne ⟨srv, up, holds⟩
    exact ⟨srv, by simpa [State.setWorker, Function.update_of_ne ne] using up, holds⟩
  exact { inv with
    bounded := fun w' srv up => inv.bounded w' srv (back up)
    tracked := fun c => by
      obtain ⟨o, seen, t⟩ := inv.tracked c
      exact ⟨o, seen, t.seen_le, t.bound_le, t.pin, fun w' srv up => t.base w' srv (back up), t.checked⟩
    needs := fun c w' f need => by
      refine stays ?_ (inv.needs c w' f need)
      rintro rfl
      exact safe.programs c f need
    posted := fun w' srv up => inv.posted w' srv (back up)
    tickets := fun w' srv up => inv.tickets w' srv (back up)
    cache := fun key entry cached => by
      obtain ⟨truthful, bound, graph, issued⟩ := inv.cache key entry cached
      exact ⟨truthful, bound, graph, fun on srv up => issued on srv (back up)⟩
    closures := fun ctx mem => ⟨(inv.closures ctx mem).1, fun on =>
      stays (safe.closures on ctx mem) ((inv.closures ctx mem).2 on)⟩
    pins := fun c ctx pin on => stays (safe.pins on c ctx pin) (inv.pins c ctx pin on) }

theorem inv_restart (inv : Inv R s) {w : Name} (down : s.workers w = none) :
    Inv R { s.setWorker w (some (.start (s.counter + 1))) with counter := s.counter + 1 } := by
  have stays : ∀ {w' : Name} {f : Fact}, Current s w' f →
      ∃ srv, Function.update s.workers w (some (.start (s.counter + 1))) w' = some srv ∧
        f.Holds srv := by
    rintro w' f ⟨srv, up, holds⟩
    have ne : w' ≠ w := by
      rintro rfl
      rw [down] at up
      cases up
    exact ⟨srv, by simpa [Function.update_of_ne ne] using up, holds⟩
  exact { inv with
    bounded := fun w' srv up => by
      rcases update_some up with ⟨_, rfl⟩ | ⟨_, old⟩
      · exact Nat.le_refl _
      · exact Nat.le_succ_of_le (inv.bounded w' srv old)
    tracked := fun c => by
      obtain ⟨o, seen, t⟩ := inv.tracked c
      refine ⟨o, seen, Nat.le_succ_of_le t.seen_le, Nat.le_succ_of_le t.bound_le, t.pin,
        fun w' srv up => ?_, t.checked⟩
      rcases update_some up with ⟨_, rfl⟩ | ⟨_, old⟩
      · exact Or.inr (Nat.lt_succ_of_le t.bound_le)
      · exact t.base w' srv old
    needs := fun c w' f need => stays (inv.needs c w' f need)
    posted := fun w' srv up m mem => by
      rcases update_some up with ⟨_, rfl⟩ | ⟨_, old⟩
      · simp [Server.start, Server.pending] at mem
      · exact inv.posted w' srv old m mem
    tickets := fun w' srv up m mem => by
      rcases update_some up with ⟨_, rfl⟩ | ⟨_, old⟩
      · simp [Server.start, Server.pending] at mem
      · exact inv.tickets w' srv old m mem
    refs := fun b mem => ⟨(inv.refs b mem).1, Nat.le_succ_of_le (inv.refs b mem).2⟩
    cache := fun key entry cached => by
      obtain ⟨truthful, bound, graph, issued⟩ := inv.cache key entry cached
      refine ⟨truthful, Nat.le_succ_of_le bound, graph, fun on srv up match_gen => ?_⟩
      rcases update_some up with ⟨_, rfl⟩ | ⟨_, old⟩
      · have eq : s.counter + 1 = entry.generation := match_gen
        exact absurd (eq ▸ bound) (Nat.not_succ_le_self _)
      · exact issued on srv old match_gen
    closures := fun ctx mem => ⟨(inv.closures ctx mem).1, fun on => stays ((inv.closures ctx mem).2 on)⟩
    pins := fun c ctx pin on => stays (inv.pins c ctx pin on) }

theorem inv_drop (inv : Inv R s) {b : Backend} (live : b ∈ s.refs) :
    Inv R { s with
      refs := s.refs.erase b
      tensorQueue :=
        if s.taken.contains b.ref then s.tensorQueue else s.tensorQueue ++ [b.release] } :=
  { inv with
    refs := fun x mem => inv.refs x (List.mem_of_mem_erase mem)
    queued := fun r mem on => by
      split at mem
      · exact inv.queued r mem on
      · rcases List.mem_append.mp mem with old | new
        · exact inv.queued r old on
        · rw [List.mem_singleton.mp new]
          exact (inv.refs b live).1 on }

theorem inv_step (sure : R.operands → R.records) {a : Label} {t : State} (inv : Inv R s)
    (careful : Careful R s a) (moved : step s a = some t) : Inv R t := by
  cases a with
  | start c op =>
    simp only [step, Option.ite_none_right_eq_some, Option.some.injEq, Bool.and_eq_true] at moved
    obtain ⟨⟨_, available⟩, rfl⟩ := moved
    exact inv_start inv sure available
  | finish c =>
    simp only [step, Option.ite_none_right_eq_some, Option.some.injEq] at moved
    obtain ⟨_, rfl⟩ := moved
    exact inv_finish inv c
  | send c => exact inv_send inv moved
  | act c => exact inv_act inv moved
  | abort c =>
    simp only [step] at moved
    split at moved
    · rename_i prog
      cases moved
      exact inv_fail inv prog
    · cases moved
  | exit c =>
    simp only [step] at moved
    split at moved
    · cases moved
      exact inv_raise inv c .exit
    · cases moved
  | receive w => exact inv_receive inv moved
  | work w fault => exact inv_work inv moved
  | crash w =>
    obtain ⟨srv, _, rfl⟩ := Option.map_eq_some_iff.mp moved
    exact inv_crash inv careful
  | restart w =>
    simp only [step] at moved
    split at moved
    · rename_i down
      cases moved
      exact inv_restart inv down
    · cases moved
  | drop b =>
    simp only [step, Option.ite_none_right_eq_some, Option.some.injEq] at moved
    obtain ⟨live, rfl⟩ := moved
    exact inv_drop inv (by simpa using live)
  | dropExecutable r =>
    simp only [step, Option.ite_none_right_eq_some, Option.some.injEq] at moved
    obtain ⟨_, rfl⟩ := moved
    exact { inv with
      executableRefs := fun on x mem => inv.executableRefs on x (List.mem_of_mem_erase mem) }
  | forget ctx =>
    simp only [step, Option.ite_none_right_eq_some, Option.some.injEq] at moved
    obtain ⟨_, rfl⟩ := moved
    exact { inv with closures := fun x mem => inv.closures x (List.mem_of_mem_erase mem) }
  | evict key =>
    simp only [step, Option.some.injEq] at moved
    subst moved
    exact { inv with
      cache := fun key' entry cached => by
        by_cases same : key' = key
        · subst same
          simp at cached
        · exact inv.cache key' entry (by simpa [Function.update_of_ne same] using cached) }

theorem inv_run (sure : R.operands → R.records) {t : State}
    (run : Runs.Run step (Careful R) init t) : Inv R t :=
  Runs.run_invariant (Inv R) run inv_init fun _ _ _ inv careful moved =>
    inv_step sure inv careful moved

end NxTinygrad.Generations
