import NxTinygrad.Generations

/- What a restart can do to ids that are on their way, and when it cannot. -/
namespace NxTinygrad.Restarts
open Worker Client Cluster Reliance Generations

/-- Workers crash only when nothing counts on an executable of theirs. -/
def carefulOfExecutables : State → Label → Prop :=
  Careful ⟨False, False, False, True⟩

/-- Workers crash only when no request with checked operands is about to be sent to
    them, and no id of theirs is about to be stored. -/
def carefulOfOperands : State → Label → Prop := Careful ⟨True, True, False, False⟩

/-- Workers crash only when no id of theirs is about to be stored, and no compile is
    between its generation and its request. -/
def carefulOfRecords : State → Label → Prop := Careful ⟨False, True, True, False⟩

def isCrash : Label → Bool
  | .crash _ => true
  | _ => false

theorem careful_of_not_crash {R : Relied} {s : State} {a : Label} (h : isCrash a = false) :
    Careful R s a := by
  cases a with
  | crash w => simp [isCrash] at h
  | _ => trivial

theorem careful_around_crash {R : Relied} {t : State} {before after : List Label}
    (calm : ∀ a ∈ before ++ after, isCrash a = false)
    (unneeded : ∀ s, Runs.follow step init before = some s → Unneeded R s 0)
    (done : Runs.follow step init (before ++ .crash 0 :: after) = some t) :
    Runs.Run step (Careful R) init t := by
  rw [Runs.follow_append] at done
  obtain ⟨s, first, done⟩ := Option.bind_eq_some_iff.mp done
  obtain ⟨u, crashed, tail⟩ := Option.bind_eq_some_iff.mp done
  have start : Runs.Run step (Careful R) init s :=
    Runs.guarded_of_follow
      (fun a mem _ => careful_of_not_crash (calm a (List.mem_append_left _ mem))) first
  have crash : Runs.Run step (Careful R) init u :=
    .next (a := .crash 0) start (unneeded s first) crashed
  exact Runs.run_trans crash
    (Runs.guarded_of_follow
      (fun a mem _ => careful_of_not_crash (calm a (List.mem_append_right _ mem))) tail)

structure ExecutablesStay (s : State) : Prop where
  sent : ∀ w srv, s.workers w = some srv → ∀ m ∈ srv.pending, ∀ e hs n,
    m.call = .execute e hs n → e.issuer = srv.generation
  handled : ∀ ev ∈ s.events, ∀ e hs n, ev.call = .execute e hs n →
    e.issuer = ev.generation ∧ ∀ graph, ev.ran = some graph → graph = e.graph
  closures : ∀ ctx ∈ s.closures, ctx.executable.graph = ctx.graph

theorem executables_stay {t : State} (run : Runs.Run step carefulOfExecutables init t) :
    ExecutablesStay t := by
  have inv := inv_run False.elim run
  refine ⟨fun w srv up m mem e hs n call => ?_, fun ev mem e hs n call => ?_,
    fun ctx mem => (inv.closures ctx mem).1⟩
  · have issued := inv.posted w srv up m mem (.executable e) (by rw [call]; exact Or.inl ⟨trivial, rfl⟩)
    exact issued.issuer
  · exact inv.events ev mem (.executable e) (by rw [call]; exact Or.inl ⟨trivial, rfl⟩)

def compileAndForget : List Label :=
  [.restart 0, .start 0 (.compile 0 7 true), .send 0, .receive 0, .send 0, .receive 0, .act 0,
    .send 0, .receive 0, .work 0 false, .act 0, .act 0, .act 0, .forget ⟨0, ⟨1, 1, 7⟩, 7⟩]

def compileAndCall : List Label :=
  [.restart 0, .start 0 (.compile 0 7 true), .send 0, .receive 0, .send 0, .receive 0, .act 0,
    .send 0, .receive 0, .work 0 false, .act 0, .act 0, .act 0,
    .start 0 (.call ⟨0, ⟨1, 2, 7⟩, 7⟩ [] 1), .send 0, .receive 0, .send 0, .receive 0,
    .work 0 false]

theorem executables_stay_on_second_worker : ∃ t, ExecutablesStay t ∧
    t.events = [⟨2, .execute ⟨1, 2, 7⟩ [] 1, some 7⟩, ⟨2, .compile 7 2, none⟩,
      ⟨1, .compile 7 1, none⟩] := by
  have ends : (Runs.follow step init (compileAndForget ++ .crash 0 :: compileAndCall)).map (·.events) =
      some [⟨2, .execute ⟨1, 2, 7⟩ [] 1, some 7⟩, ⟨2, .compile 7 2, none⟩,
        ⟨1, .compile 7 1, none⟩] := by decide
  obtain ⟨t, done, events⟩ := Option.map_eq_some_iff.mp ends
  refine ⟨t, executables_stay (careful_around_crash (by decide) ?_ done), events⟩
  rintro s ⟨⟩
  refine ⟨?_, fun on => List.forall_mem_nil _, ?_⟩
  · rintro (_ | c) f needs <;> exact needs
  · rintro on (_ | c) ctx pinned <;> cases pinned

def callAfterRestart : List Label :=
  [.restart 0, .start 0 (.compile 0 7 false), .send 0, .receive 0, .send 0, .receive 0,
    .work 0 false, .act 0, .act 0, .crash 0, .restart 0,
    .start 1 (.compile 0 8 false), .send 1, .receive 0, .send 1, .receive 0, .work 0 false,
    .act 1, .act 1,
    .start 0 (.call ⟨0, ⟨1, 1, 7⟩, 7⟩ [] 0), .send 0, .receive 0, .send 0, .receive 0,
    .work 0 false]

/-- The closure of graph 7 runs graph 8. -/
theorem executable_crosses_restart :
    ¬ ∀ t, Runs.Run step Runs.anyStep init t → ExecutablesStay t := by
  intro claim
  have ends : (Runs.follow step init callAfterRestart).map (·.events.head?) =
      some (some ⟨2, .execute ⟨1, 1, 7⟩ [] 0, some 8⟩) := by decide
  obtain ⟨t, done, head⟩ := Option.map_eq_some_iff.mp ends
  have handled := (claim t (Runs.run_of_follow done)).handled _ (List.mem_of_head? head) _ _ _ rfl
  exact absurd handled.1 (by decide)

def OperandsStay (s : State) : Prop :=
  ∀ ev ∈ s.events, ∀ h ∈ ev.call.operands, h.issuer = ev.generation

theorem operands_stay {t : State} (run : Runs.Run step carefulOfOperands init t) :
    OperandsStay t := by
  have inv := inv_run id run
  intro ev mem h named
  refine inv.events ev mem (.generation h.issuer) ?_
  cases call : ev.call with
  | execute e hs n => rw [call] at named; exact Or.inr ⟨trivial, h, named, rfl⟩
  | download x =>
    rw [call] at named
    rw [List.mem_singleton.mp named]
    exact ⟨trivial, rfl⟩
  | runNode hs => rw [call] at named; exact ⟨trivial, h, named, rfl⟩
  | release hs => rw [call] at named; exact ⟨trivial, h, named, rfl⟩
  | info | generation why | upload | compile graph read | releaseExecutable es =>
    rw [call] at named
    cases named

def upload : List Label :=
  [.restart 0, .start 0 (.fromBinary 0), .send 0, .receive 0, .work 0 false, .send 0, .receive 0,
    .act 0]

def uploadAndDownload : List Label :=
  [.restart 0, .start 1 (.fromBinary 0), .send 1, .receive 0, .work 0 false, .send 1, .receive 0,
    .act 1, .start 0 (.toBinary ⟨0, 0, 1, ⟨1, 1⟩⟩), .send 0, .receive 0,
    .start 1 (.toBinary ⟨1, 0, 2, ⟨1, 2⟩⟩), .send 1, .receive 0, .send 1, .receive 0,
    .work 0 false]

theorem unneeded_after_upload {R : Relied} {s : State} (done : Runs.follow step init upload = some s) :
    Unneeded R s 0 := by
  cases done
  refine ⟨?_, fun on => List.forall_mem_nil _, ?_⟩
  · rintro (_ | c) f needs <;> exact needs
  · rintro on (_ | c) ctx pinned <;> cases pinned

theorem operands_stay_on_second_worker : ∃ t, OperandsStay t ∧
    t.events.head? = some ⟨2, .download ⟨1, 2⟩, none⟩ ∧ t.clients 0 = .raise .staleTensor := by
  have ends : (Runs.follow step init (upload ++ .crash 0 :: uploadAndDownload)).isSome = true := by
    decide
  obtain ⟨t, done⟩ := Option.isSome_iff_exists.mp ends
  refine ⟨t, operands_stay (careful_around_crash (by decide) (fun s => unneeded_after_upload) done), ?_⟩
  cases done
  exact ⟨rfl, rfl⟩

/-- Restart the worker between the freshness check of a download and its request, and let
    another client upload a buffer there meanwhile. -/
def downloadAcrossRestart : List Label :=
  [.restart 0, .start 0 (.fromBinary 0), .send 0, .receive 0, .work 0 false, .send 0, .receive 0,
    .act 0, .start 0 (.toBinary ⟨0, 0, 1, ⟨1, 1⟩⟩), .send 0, .receive 0, .crash 0, .restart 0,
    .start 1 (.fromBinary 0), .send 1, .receive 0, .work 0 false, .send 0, .receive 0,
    .work 0 false]

theorem operand_crosses_restart :
    ¬ ∀ t, Runs.Run step Runs.anyStep init t → OperandsStay t := by
  intro claim
  have ends : (Runs.follow step init downloadAcrossRestart).map (·.events.head?) =
      some (some ⟨2, .download ⟨1, 1⟩, none⟩) := by decide
  obtain ⟨t, done, head⟩ := Option.map_eq_some_iff.mp ends
  have stays := claim t (Runs.run_of_follow done) _ (List.mem_of_head? head) ⟨1, 1⟩ (by decide)
  exact absurd stays (by decide)

structure RecordsTrue (s : State) : Prop where
  refs : ∀ b ∈ s.refs, b.generation = b.handle.issuer
  executableRefs : ∀ r ∈ s.executableRefs, r.generation = r.handle.issuer
  cache : ∀ key entry, s.cache key = some entry → entry.generation = entry.executable.issuer

theorem records_true {t : State} (run : Runs.Run step carefulOfRecords init t) :
    RecordsTrue t := by
  have inv := inv_run False.elim run
  exact ⟨fun b mem => (inv.refs b mem).1 trivial, inv.executableRefs trivial,
    fun key entry cached => (inv.cache key entry cached).1 trivial⟩

theorem records_true_on_second_worker : ∃ t, RecordsTrue t ∧
    t.refs = [⟨1, 0, 2, ⟨1, 2⟩⟩, ⟨0, 0, 1, ⟨1, 1⟩⟩] := by
  have ends : (Runs.follow step init (upload ++ .crash 0 :: uploadAndDownload)).map (·.refs) =
      some [⟨1, 0, 2, ⟨1, 2⟩⟩, ⟨0, 0, 1, ⟨1, 1⟩⟩] := by decide
  obtain ⟨t, done, refs⟩ := Option.map_eq_some_iff.mp ends
  exact ⟨t, records_true (careful_around_crash (by decide) (fun s => unneeded_after_upload) done), refs⟩

/-- Restart the worker between the reply to an upload and the generation `build` reads. -/
def uploadAcrossRestart : List Label :=
  [.restart 0, .start 0 (.fromBinary 0), .send 0, .receive 0, .work 0 false, .crash 0, .restart 0,
    .send 0, .receive 0, .act 0]

theorem record_crosses_restart :
    ¬ ∀ t, Runs.Run step Runs.anyStep init t → RecordsTrue t := by
  intro claim
  have ends : (Runs.follow step init uploadAcrossRestart).map (·.refs) =
      some [⟨0, 0, 2, ⟨1, 1⟩⟩] := by decide
  obtain ⟨t, done, refs⟩ := Option.map_eq_some_iff.mp ends
  have truthful := (claim t (Runs.run_of_follow done)).refs ⟨0, 0, 2, ⟨1, 1⟩⟩ (by simp [refs])
  exact absurd truthful (by decide)

end NxTinygrad.Restarts
