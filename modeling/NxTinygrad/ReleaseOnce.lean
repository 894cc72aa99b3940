import NxTinygrad.NativeRefs

/- The entry of a reference is handed out once, however the calls interleave. -/
namespace NxTinygrad.NativeRefs
open Runs Tally

section
variable {s s' : State} {r x i : Nat} {f f' : Frame} {res : Resource}

/-- The steps after which the entry of `r` is to be handed out. -/
def Action.ends (r : Nat) : Action → Bool
  | .take x _ | .destroy x => x = r
  | _ => false

def Begun (s : State) (r : Nat) : Prop :=
  .take r ∈ s.calls ∨ .drop r ∈ s.calls ∨ (s.sort r).isSome = true ∧ s.unclaimed r = 0

theorem begun_of (taking : .take r ∈ s'.calls ↔ .take r ∈ s.calls)
    (dropping : .drop r ∈ s'.calls ↔ .drop r ∈ s.calls) (sort : s'.sort r = s.sort r)
    (unclaimed : s'.unclaimed r = s.unclaimed r) : Begun s' r ↔ Begun s r := by
  rw [Begun, Begun, taking, dropping, sort, unclaimed]

theorem mem_set_iff (here : s.calls[i]? = some f) {g : Frame} (old : g ≠ f) (new : g ≠ f') :
    g ∈ (s.goto i f').calls ↔ g ∈ s.calls := by
  constructor
  · exact fun mem => (mem_goto mem).resolve_left new
  · intro mem
    obtain ⟨j, there⟩ := List.mem_iff_getElem?.mp mem
    refine List.mem_iff_getElem?.mpr ⟨j, ?_⟩
    rw [calls_goto here, if_neg, there]
    rintro rfl
    exact old (Option.some.inj (there.symm.trans here))

theorem begun_goto (here : s.calls[i]? = some f) (take : f ≠ .take r ∧ f' ≠ .take r)
    (drop : f ≠ .drop r ∧ f' ≠ .drop r) : Begun (s.goto i f') r ↔ Begun s r :=
  begun_of (mem_set_iff here take.1.symm take.2.symm) (mem_set_iff here drop.1.symm drop.2.symm) rfl rfl

theorem begun_swap (there : s.resources[x]? = some res) (kind : res.kind = .tensor)
    (here : s.calls[i]? = some f) (claims : f = .take x ∨ f = .drop x)
    (done : ∀ y, f' ≠ .take y ∧ f' ≠ .drop y) :
    Begun ((s.swap x res).goto i f') r ↔ Begun s r := by
  have sort : (s.swap x res).sort = s.sort := sort_set there rfl rfl
  by_cases same : r = x
  · subst same
    have mem := List.mem_of_getElem? here
    refine iff_of_true (Or.inr (Or.inr ⟨?_, ?_⟩)) (claims.elim (fun eq => ?_) fun eq => ?_)
    · show ((s.swap r res).sort r).isSome = true
      rw [sort, sort_at there]
      rfl
    · show (s.swap r res).unclaimed r = 0
      rw [unclaimed_swap there kind, if_pos rfl]
    · exact Or.inl (eq ▸ mem)
    · exact Or.inr (Or.inl (eq ▸ mem))
  · have apart : f ≠ .take r ∧ f ≠ .drop r := by
      rcases claims with rfl | rfl <;> simp [Ne.symm same]
    have moved := begun_goto (s := s.swap x res) here ⟨apart.1, (done r).1⟩ ⟨apart.2, (done r).2⟩
    refine moved.trans (begun_of Iff.rfl Iff.rfl (congrFun sort r) ?_)
    rw [unclaimed_swap there kind, if_neg same]

theorem begun_advance (inv : Inv s) (here : s.calls[i]? = some f) (moved : s.advance i f = some s') :
    Begun s' r ↔ Begun s r := by
  have sound := inv.sound f (List.mem_of_getElem? here)
  have plain (f' : Frame) (old : f ≠ .take r ∧ f ≠ .drop r) (new : f' ≠ .take r ∧ f' ≠ .drop r) :=
    begun_goto here ⟨old.1, new.1⟩ ⟨old.2, new.2⟩
  unfold State.advance at moved
  split at moved
  case h_2 =>
    obtain ⟨res, there, rfl⟩ := Option.map_eq_some_iff.mp moved
    obtain ⟨entry, sort⟩ := sound
    exact begun_swap there (kind_of_sort there sort).1 here (.inl rfl) (by simp)
  case h_4 =>
    obtain ⟨res, there, rfl⟩ := Option.map_eq_some_iff.mp moved
    obtain ⟨entry, sort⟩ := sound
    refine begun_swap there (kind_of_sort there sort).1 here (.inr rfl) fun y => ?_
    cases res.released <;> simp
  case h_5 =>
    split at moved <;> cases moved
    exact plain (.mutex _ _ .locked) (by simp) (by simp)
  case h_8 kind job queue =>
    cases moved
    exact plain (job.finish kind queue) (by simp) (by cases job <;> simp [Job.finish])
  all_goals cases moved
  · exact plain .done (by simp) (by simp)
  · exact plain .done (by simp) (by simp)
  · exact plain (.mutex _ _ (.loaded _)) (by simp) (by simp)
  · exact plain (.mutex _ _ (.stored _)) (by simp) (by simp)
  · exact plain .done (by simp) (by simp)

theorem begun_spawn {g : Frame} :
    Begun (s.spawn g) r ↔ Begun s r ∨ g = .take r ∨ g = .drop r := by
  have taking : .take r ∈ (s.spawn g).calls ↔ .take r ∈ s.calls ∨ g = .take r := by
    simp [State.spawn, eq_comm]
  have dropping : .drop r ∈ (s.spawn g).calls ↔ .drop r ∈ s.calls ∨ g = .drop r := by
    simp [State.spawn, eq_comm]
  have rest : (s.spawn g).sort r = s.sort r ∧ (s.spawn g).unclaimed r = s.unclaimed r := ⟨rfl, rfl⟩
  rw [Begun, Begun, taking, dropping, rest.1, rest.2]
  tauto

theorem begun_destroy (there : s.resources[x]? = some res) :
    Begun ((s.setResource x { res with alive := false }).spawn (res.destructor x)) r ↔
      Begun s r ∨ x = r := by
  have sort : (s.setResource x { res with alive := false }).sort = s.sort := sort_set there rfl rfl
  have left := unclaimed_set (x := r) there { res with alive := false }
  rw [begun_spawn]
  by_cases same : r = x
  · subst same
    refine iff_of_true ?_ (Or.inr rfl)
    have here : ((s.setResource r { res with alive := false }).sort r).isSome = true := by
      rw [sort, sort_at there]
      rfl
    rw [if_pos rfl] at left
    by_cases kind : res.kind = .tensor
    · exact Or.inr (Or.inr (by simp [Resource.destructor, kind]))
    · have none : ({ res with alive := false } : Resource).unclaimed = 0 := by
        unfold Resource.unclaimed
        split
        · exact absurd ‹_› kind
        · rfl
      exact Or.inl (Or.inr (Or.inr ⟨here, left.trans none⟩))
  · have other : res.destructor x ≠ .take r ∧ res.destructor x ≠ .drop r := by
      unfold Resource.destructor
      cases res.kind <;> simp [Ne.symm same]
    rw [if_neg same] at left
    have kept : Begun (s.setResource x { res with alive := false }) r ↔ Begun s r :=
      begun_of Iff.rfl Iff.rfl (congrFun sort r) left
    simp [kept, other, Ne.symm same]

theorem begun_holders (there : s.resources[x]? = some res) (holders : List Pid) :
    Begun (s.setResource x { res with holders }) r ↔ Begun s r := by
  have same : ({ res with holders } : Resource).unclaimed = res.unclaimed := rfl
  have sort : (s.setResource x { res with holders }).sort = s.sort := sort_set there rfl rfl
  refine begun_of Iff.rfl Iff.rfl (congrFun sort r) ?_
  rw [unclaimed_set there, same]
  split
  · rename_i eq
    rw [eq, unclaimed_at there]
  · rfl

theorem begun_new (res : Resource) (full : res.unclaimed = 1) :
    Begun { s with resources := s.resources ++ [res] } r ↔ Begun s r := by
  unfold Begun
  rw [sort_new, unclaimed_new]
  by_cases last : r = s.resources.length
  · simp [last, full, sort_last]
  · simp [last]

theorem begun_step {a : Action} (inv : Inv s) (moved : step s a = some s') :
    Begun s' r ↔ Begun s r ∨ a.ends r = true := by
  cases a with
  | new p kind entry =>
    cases moved
    have full : (⟨kind, entry, false, [p], true⟩ : Resource).unclaimed = 1 := by cases kind <;> rfl
    simp [begun_new _ full, Action.ends]
  | share x p q =>
    obtain ⟨res, there, moved⟩ := Option.bind_eq_some_iff.mp moved
    split at moved <;> cases moved
    simp [begun_holders there, Action.ends]
  | forget x p =>
    obtain ⟨res, there, moved⟩ := Option.bind_eq_some_iff.mp moved
    split at moved <;> cases moved
    simp [begun_holders there, Action.ends]
  | read x p =>
    obtain ⟨res, there, moved⟩ := Option.bind_eq_some_iff.mp moved
    split at moved <;> cases moved
    simp [begun_spawn, Action.ends]
  | take x p =>
    obtain ⟨res, there, moved⟩ := Option.bind_eq_some_iff.mp moved
    split at moved <;> cases moved
    simp [begun_spawn, Action.ends]
  | destroy x =>
    obtain ⟨res, there, moved⟩ := Option.bind_eq_some_iff.mp moved
    split at moved <;> cases moved
    simp [begun_destroy there, Action.ends]
  | drain kind =>
    cases moved
    simp [begun_spawn, Action.ends]
  | advance i =>
    obtain ⟨f, here, moved⟩ := Option.bind_eq_some_iff.mp moved
    simp [begun_advance inv here moved, Action.ends]

theorem begun_run {as : List Action} (inv : Inv s) (ran : follow step s as = some s') :
    Inv s' ∧ (Begun s' r ↔ Begun s r ∨ ∃ a ∈ as, a.ends r = true) := by
  induction as generalizing s with
  | nil =>
    cases ran
    exact ⟨inv, by simp⟩
  | cons a rest ih =>
    obtain ⟨mid, moved, ran⟩ := Option.bind_eq_some_iff.mp ran
    obtain ⟨inv', begun⟩ := ih (step_inv s a mid inv moved) ran
    refine ⟨inv', ?_⟩
    rw [begun, begun_step inv moved, List.exists_mem_cons_iff, or_assoc]

def State.quiet (s : State) : Prop := ∀ f ∈ s.calls, f = .done

def Frame.work : Frame → Nat
  | .done => 0
  | .read _ | .taken _ _ | .drained _ _ => 1
  | .take _ | .mutex _ _ (.stored _) => 2
  | .mutex _ _ (.loaded _) => 3
  | .mutex _ _ .locked => 4
  | .mutex _ _ .waiting => 5
  | .drop _ => 6

def Action.finishes : Action → Bool
  | .advance _ | .drain _ => true
  | _ => false

theorem work_advance (here : s.calls[i]? = some f) (moved : s.advance i f = some s') :
    tally Frame.work s'.calls < tally Frame.work s.calls := by
  have less (f' : Frame) (lt : f'.work < f.work) (calls : s'.calls = s.calls.set i f') :
      tally Frame.work s'.calls < tally Frame.work s.calls := by
    have moved := tally_set (f := Frame.work) here f'
    rw [calls]
    omega
  unfold State.advance at moved
  split at moved
  case h_2 =>
    obtain ⟨res, there, rfl⟩ := Option.map_eq_some_iff.mp moved
    exact less (.taken _ _) (by simp [Frame.work]) rfl
  case h_4 =>
    obtain ⟨res, there, rfl⟩ := Option.map_eq_some_iff.mp moved
    refine less _ ?_ rfl
    cases res.released <;> exact Nat.lt_of_sub_eq_succ rfl
  case h_5 =>
    split at moved <;> cases moved
    exact less (.mutex _ _ .locked) (by simp [Frame.work]) rfl
  case h_8 kind job queue =>
    cases moved
    exact less (job.finish kind queue) (by cases job <;> simp [Job.finish, Frame.work]) rfl
  all_goals cases moved
  · exact less .done (by simp [Frame.work]) rfl
  · exact less .done (by simp [Frame.work]) rfl
  · exact less (.mutex _ _ (.loaded _)) (by simp [Frame.work]) rfl
  · exact less (.mutex _ _ (.stored _)) (by simp [Frame.work]) rfl
  · exact less .done (by simp [Frame.work]) rfl

theorem advance_inside (i : Nat) {k : Kind} (inside : f.inside k = true) :
    ∃ s', s.advance i f = some s' := by
  cases f with
  | mutex kind job stage =>
    cases stage with
    | waiting => cases inside
    | _ => exact ⟨_, rfl⟩
  | _ => cases inside

theorem advance_enabled (inv : Inv s) (busy : ¬ s.quiet) :
    ∃ i f s', s.calls[i]? = some f ∧ s.advance i f = some s' := by
  obtain ⟨f, mem, running⟩ : ∃ f ∈ s.calls, f ≠ .done := by simpa [State.quiet] using busy
  obtain ⟨i, here⟩ := List.mem_iff_getElem?.mp mem
  have sound := inv.sound f mem
  have known {r : Nat} (sort : ∃ entry, s.sort r = some (.tensor, entry)) :
      ∃ res, s.resources[r]? = some res := by
    obtain ⟨entry, sort⟩ := sort
    obtain ⟨res, there, _⟩ := Option.map_eq_some_iff.mp sort
    exact ⟨res, there⟩
  cases f with
  | done => exact absurd rfl running
  | read r => exact ⟨i, _, _, here, rfl⟩
  | taken r out => exact ⟨i, _, _, here, rfl⟩
  | drained kind out => exact ⟨i, _, _, here, rfl⟩
  | take r =>
    obtain ⟨res, there⟩ := known sound
    exact ⟨i, _, _, here, by rw [State.advance, there]; rfl⟩
  | drop r =>
    obtain ⟨res, there⟩ := known sound
    exact ⟨i, _, _, here, by rw [State.advance, there]; rfl⟩
  | mutex kind job stage =>
    cases stage with
    | waiting =>
      cases free : s.lock kind with
      | none => exact ⟨i, _, _, here, by rw [State.advance, if_pos free]⟩
      | some j =>
        obtain ⟨g, there, inside⟩ := (inv.locks kind j).mp free
        obtain ⟨s', moved⟩ := advance_inside (s := s) j inside
        exact ⟨j, g, s', there, moved⟩
    | _ => exact ⟨i, _, _, here, rfl⟩

abbrev Finishing := Run step fun _ a => a.finishes = true

theorem settle (inv : Inv s) : ∃ s', Finishing s s' ∧ s'.quiet := by
  induction n : tally Frame.work s.calls using Nat.strongRecOn generalizing s with
  | ind n ih =>
    by_cases quiet : s.quiet
    · exact ⟨s, .refl s, quiet⟩
    · obtain ⟨i, f, mid, here, moved⟩ := advance_enabled inv quiet
      have less := work_advance here moved
      have one : Finishing s mid := .next (.refl s) (a := .advance i) rfl (by simp [step, here, moved])
      obtain ⟨s', rest, done⟩ := ih _ (n ▸ less) (inv_advance inv here moved) rfl
      exact ⟨s', run_trans one rest, done⟩

theorem drain_quiet (inv : Inv s) (quiet : s.quiet) (kind : Kind) :
    ∃ s', Finishing s s' ∧ s'.quiet ∧ s'.queue = Function.update s.queue kind [] := by
  have free : s.lock kind = none := by
    rcases lock : s.lock kind with _ | j
    · rfl
    · obtain ⟨g, there, inside⟩ := (inv.locks kind j).mp lock
      rw [quiet g (List.mem_of_getElem? there)] at inside
      cases inside
  let s' : State := { s with
    queue := Function.update s.queue kind []
    calls := s.calls ++ [.done]
    handed := Function.update s.handed kind (s.handed kind ++ s.queue kind) }
  refine ⟨s', ?_, ?_, rfl⟩
  · have ran : follow step s (.drain kind :: List.replicate 5 (.advance s.calls.length)) = some s' := by
      simp [follow, step, State.spawn, State.advance, State.goto, State.setLock,
        State.setQueue, State.hand, free, Job.write, Job.finish, List.replicate, s']
    exact guarded_of_follow (by simp [Action.finishes]) ran
  · intro f mem
    rcases List.mem_append.mp mem with old | new
    · exact quiet f old
    · exact List.mem_singleton.mp new

theorem settle_drained (inv : Inv s) :
    ∃ s', Finishing s s' ∧ s'.quiet ∧ ∀ k, s'.queue k = [] := by
  obtain ⟨s₁, run₁, quiet₁⟩ := settle inv
  have inv₁ := run_invariant Inv run₁ inv fun s a t inv _ moved => step_inv s a t inv moved
  obtain ⟨s₂, run₂, quiet₂, queue₂⟩ := drain_quiet inv₁ quiet₁ .tensor
  have inv₂ := run_invariant Inv run₂ inv₁ fun s a t inv _ moved => step_inv s a t inv moved
  obtain ⟨s₃, run₃, quiet₃, queue₃⟩ := drain_quiet inv₂ quiet₂ .executable
  refine ⟨s₃, run_trans run₁ (run_trans run₂ run₃), quiet₃, fun k => ?_⟩
  rw [queue₃, queue₂]
  cases k <;> simp

theorem begun_quiet (inv : Inv s) (quiet : s.quiet) (there : (s.sort r).isSome = true) :
    heldIn r s.handed + heldIn r s.queue = 1 ↔ Begun s r := by
  have total := inv.conserved r
  have none : s.inHand r = 0 := tally_eq_zero fun f mem => by rw [quiet f mem]; rfl
  have idle : .take r ∉ s.calls ∧ .drop r ∉ s.calls :=
    ⟨fun mem => by simpa using quiet _ mem, fun mem => by simpa using quiet _ mem⟩
  rw [if_pos there, State.total, none] at total
  simp only [Begun, idle, there, false_or, true_and]
  omega

theorem begun_finishing (run : Finishing s s') (inv : Inv s) (begun : Begun s r) :
    Inv s' ∧ Begun s' r ∧ s'.sort = s.sort := by
  refine run_invariant (fun t => Inv t ∧ Begun t r ∧ t.sort = s.sort) run ⟨inv, begun, rfl⟩ ?_
  rintro t a u ⟨inv, begun, sort⟩ guard moved
  refine ⟨step_inv t a u inv moved, (begun_step inv moved).mpr (Or.inl begun), ?_⟩
  cases a with
  | advance i =>
    obtain ⟨f, here, moved⟩ := Option.bind_eq_some_iff.mp moved
    exact (sort_advance moved).trans sort
  | drain kind =>
    cases moved
    exact sort
  | _ => cases guard

end

/-- After any interleaving of calls: the entry of a resource is in one place; it has been handed
    out at most once, as it is and through the interface of its kind, and not before it was taken or
    dropped. Once it was, it is handed out as soon as no call runs and the queues are drained, and
    the calls that run never keep it from coming to that. -/
theorem released_exactly_once {as : List Action} {s : State} (ran : follow step start as = some s)
    {r : Nat} {res : Resource} (there : s.resources[r]? = some res) :
    s.unclaimed r + s.inHand r + heldIn r s.queue + heldIn r s.handed = 1 ∧
    (∀ k, ∀ t ∈ s.handed k, t.ref = r → k = res.kind ∧ t.entry = res.entry) ∧
    ((∀ a ∈ as, a.ends r = false) → heldIn r s.handed = 0) ∧
    ((∃ a ∈ as, a.ends r = true) →
      (s.quiet → heldIn r s.handed + heldIn r s.queue = 1) ∧
      ∃ s', Finishing s s' ∧ s'.quiet ∧ (∀ k, s'.queue k = []) ∧ heldIn r s'.handed = 1) := by
  obtain ⟨inv, begun⟩ := begun_run (r := r) inv_start ran
  have fresh : ¬ Begun start r := by simp [Begun, start, State.sort]
  have known : (s.sort r).isSome = true := by rw [sort_at there]; rfl
  have total := inv.conserved r
  rw [if_pos known, State.total] at total
  refine ⟨total, fun k t mem same => ?_, fun never => ?_, fun ended => ?_⟩
  · have genuine : s.sort t.ref = some (k, t.entry) := inv.handed k t mem
    obtain ⟨kind, entry⟩ := kind_of_sort there (same ▸ genuine)
    exact ⟨kind.symm, entry.symm⟩
  · have full : s.unclaimed r ≠ 0 := by
      intro empty
      rcases begun.mp (Or.inr (Or.inr ⟨known, empty⟩)) with before | ⟨a, mem, ends⟩
      · exact fresh before
      · rw [never a mem] at ends
        cases ends
    omega
  · have here : Begun s r := begun.mpr (Or.inr ended)
    refine ⟨fun quiet => (begun_quiet inv quiet known).mpr here, ?_⟩
    obtain ⟨s', run, quiet, empty⟩ := settle_drained inv
    obtain ⟨inv', begun', sort⟩ := begun_finishing run inv here
    have out := (begun_quiet inv' quiet (sort ▸ known)).mpr begun'
    have none : heldIn r s'.queue = 0 := by simp [heldIn, empty]
    exact ⟨s', run, quiet, empty, by omega⟩

/-- Two takes of one reference race, a third one is dropped while the reaper drains, and an
    executable is dropped. -/
def raced : List Action :=
  [.new 0 .tensor ⟨1, 1, 7⟩, .new 0 .tensor ⟨1, 1, 8⟩, .new 0 .executable ⟨1, 1, 3⟩, .share 0 0 1,
    .take 0 0, .take 0 1, .advance 1, .advance 0, .advance 0, .advance 1,
    .forget 1 0, .drain .tensor, .advance 2, .advance 2, .destroy 1, .advance 3, .advance 2, .advance 2,
    .advance 3, .advance 3, .advance 3, .advance 3, .advance 2, .forget 2 0, .destroy 2]

theorem released_exactly_once_raced : ∃ s, follow step start raced = some s ∧
    ∃ s', Finishing s s' ∧ s'.quiet ∧ (∀ k, s'.queue k = []) ∧ heldIn 1 s'.handed = 1 := by
  have found : (follow step start raced).bind (fun s => s.resources[1]?) =
      some ⟨.tensor, ⟨1, 1, 8⟩, true, [], false⟩ := by decide +kernel
  obtain ⟨s, ran, there⟩ := Option.bind_eq_some_iff.mp found
  have ended : ∃ a ∈ raced, a.ends 1 = true := by decide +kernel
  exact ⟨s, ran, ((released_exactly_once ran there).2.2.2 ended).2⟩

end NxTinygrad.NativeRefs
