import Mathlib.Logic.Function.Basic
import NxTinygrad.Lib.Runs
import NxTinygrad.Lib.Tally

/- The resources of the NIF, `TensorRef` and `ExecutableRef`, and the two queues their `Drop`
   pushes onto. Calls of any number of processes run interleaved, one atomic access at a time. -/
namespace NxTinygrad.NativeRefs
open Runs Tally

abbrev Pid := Nat

structure Entry where
  workerId : UInt64
  generation : UInt64
  handle : UInt64
  deriving DecidableEq, Repr

inductive Kind where
  | tensor | executable
  deriving DecidableEq, Repr

/-- An entry outside its resource. `ref` is the resource it is from; only the entry is there at
    run time. -/
structure Token where
  ref : Nat
  entry : Entry
  deriving DecidableEq, Repr

/-- `holders` are the processes with a term for it, once for each term; it is `alive` until its
    `Drop` runs. `released` is the flag of a `TensorRef`, an `ExecutableRef` has none. -/
structure Resource where
  kind : Kind
  entry : Entry
  released : Bool
  holders : List Pid
  alive : Bool
  deriving DecidableEq, Repr

inductive Job where
  | push (t : Token)
  | drain
  deriving DecidableEq, Repr

def Job.write (queue : List Token) : Job → List Token
  | .push t => queue ++ [t]
  | .drain => []

/-- How far a call is with the mutex. In between `loaded` and `stored` it has read the vector
    but not written it. -/
inductive Stage where
  | waiting
  | locked
  | loaded (queue : List Token)
  | stored (queue : List Token)
  deriving DecidableEq, Repr

/-- Native code that is running: `handle`, `generation` and `executable_handle` only read. -/
inductive Frame where
  | read (r : Nat)
  | take (r : Nat)
  | taken (r : Nat) (out : Option Token)
  | drop (r : Nat)
  | mutex (kind : Kind) (job : Job) (stage : Stage)
  | drained (kind : Kind) (out : List Token)
  | done
  deriving DecidableEq, Repr

def Job.finish (kind : Kind) (queue : List Token) : Job → Frame
  | .push _ => .done
  | .drain => .drained kind queue

def Frame.arc : Frame → Option Nat
  | .read r | .take r | .taken r _ => some r
  | _ => none

/-- `handed` is what `take` and the drains have returned so far. -/
structure State where
  resources : List Resource
  queue : Kind → List Token
  lock : Kind → Option Nat
  calls : List Frame
  handed : Kind → List Token

def start : State := ⟨[], fun _ => [], fun _ => none, [], fun _ => []⟩

def State.goto (s : State) (i : Nat) (f : Frame) : State := { s with calls := s.calls.set i f }

def State.spawn (s : State) (f : Frame) : State := { s with calls := s.calls ++ [f] }

def State.setLock (s : State) (kind : Kind) (owner : Option Nat) : State :=
  { s with lock := Function.update s.lock kind owner }

def State.setQueue (s : State) (kind : Kind) (queue : List Token) : State :=
  { s with queue := Function.update s.queue kind queue }

def State.setResource (s : State) (r : Nat) (res : Resource) : State :=
  { s with resources := s.resources.set r res }

def State.hand (s : State) (kind : Kind) (out : List Token) : State :=
  { s with handed := Function.update s.handed kind (s.handed kind ++ out) }

def State.swap (s : State) (r : Nat) (res : Resource) : State :=
  s.setResource r { res with released := true }

/-- What the destruction of a resource runs; `Drop for ExecutableRef` starts with the lock. -/
def Resource.destructor (res : Resource) (r : Nat) : Frame :=
  match res.kind with
  | .tensor => .drop r
  | .executable => .mutex .executable (.push ⟨r, res.entry⟩) .waiting

/-- The next access of the call `i`. It waits while another one has the mutex. -/
def State.advance (s : State) (i : Nat) : Frame → Option State
  | .read _ => some (s.goto i .done)
  | .take r => s.resources[r]?.map fun res =>
      (s.swap r res).goto i (.taken r (if res.released then none else some ⟨r, res.entry⟩))
  | .taken _ out => some ((s.hand .tensor out.toList).goto i .done)
  | .drop r => s.resources[r]?.map fun res =>
      (s.swap r res).goto i
        (if res.released then .done else .mutex .tensor (.push ⟨r, res.entry⟩) .waiting)
  | .mutex kind job .waiting =>
      if s.lock kind = none then some ((s.setLock kind (some i)).goto i (.mutex kind job .locked))
      else none
  | .mutex kind job .locked => some (s.goto i (.mutex kind job (.loaded (s.queue kind))))
  | .mutex kind job (.loaded queue) =>
      some ((s.setQueue kind (job.write queue)).goto i (.mutex kind job (.stored queue)))
  | .mutex kind job (.stored queue) => some ((s.setLock kind none).goto i (job.finish kind queue))
  | .drained kind out => some ((s.hand kind out).goto i .done)
  | .done => none

inductive Action where
  | new (p : Pid) (kind : Kind) (entry : Entry)
  | share (r : Nat) (p q : Pid)
  | forget (r : Nat) (p : Pid)
  | read (r : Nat) (p : Pid)
  | take (r : Nat) (p : Pid)
  | destroy (r : Nat)
  | drain (kind : Kind)
  | advance (i : Nat)
  deriving DecidableEq, Repr

/-- One step of any process. A resource is destroyed after its last term and the last call on it
    are gone. -/
def step (s : State) : Action → Option State
  | .new p kind entry => some { s with resources := s.resources ++ [⟨kind, entry, false, [p], true⟩] }
  | .share r p q => s.resources[r]?.bind fun res =>
      if p ∈ res.holders then some (s.setResource r { res with holders := q :: res.holders }) else none
  | .forget r p => s.resources[r]?.bind fun res =>
      if p ∈ res.holders then some (s.setResource r { res with holders := res.holders.erase p })
      else none
  | .read r p => s.resources[r]?.bind fun res =>
      if p ∈ res.holders then some (s.spawn (.read r)) else none
  | .take r p => s.resources[r]?.bind fun res =>
      if p ∈ res.holders ∧ res.kind = .tensor then some (s.spawn (.take r)) else none
  | .destroy r => s.resources[r]?.bind fun res =>
      if res.alive ∧ res.holders = [] ∧ ∀ f ∈ s.calls, f.arc ≠ some r then
        some ((s.setResource r { res with alive := false }).spawn (res.destructor r))
      else none
  | .drain kind => some (s.spawn (.mutex kind .drain .waiting))
  | .advance i => s.calls[i]?.bind (s.advance i)

def held (r : Nat) (ts : List Token) : Nat := ts.countP (·.ref = r)

def heldIn (r : Nat) (ts : Kind → List Token) : Nat := held r (ts .tensor) + held r (ts .executable)

def Job.before : Job → List Token
  | .push t => [t]
  | .drain => []

def Job.after (queue : List Token) : Job → List Token
  | .push _ => []
  | .drain => queue

def Frame.tokens : Frame → List Token
  | .taken _ out => out.toList
  | .mutex _ job (.stored queue) => job.after queue
  | .mutex _ job _ => job.before
  | .drained _ out => out
  | _ => []

def Frame.holds (r : Nat) (f : Frame) : Nat := held r f.tokens

def Resource.unclaimed (res : Resource) : Nat :=
  match res.kind with
  | .tensor => if res.released then 0 else 1
  | .executable => if res.alive then 1 else 0

def State.unclaimed (s : State) (r : Nat) : Nat := (s.resources[r]?.map Resource.unclaimed).getD 0

def State.inHand (s : State) (r : Nat) : Nat := tally (Frame.holds r) s.calls

def State.total (s : State) (r : Nat) : Nat :=
  s.unclaimed r + s.inHand r + heldIn r s.queue + heldIn r s.handed

def Frame.inside (k : Kind) : Frame → Bool
  | .mutex _ _ .waiting => false
  | .mutex kind _ _ => kind = k
  | _ => false

def Frame.loaded : Frame → Option (Kind × List Token)
  | .mutex kind _ (.loaded queue) => some (kind, queue)
  | _ => none

def State.sort (s : State) (r : Nat) : Option (Kind × Entry) :=
  s.resources[r]?.map fun res => (res.kind, res.entry)

def State.Genuine (s : State) (kind : Kind) (t : Token) : Prop := s.sort t.ref = some (kind, t.entry)

/-- The tokens of a call are of the kind of the queue it works on. -/
def State.Sound (s : State) : Frame → Prop
  | .take r | .drop r => ∃ entry, s.sort r = some (.tensor, entry)
  | .taken _ out => ∀ t ∈ out.toList, s.Genuine .tensor t
  | .mutex kind job (.stored queue) => (∀ t ∈ job.before, s.Genuine kind t) ∧ ∀ t ∈ queue,
      s.Genuine kind t
  | .mutex kind job _ => ∀ t ∈ job.before, s.Genuine kind t
  | .drained kind out => ∀ t ∈ out, s.Genuine kind t
  | _ => True

/-- Everything outside the resources is an entry of one of them, of the kind of its place. -/
structure Sorted (s : State) : Prop where
  sound : ∀ f ∈ s.calls, s.Sound f
  queued : ∀ k, ∀ t ∈ s.queue k, s.Genuine k t
  handed : ∀ k, ∀ t ∈ s.handed k, s.Genuine k t

structure Inv (s : State) : Prop extends Sorted s where
  conserved : ∀ r, s.total r = if (s.sort r).isSome then 1 else 0
  locks : ∀ k i, s.lock k = some i ↔ ∃ f, s.calls[i]? = some f ∧ f.inside k = true
  loaded : ∀ (i : Nat) (f : Frame) (k : Kind) (q : List Token), s.calls[i]? = some f →
     f.loaded = some (k, q) → s.queue k = q

section
variable {s s' : State} {r x i : Nat} {f f' : Frame} {res res' : Resource} {kind : Kind}

@[simp] theorem held_nil : held r [] = 0 := rfl

@[simp] theorem held_append (ts ts' : List Token) : held r (ts ++ ts') = held r ts + held r ts' :=
  List.countP_append

theorem job_balance (job : Job) (queue : List Token) :
    held r (job.write queue) + held r (job.after queue) = held r queue + held r job.before := by
  cases job with
  | push t => simp [Job.write, Job.after, Job.before]
  | drain => simp [Job.write, Job.after, Job.before]

theorem heldIn_update (ts : Kind → List Token) (kind : Kind) (new : List Token) :
    heldIn r (Function.update ts kind new) + held r (ts kind) = heldIn r ts + held r new := by
  cases kind <;> simp [heldIn] <;> omega

theorem inHand_goto (here : s.calls[i]? = some f) (f' : Frame) :
    (s.goto i f').inHand r + f.holds r = s.inHand r + f'.holds r :=
  tally_set here f'

theorem inHand_spawn (f : Frame) : (s.spawn f).inHand r = s.inHand r + f.holds r := by
  simp [State.inHand, State.spawn]

theorem unclaimed_set (there : s.resources[r]? = some res) (res' : Resource) :
    (s.setResource r res').unclaimed x = if x = r then res'.unclaimed else s.unclaimed x := by
  obtain ⟨bound, _⟩ := List.getElem?_eq_some_iff.mp there
  unfold State.unclaimed State.setResource
  by_cases same : x = r
  · subst same
    simp [bound]
  · simp [same, List.getElem?_set_ne (Ne.symm same)]

theorem unclaimed_at (there : s.resources[r]? = some res) : s.unclaimed r = res.unclaimed := by
  simp [State.unclaimed, there]

theorem sort_at (there : s.resources[r]? = some res) : s.sort r = some (res.kind, res.entry) := by
  simp [State.sort, there]

theorem sort_set (there : s.resources[r]? = some res) (kind : res'.kind = res.kind)
    (entry : res'.entry = res.entry) : (s.setResource r res').sort = s.sort := by
  obtain ⟨bound, _⟩ := List.getElem?_eq_some_iff.mp there
  funext x
  unfold State.sort State.setResource
  by_cases same : x = r
  · subst same
    rw [there]
    simp [bound, kind, entry]
  · simp [List.getElem?_set_ne (Ne.symm same)]

theorem genuine_kept {t : Token} (kept : ∀ x p, s.sort x = some p → s'.sort x = some p)
    (genuine : s.Genuine kind t) : s'.Genuine kind t :=
  kept _ _ genuine

theorem sound_kept (kept : ∀ x p, s.sort x = some p → s'.sort x = some p) (sound : s.Sound f) :
    s'.Sound f := by
  have all {k : Kind} {ts : List Token} (old : ∀ t ∈ ts, s.Genuine k t) : ∀ t ∈ ts, s'.Genuine k t :=
    fun t mem => genuine_kept kept (old t mem)
  cases f with
  | read r => trivial
  | done => trivial
  | take r => exact sound.imp fun entry => kept _ _
  | drop r => exact sound.imp fun entry => kept _ _
  | taken r out => exact all sound
  | drained k out => exact all sound
  | mutex k job stage =>
    cases stage with
    | stored queue => exact ⟨all sound.1, all sound.2⟩
    | _ => exact all sound

theorem genuine_of {t : Token} (same : s'.sort = s.sort) (genuine : s.Genuine kind t) :
    s'.Genuine kind t :=
  genuine_kept (fun _ _ there => same ▸ there) genuine

theorem sound_of (same : s'.sort = s.sort) (sound : s.Sound f) : s'.Sound f :=
  sound_kept (fun _ _ there => same ▸ there) sound

theorem calls_goto (here : s.calls[i]? = some f) (f' : Frame) (j : Nat) :
    (s.goto i f').calls[j]? = if j = i then some f' else s.calls[j]? := by
  obtain ⟨bound, _⟩ := List.getElem?_eq_some_iff.mp here
  by_cases same : j = i
  · subst same
    simp [State.goto, bound]
  · simp [State.goto, same, List.getElem?_set_ne (Ne.symm same)]

theorem mem_goto {g : Frame} (mem : g ∈ (s.goto i f').calls) : g = f' ∨ g ∈ s.calls :=
  (List.mem_or_eq_of_mem_set mem).symm

theorem unclaimed_swap (there : s.resources[r]? = some res) (kind : res.kind = .tensor) :
    (s.swap r res).unclaimed x = if x = r then 0 else s.unclaimed x := by
  rw [State.swap, unclaimed_set there]
  simp [Resource.unclaimed, kind]

theorem kind_of_sort {entry : Entry} (there : s.resources[r]? = some res)
    (sort : s.sort r = some (kind, entry)) : res.kind = kind ∧ res.entry = entry := by
  rw [sort_at there] at sort
  simpa using sort

theorem total_goto (here : s.calls[i]? = some f) (f' : Frame) :
    (s.goto i f').total x + f.holds x = s.total x + f'.holds x := by
  have hands := inHand_goto (r := x) here f'
  simp only [State.total, State.inHand, State.unclaimed, State.goto] at *
  omega

theorem total_hand (out : List Token) : (s.hand kind out).total x = s.total x + held x out := by
  have given := heldIn_update (r := x) s.handed kind (s.handed kind ++ out)
  simp only [State.total, State.inHand, State.unclaimed, State.hand, held_append] at *
  omega

theorem total_setQueue (queue : List Token) :
    (s.setQueue kind queue).total x + held x (s.queue kind) = s.total x + held x queue := by
  have written := heldIn_update (r := x) s.queue kind queue
  simp only [State.total, State.inHand, State.unclaimed, State.setQueue] at *
  omega

theorem total_swap (there : s.resources[r]? = some res) (kind : res.kind = .tensor) :
    (s.swap r res).total x + (if x = r then s.unclaimed r else 0) = s.total x := by
  have swapped := unclaimed_swap (x := x) there kind
  have rest : (s.swap r res).inHand x = s.inHand x ∧ (s.swap r res).queue = s.queue ∧
      (s.swap r res).handed = s.handed := ⟨rfl, rfl, rfl⟩
  simp only [State.total, rest.1, rest.2.1, rest.2.2, swapped]
  split
  · rename_i same
    rw [same]
    omega
  · omega

theorem held_claimed (there : s.resources[r]? = some res) (kind : res.kind = .tensor) :
    held x (if res.released then none else some (Token.mk r res.entry)).toList =
      if x = r then s.unclaimed r else 0 := by
  rw [unclaimed_at there, Resource.unclaimed, kind]
  by_cases same : x = r
  · subst same
    cases res.released <;> simp [held]
  · cases res.released <;> simp [held, same, Ne.symm same]

theorem holds_finish (job : Job) (queue : List Token) :
    (job.finish kind queue).holds x = held x (job.after queue) := by
  cases job <;> rfl

theorem total_advance (inv : Inv s) (here : s.calls[i]? = some f) (moved : s.advance i f = some s')
    (x : Nat) : s'.total x = s.total x := by
  have sound := inv.sound f (List.mem_of_getElem? here)
  unfold State.advance at moved
  split at moved
  · cases moved
    have hands := total_goto (x := x) here .done
    simp only [Frame.holds, Frame.tokens, held_nil] at hands
    omega
  · rename_i r
    obtain ⟨res, there, rfl⟩ := Option.map_eq_some_iff.mp moved
    obtain ⟨entry, sort⟩ := sound
    obtain ⟨kind, _⟩ := kind_of_sort there sort
    have hands := total_goto (s := s.swap r res) (x := x) here
      (.taken r (if res.released then none else some ⟨r, res.entry⟩))
    have swapped := total_swap (x := x) there kind
    simp only [Frame.holds, Frame.tokens, held_nil, held_claimed there kind] at hands
    omega
  · rename_i r out
    cases moved
    have hands := total_goto (s := s.hand .tensor out.toList) (x := x) here .done
    simp only [Frame.holds, Frame.tokens, held_nil, total_hand] at hands
    omega
  · rename_i r
    obtain ⟨res, there, rfl⟩ := Option.map_eq_some_iff.mp moved
    obtain ⟨entry, sort⟩ := sound
    obtain ⟨kind, _⟩ := kind_of_sort there sort
    have hands := total_goto (s := s.swap r res) (x := x) here
      (if res.released then .done else .mutex .tensor (.push ⟨r, res.entry⟩) .waiting)
    have swapped := total_swap (x := x) there kind
    have claimed := held_claimed (x := x) there kind
    cases flag : res.released <;>
      simp only [flag, if_true, if_false, Frame.holds, Frame.tokens, Job.before, held_nil,
        Option.toList, Bool.false_eq_true] at hands claimed ⊢ <;> omega
  · rename_i kind job
    split at moved
    · cases moved
      have hands := total_goto (s := s.setLock kind (some i)) (x := x) here (.mutex kind job .locked)
      have same : (s.setLock kind (some i)).total x = s.total x := rfl
      simp only [Frame.holds, Frame.tokens] at hands
      omega
    · cases moved
  · rename_i kind job
    cases moved
    have hands := total_goto (x := x) here (.mutex kind job (.loaded (s.queue kind)))
    simp only [Frame.holds, Frame.tokens] at hands
    omega
  · rename_i kind job queue
    cases moved
    have same := inv.loaded i _ kind queue here rfl
    have hands := total_goto (s := s.setQueue kind (job.write queue)) (x := x) here
      (.mutex kind job (.stored queue))
    have written : (s.setQueue kind (job.write queue)).total x + held x (s.queue kind) =
        s.total x + held x (job.write queue) := total_setQueue _
    have balance := job_balance (r := x) job queue
    simp only [Frame.holds, Frame.tokens] at hands
    rw [same] at written
    omega
  · rename_i kind job queue
    cases moved
    have hands := total_goto (s := s.setLock kind none) (x := x) here (job.finish kind queue)
    have same : (s.setLock kind none).total x = s.total x := rfl
    rw [holds_finish] at hands
    simp only [Frame.holds, Frame.tokens] at hands
    omega
  · rename_i kind out
    cases moved
    have hands := total_goto (s := s.hand kind out) (x := x) here .done
    simp only [Frame.holds, Frame.tokens, held_nil, total_hand] at hands
    omega
  · cases moved

theorem locks_goto (lock : Kind → Option Nat) (f' : Frame) (inv : Inv s) (here : s.calls[i]? = some f)
    (owns : ∀ k j, lock k = some j ↔ if j = i then f'.inside k = true else s.lock k = some j) (k j) :
    lock k = some j ↔ ∃ g, (s.goto i f').calls[j]? = some g ∧ g.inside k = true := by
  rw [owns, calls_goto here]
  by_cases same : j = i
  · simp [same]
  · simp only [same, if_false]
    exact inv.locks k j

theorem inside_of (inv : Inv s) (here : s.calls[i]? = some f) {k : Kind} (inside : f.inside k = true) :
    s.lock k = some i :=
  (inv.locks k i).mpr ⟨f, here, inside⟩

theorem locks_keep (f' : Frame) (inv : Inv s) (here : s.calls[i]? = some f)
    (same : ∀ k, f'.inside k = f.inside k)
    (k : Kind) (j : Nat) :
    s.lock k = some j ↔ ∃ g, (s.goto i f').calls[j]? = some g ∧ g.inside k = true := by
  refine locks_goto s.lock f' inv here (fun k j => ?_) k j
  split
  · rename_i eq
    rw [eq, inv.locks, same]
    simp [here]
  · rfl

theorem inside_finish (job : Job) (queue : List Token) (k : Kind) :
    (job.finish kind queue).inside k = false := by
  cases job <;> rfl

theorem locks_advance (inv : Inv s) (here : s.calls[i]? = some f) (moved : s.advance i f = some s')
    (k : Kind) (j : Nat) : s'.lock k = some j ↔ ∃ g, s'.calls[j]? = some g ∧ g.inside k = true := by
  unfold State.advance at moved
  split at moved
  · cases moved
    exact locks_keep .done inv here (fun _ => rfl) k j
  · obtain ⟨res, there, rfl⟩ := Option.map_eq_some_iff.mp moved
    exact locks_keep (.taken _ _) inv here (fun _ => rfl) k j
  · cases moved
    exact locks_keep .done inv here (fun _ => rfl) k j
  · obtain ⟨res, there, rfl⟩ := Option.map_eq_some_iff.mp moved
    exact locks_keep (if res.released then _ else _) inv here
      (fun _ => by cases res.released <;> rfl) k j
  · rename_i kind job
    split at moved
    · rename_i free
      cases moved
      refine locks_goto (Function.update s.lock kind (some i)) _ inv here (fun k' j' => ?_) k j
      by_cases mine : k' = kind
      · subst mine
        simp [free, Frame.inside, eq_comm]
      · rw [Function.update_of_ne mine]
        split
        · rename_i eq
          rw [eq, inv.locks]
          simp [here, Frame.inside, Ne.symm mine]
        · rfl
    · cases moved
  · cases moved
    exact locks_keep (.mutex _ _ (.loaded _)) inv here (fun _ => rfl) k j
  · cases moved
    exact locks_keep (.mutex _ _ (.stored _)) inv here (fun _ => rfl) k j
  · rename_i kind job queue
    cases moved
    refine locks_goto (Function.update s.lock kind none) _ inv here (fun k' j' => ?_) k j
    rw [inside_finish]
    by_cases mine : k' = kind
    · subst mine
      have owner : s.lock k' = some i := inside_of inv here (by simp [Frame.inside])
      simp [owner, eq_comm]
    · rw [Function.update_of_ne mine]
      split
      · rename_i eq
        rw [eq, inv.locks]
        simp [here, Frame.inside, Ne.symm mine]
      · rfl
  · cases moved
    exact locks_keep .done inv here (fun _ => rfl) k j
  · cases moved

theorem inside_of_loaded {k : Kind} {q : List Token} (read : f.loaded = some (k, q)) :
    f.inside k = true := by
  cases f with
  | mutex kind job stage =>
    cases stage with
    | loaded queue =>
      simp only [Frame.loaded, Option.some.injEq, Prod.mk.injEq] at read
      simp [Frame.inside, read.1]
    | _ => cases read
  | _ => cases read

theorem loaded_goto (queue : Kind → List Token) (f' : Frame) (inv : Inv s) (here : s.calls[i]? = some f)
    (own : ∀ k q, f'.loaded = some (k, q) → queue k = q)
    (others : ∀ k, f.inside k = false → queue k = s.queue k) (j : Nat) (g : Frame) (k : Kind)
    (q : List Token) (there : (s.goto i f').calls[j]? = some g) (read : g.loaded = some (k, q)) :
    queue k = q := by
  rw [calls_goto here] at there
  split at there
  · cases there
    exact own k q read
  · rename_i apart
    rw [others k, inv.loaded j g k q there read]
    by_contra inside
    have mine := inside_of inv here (Bool.of_not_eq_false inside)
    have its := inside_of inv there (inside_of_loaded read)
    exact apart (Option.some.inj (its.symm.trans mine))

theorem loaded_advance (inv : Inv s) (here : s.calls[i]? = some f) (moved : s.advance i f = some s') :
    ∀ (j : Nat) (g : Frame) (k : Kind) (q : List Token), s'.calls[j]? = some g →
      g.loaded = some (k, q) → s'.queue k = q := by
  have quiet (f' : Frame) (read : f'.loaded = none) :=
    loaded_goto s.queue f' inv here (fun _ _ some => nomatch read.symm.trans some) fun _ _ => rfl
  unfold State.advance at moved
  split at moved
  · cases moved
    exact quiet .done rfl
  · obtain ⟨res, there, rfl⟩ := Option.map_eq_some_iff.mp moved
    exact quiet (.taken _ _) rfl
  · cases moved
    exact quiet .done rfl
  · obtain ⟨res, there, rfl⟩ := Option.map_eq_some_iff.mp moved
    exact quiet (if res.released then _ else _) (by cases res.released <;> rfl)
  · split at moved
    · cases moved
      exact quiet (.mutex _ _ .locked) rfl
    · cases moved
  · rename_i kind job
    cases moved
    refine loaded_goto s.queue (.mutex kind job (.loaded _)) inv here (fun k q read => ?_)
      fun _ _ => rfl
    simp only [Frame.loaded, Option.some.injEq, Prod.mk.injEq] at read
    exact read.1 ▸ read.2
  · rename_i kind job queue
    cases moved
    have kept := loaded_goto (Function.update s.queue kind (job.write queue))
      (.mutex kind job (.stored queue)) inv here (fun _ _ => nofun) (fun k outside => by
        have apart : k ≠ kind := fun eq => by simp [Frame.inside, eq] at outside
        rw [Function.update_of_ne apart])
    exact kept
  · rename_i kind job queue
    cases moved
    exact quiet (job.finish kind queue) (by cases job <;> rfl)
  · cases moved
    exact quiet .done rfl
  · cases moved

/-! The kind and the entry of what is moved. -/

theorem sorted_of (sorted : Sorted s) (sort : s'.sort = s.sort) (calls : s'.calls = s.calls)
    (queue : s'.queue = s.queue) (handed : s'.handed = s.handed) : Sorted s' where
  sound f mem := sound_of sort (sorted.sound f (calls ▸ mem))
  queued k t mem := genuine_of sort (sorted.queued k t (by rwa [queue] at mem))
  handed k t mem := genuine_of sort (sorted.handed k t (by rwa [handed] at mem))

theorem sorted_goto (sorted : Sorted s) (sound : s.Sound f') : Sorted (s.goto i f') where
  sound g mem := by
    rcases mem_goto mem with rfl | old
    · exact sound_of rfl sound
    · exact sound_of rfl (sorted.sound g old)
  queued := sorted.queued
  handed := sorted.handed

theorem sorted_hand {out : List Token} (sorted : Sorted s) (genuine : ∀ t ∈ out, s.Genuine kind t) :
    Sorted (s.hand kind out) where
  sound f mem := sound_of rfl (sorted.sound f mem)
  queued := sorted.queued
  handed k t mem := by
    by_cases mine : k = kind
    · subst mine
      simp only [State.hand, Function.update_self, List.mem_append] at mem
      exact mem.elim (sorted.handed k t) (genuine t)
    · exact sorted.handed k t (by simpa [State.hand, Function.update_of_ne mine] using mem)

theorem sorted_setQueue {queue : List Token} (sorted : Sorted s)
    (genuine : ∀ t ∈ queue, s.Genuine kind t) : Sorted (s.setQueue kind queue) where
  sound f mem := sound_of rfl (sorted.sound f mem)
  queued k t mem := by
    by_cases mine : k = kind
    · subst mine
      simp only [State.setQueue, Function.update_self] at mem
      exact genuine t mem
    · exact sorted.queued k t (by simpa [State.setQueue, Function.update_of_ne mine] using mem)
  handed := sorted.handed

theorem sort_advance (moved : s.advance i f = some s') : s'.sort = s.sort := by
  unfold State.advance at moved
  split at moved
  case h_2 =>
    obtain ⟨res, there, rfl⟩ := Option.map_eq_some_iff.mp moved
    exact sort_set there rfl rfl
  case h_4 =>
    obtain ⟨res, there, rfl⟩ := Option.map_eq_some_iff.mp moved
    exact sort_set there rfl rfl
  case h_5 =>
    split at moved <;> cases moved
    rfl
  all_goals
    cases moved
  all_goals rfl

theorem sorted_advance (inv : Inv s) (here : s.calls[i]? = some f) (moved : s.advance i f = some s') :
    Sorted s' := by
  have sound := inv.sound f (List.mem_of_getElem? here)
  have sorted := inv.toSorted
  unfold State.advance at moved
  split at moved
  · cases moved
    exact sorted_goto sorted trivial
  · rename_i r
    obtain ⟨res, there, rfl⟩ := Option.map_eq_some_iff.mp moved
    obtain ⟨entry, sort⟩ := sound
    have same : (s.swap r res).sort = s.sort := sort_set there rfl rfl
    refine sorted_goto (sorted_of sorted same rfl rfl rfl) ?_
    obtain ⟨kind, rfl⟩ := kind_of_sort there sort
    intro t mem
    have eq : t = ⟨r, res.entry⟩ := by
      cases flag : res.released <;> simp [flag] at mem
      exact mem
    rw [eq]
    exact genuine_of same sort
  · cases moved
    exact sorted_goto (sorted_hand sorted sound) trivial
  · rename_i r
    obtain ⟨res, there, rfl⟩ := Option.map_eq_some_iff.mp moved
    obtain ⟨entry, sort⟩ := sound
    have same : (s.swap r res).sort = s.sort := sort_set there rfl rfl
    refine sorted_goto (sorted_of sorted same rfl rfl rfl) ?_
    obtain ⟨kind, rfl⟩ := kind_of_sort there sort
    cases res.released
    · intro t mem
      rw [List.mem_singleton.mp mem]
      exact genuine_of same sort
    · trivial
  · rename_i kind job
    split at moved
    · cases moved
      exact sorted_goto (sorted_of sorted rfl rfl rfl rfl) sound
    · cases moved
  · cases moved
    exact sorted_goto sorted sound
  · rename_i kind job queue
    cases moved
    have same := inv.loaded i _ kind queue here rfl
    have old : ∀ t ∈ queue, s.Genuine kind t := fun t mem => inv.queued kind t (by rwa [same])
    refine sorted_goto (sorted_setQueue sorted ?_) ⟨sound, old⟩
    intro t mem
    cases job with
    | push new =>
      rcases List.mem_append.mp mem with before | last
      · exact old t before
      · exact sound t last
    | drain => cases mem
  · rename_i kind job queue
    cases moved
    refine sorted_goto (sorted_of sorted rfl rfl rfl rfl) ?_
    cases job with
    | push t => trivial
    | drain => exact sound.2
  · cases moved
    exact sorted_goto (sorted_hand sorted sound) trivial
  · cases moved

theorem inv_advance (inv : Inv s) (here : s.calls[i]? = some f) (moved : s.advance i f = some s') :
    Inv s' where
  toSorted := sorted_advance inv here moved
  conserved x := by rw [total_advance inv here moved, inv.conserved, sort_advance moved]
  locks := locks_advance inv here moved
  loaded := loaded_advance inv here moved

theorem inv_calls {new : List Frame} (inv : Inv s) (calls : s'.calls = s.calls ++ new)
    (sort : s'.sort = s.sort) (queue : s'.queue = s.queue) (lock : s'.lock = s.lock)
    (handed : s'.handed = s.handed) (sound : ∀ g ∈ new, s.Sound g)
    (outside : ∀ g ∈ new, ∀ k, g.inside k = false) (total : ∀ x, s'.total x = s.total x) : Inv s' := by
  have split {j : Nat} {g : Frame} (there : s'.calls[j]? = some g) :
      s.calls[j]? = some g ∨ g ∈ new := by
    rw [calls, List.getElem?_append] at there
    split at there
    · exact Or.inl there
    · exact Or.inr (List.mem_of_getElem? there)
  have kept {j : Nat} {g : Frame} (there : s.calls[j]? = some g) : s'.calls[j]? = some g := by
    rw [calls, List.getElem?_append_left (List.getElem?_eq_some_iff.mp there).1, there]
  constructor
  · constructor
    · intro g mem
      rw [calls] at mem
      exact sound_of sort ((List.mem_append.mp mem).elim (inv.sound g) (sound g))
    · exact fun k t mem => genuine_of sort (inv.queued k t (by rwa [queue] at mem))
    · exact fun k t mem => genuine_of sort (inv.handed k t (by rwa [handed] at mem))
  · intro x
    rw [total, inv.conserved, sort]
  · intro k j
    rw [lock, inv.locks]
    constructor
    · rintro ⟨g, there, inside⟩
      exact ⟨g, kept there, inside⟩
    · rintro ⟨g, there, inside⟩
      refine ⟨g, (split there).resolve_right fun mem => ?_, inside⟩
      exact absurd inside (by simp [outside g mem k])
  · intro j g k q there read
    rw [queue]
    refine inv.loaded j g k q ((split there).resolve_right fun mem => ?_) read
    exact absurd (inside_of_loaded read) (by simp [outside g mem k])

theorem inv_spawn (inv : Inv s) (sound : s.Sound f) (outside : ∀ k, f.inside k = false)
    (empty : f.tokens = []) : Inv (s.spawn f) := by
  refine inv_calls inv rfl rfl rfl rfl rfl ?_ ?_ fun x => ?_
  · simpa using sound
  · simpa using outside
  · have hands := inHand_spawn (s := s) (r := x) f
    have none : f.holds x = 0 := by simp [Frame.holds, empty]
    simp only [State.total, State.inHand, State.unclaimed, State.spawn] at *
    omega

theorem total_set (there : s.resources[r]? = some res) (res' : Resource) :
    (s.setResource r res').total x + (if x = r then res.unclaimed else 0) =
      s.total x + if x = r then res'.unclaimed else 0 := by
  have new := unclaimed_set (x := x) there res'
  have old := unclaimed_at there
  have rest : (s.setResource r res').inHand x = s.inHand x ∧ (s.setResource r res').queue = s.queue ∧
      (s.setResource r res').handed = s.handed := ⟨rfl, rfl, rfl⟩
  simp only [State.total, rest.1, rest.2.1, rest.2.2, new]
  split
  · rename_i same
    rw [same, old]
    omega
  · omega

theorem inv_holders (inv : Inv s) (there : s.resources[r]? = some res) (holders : List Pid) :
    Inv (s.setResource r { res with holders }) := by
  refine inv_calls inv (List.append_nil _).symm (sort_set there rfl rfl) rfl rfl rfl nofun
    nofun fun x => ?_
  have moved := total_set (x := x) there { res with holders }
  have same : ({ res with holders } : Resource).unclaimed = res.unclaimed := rfl
  rw [same] at moved
  omega

theorem inv_destroy (inv : Inv s) (there : s.resources[r]? = some res) (alive : res.alive = true) :
    Inv ((s.setResource r { res with alive := false }).spawn (res.destructor r)) := by
  refine inv_calls inv rfl (sort_set there rfl rfl) rfl rfl rfl ?_ ?_ fun x => ?_
  · simp only [List.mem_singleton, forall_eq, Resource.destructor]
    cases kind : res.kind with
    | tensor => exact ⟨res.entry, by rw [sort_at there, kind]⟩
    | executable =>
      intro t mem
      rw [List.mem_singleton.mp mem, State.Genuine, sort_at there, kind]
  · simp only [List.mem_singleton, forall_eq, Resource.destructor]
    cases res.kind <;> exact fun _ => rfl
  · have hands := inHand_spawn (s := s.setResource r { res with alive := false }) (r := x)
      (res.destructor r)
    have moved := total_set (x := x) there { res with alive := false }
    have given : (if x = r then ({ res with alive := false } : Resource).unclaimed else 0) +
        (res.destructor r).holds x = if x = r then res.unclaimed else 0 := by
      cases kind : res.kind <;> by_cases same : x = r <;>
        simp [Resource.unclaimed, Resource.destructor, kind, same, alive, Frame.holds, Frame.tokens,
          Job.before, held, Ne.symm]
    simp only [State.total, State.inHand, State.unclaimed, State.spawn] at *
    omega

theorem sort_new (res : Resource) : ({ s with resources := s.resources ++ [res] } : State).sort x =
    if x = s.resources.length then some (res.kind, res.entry) else s.sort x := by
  unfold State.sort
  by_cases last : x = s.resources.length
  · simp [last]
  · simp only [last, if_false]
    by_cases old : x < s.resources.length
    · rw [List.getElem?_append_left old]
    · rw [List.getElem?_eq_none (by simp; omega), List.getElem?_eq_none (by omega)]

theorem unclaimed_new (res : Resource) :
    ({ s with resources := s.resources ++ [res] } : State).unclaimed x =
      if x = s.resources.length then res.unclaimed else s.unclaimed x := by
  unfold State.unclaimed
  by_cases last : x = s.resources.length
  · simp [last]
  · simp only [last, if_false]
    by_cases old : x < s.resources.length
    · rw [List.getElem?_append_left old]
    · rw [List.getElem?_eq_none (by simp; omega), List.getElem?_eq_none (by omega)]

theorem sort_last : s.sort s.resources.length = none := by simp [State.sort]

theorem inv_new (inv : Inv s) (res : Resource) (full : res.unclaimed = 1) :
    Inv { s with resources := s.resources ++ [res] } := by
  have kept (x : Nat) (p : Kind × Entry) (there : s.sort x = some p) :
      ({ s with resources := s.resources ++ [res] } : State).sort x = some p := by
    rw [sort_new, if_neg, there]
    intro last
    rw [last, sort_last] at there
    cases there
  constructor
  · constructor
    · exact fun f mem => sound_kept kept (inv.sound f mem)
    · exact fun k t mem => kept _ _ (inv.queued k t mem)
    · exact fun k t mem => kept _ _ (inv.handed k t mem)
  · intro x
    have before := inv.conserved x
    have entry := unclaimed_new (s := s) (x := x) res
    rw [sort_new]
    by_cases last : x = s.resources.length
    · subst last
      simp only [sort_last, Option.isSome_none, Bool.false_eq_true, if_false, State.total] at before
      rw [if_pos rfl, full] at entry
      simp only [State.total, State.inHand, if_true, Option.isSome_some, entry] at *
      omega
    · rw [if_neg last] at entry
      rw [if_neg last, ← before]
      simp only [State.total, State.inHand, entry]
  · exact inv.locks
  · exact inv.loaded

theorem inv_start : Inv start where
  sound _ mem := nomatch mem
  queued _ _ mem := nomatch mem
  handed _ _ mem := nomatch mem
  conserved _ := rfl
  locks k i := by simp [start]
  loaded _ _ _ _ there := nomatch there

theorem step_inv (s : State) (a : Action) (s' : State) (inv : Inv s) (moved : step s a = some s') :
    Inv s' := by
  cases a with
  | new p kind entry =>
    cases moved
    exact inv_new inv _ (by cases kind <;> rfl)
  | share r p q =>
    obtain ⟨res, there, moved⟩ := Option.bind_eq_some_iff.mp moved
    split at moved <;> cases moved
    exact inv_holders inv there _
  | forget r p =>
    obtain ⟨res, there, moved⟩ := Option.bind_eq_some_iff.mp moved
    split at moved <;> cases moved
    exact inv_holders inv there _
  | read r p =>
    obtain ⟨res, there, moved⟩ := Option.bind_eq_some_iff.mp moved
    split at moved <;> cases moved
    exact inv_spawn inv trivial (fun _ => rfl) rfl
  | take r p =>
    obtain ⟨res, there, moved⟩ := Option.bind_eq_some_iff.mp moved
    split at moved <;> cases moved
    rename_i guard
    exact inv_spawn inv ⟨res.entry, by rw [sort_at there, guard.2]⟩ (fun _ => rfl) rfl
  | destroy r =>
    obtain ⟨res, there, moved⟩ := Option.bind_eq_some_iff.mp moved
    split at moved <;> cases moved
    rename_i guard
    exact inv_destroy inv there guard.1
  | drain kind =>
    cases moved
    exact inv_spawn inv (fun _ => nofun) (fun _ => rfl) rfl
  | advance i =>
    obtain ⟨f, here, moved⟩ := Option.bind_eq_some_iff.mp moved
    exact inv_advance inv here moved

end

end NxTinygrad.NativeRefs
