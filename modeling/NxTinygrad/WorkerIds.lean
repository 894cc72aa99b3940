import NxTinygrad.Lib.Runs
import Mathlib.Logic.Function.Basic

/- worker_ids.ex: the table of worker names and their numbers, which every process reads for itself. The
   server alone writes, and writes the two rows of a worker one after the other. -/
namespace NxTinygrad.WorkerIds
open Function (update)

variable {Name : Type}

structure Request (Name : Type) where
  caller : Nat
  ticket : Nat
  name : Name

inductive Phase (Name : Type) where
  | idle
  | missing (m : Request Name)
  | halfway (m : Request Name) (id : Nat)

/-- `ids` has the rows `{:name, name}` and `names` the rows `{:id, id}`. `waiting` has the ticket of the call a
    process is in, and `told` what `id_for` has returned, to any process. -/
structure State (Name : Type) where
  ids : Name → Option Nat
  names : Nat → Option Name
  next : Nat
  phase : Phase Name
  mailbox : List (Request Name)
  waiting : Nat → Option Nat
  ticket : Nat
  told : List (Name × Nat)

def init : State Name := ⟨fun _ => none, fun _ => none, 0, .idle, [], fun _ => none, 0, []⟩

inductive Label (Name : Type) where
  | idFor (caller : Nat) (name : Name)
  | exit (caller : Nat)
  | receive
  | insertName
  | insertId

def State.nameFor (s : State Name) (id : Nat) : Option Name := s.names id

def State.reply (s : State Name) (m : Request Name) (id : Nat) : State Name :=
  if s.waiting m.caller = some m.ticket then
    { s with waiting := update s.waiting m.caller none, told := s.told ++ [(m.name, id)] }
  else s

@[simp] theorem reply_ids (s : State Name) (m : Request Name) (id : Nat) : (s.reply m id).ids = s.ids := by
  unfold State.reply
  split <;> rfl

@[simp] theorem reply_names (s : State Name) (m : Request Name) (id : Nat) :
    (s.reply m id).names = s.names := by
  unfold State.reply
  split <;> rfl

variable [DecidableEq Name]

def step (s : State Name) : Label Name → Option (State Name)
  | .idFor c name =>
      if s.waiting c = none then match s.ids name with
        | some id => some { s with told := s.told ++ [(name, id)] }
        | none => some { s with
            mailbox := s.mailbox ++ [⟨c, s.ticket, name⟩]
            waiting := update s.waiting c (some s.ticket), ticket := s.ticket + 1 }
      else none
  | .exit c => some { s with waiting := update s.waiting c none }
  | .receive => match s.phase, s.mailbox with
      | .idle, m :: rest => match s.ids m.name with
        | some id => some ({ s with mailbox := rest }.reply m id)
        | none => some { s with mailbox := rest, phase := .missing m }
      | _, _ => none
  | .insertName => match s.phase with
      | .missing m => some { s with ids := update s.ids m.name (some s.next), phase := .halfway m s.next }
      | _ => none
  | .insertId => match s.phase with
      | .halfway m id => some ({ s with
          names := update s.names id (some m.name), next := id + 1, phase := .idle }.reply m id)
      | _ => none

/-- Between its two inserts the server has given a worker its number, but not yet the number its worker. -/
def Halfway (s : State Name) (name : Name) (id : Nat) : Prop :=
  ∃ m, s.phase = .halfway m id ∧ m.name = name

structure Inv (s : State Name) : Prop where
  back : ∀ name id, s.ids name = some id → s.names id = some name ∨ Halfway s name id
  forth : ∀ id name, s.names id = some name → s.ids name = some id
  fresh : ∀ id name, s.names id = some name → id < s.next
  missing : ∀ m, s.phase = .missing m → s.ids m.name = none
  halfway : ∀ m id, s.phase = .halfway m id → id = s.next ∧ s.ids m.name = some id
  told : ∀ p ∈ s.told, s.ids p.1 = some p.2

omit [DecidableEq Name] in
theorem inv_init : Inv (init : State Name) where
  back _ _ row := by cases row
  forth _ _ row := by cases row
  fresh _ _ row := by cases row
  missing _ phase := by cases phase
  halfway _ _ phase := by cases phase
  told _ mem := by cases mem

omit [DecidableEq Name] in
theorem inv_same {s t : State Name} (inv : Inv s) (ids : t.ids = s.ids) (names : t.names = s.names)
    (next : t.next = s.next) (phase : t.phase = s.phase) (told : ∀ p ∈ t.told, s.ids p.1 = some p.2) :
    Inv t := by
  obtain ⟨back, forth, fresh, missing, halfway, -⟩ := inv
  refine ⟨?_, ?_, ?_, ?_, ?_, ?_⟩
  · simpa only [ids, names, Halfway, phase] using back
  · simpa only [ids, names] using forth
  · simpa only [names, next] using fresh
  · simpa only [ids, phase] using missing
  · simpa only [ids, next, phase] using halfway
  · simpa only [ids] using told

omit [DecidableEq Name] in
theorem told_append {s : State Name} (inv : Inv s) {name : Name} {id : Nat}
    (row : s.ids name = some id) : ∀ p ∈ s.told ++ [(name, id)], s.ids p.1 = some p.2 := by
  intro p mem
  rcases List.mem_append.mp mem with old | new
  · exact inv.told p old
  · obtain rfl := List.mem_singleton.mp new
    exact row

omit [DecidableEq Name] in
theorem inv_reply {s : State Name} (inv : Inv s) {m : Request Name} {id : Nat}
    (row : s.ids m.name = some id) : Inv (s.reply m id) := by
  unfold State.reply
  split
  · exact inv_same inv rfl rfl rfl rfl (told_append inv row)
  · exact inv

theorem inv_insertName {s : State Name} (inv : Inv s) {m : Request Name} (phase : s.phase = .missing m) :
    Inv { s with ids := update s.ids m.name (some s.next), phase := .halfway m s.next } := by
  have other {name : Name} {id : Nat} (row : s.ids name = some id) : name ≠ m.name := by
    rintro rfl
    rw [inv.missing m phase] at row
    cases row
  have kept {name : Name} {id : Nat} (row : s.ids name = some id) :
      update s.ids m.name (some s.next) name = some id :=
    (Function.update_of_ne (other row) _ _).trans row
  refine ⟨fun name id here => ?_, fun id name here => kept (inv.forth id name here), inv.fresh,
    fun m' here => ?_, fun m' id here => ?_, fun p mem => kept (inv.told p mem)⟩
  · by_cases same : name = m.name
    · subst same
      cases (Function.update_self ..).symm.trans here
      exact .inr ⟨m, rfl, rfl⟩
    · rcases inv.back name id ((Function.update_of_ne same _ _).symm.trans here) with done | ⟨m', half, -⟩
      · exact .inl done
      · cases phase.symm.trans half
  · cases here
  · cases here
    exact ⟨rfl, Function.update_self ..⟩

omit [DecidableEq Name] in
theorem inv_insertId {s : State Name} (inv : Inv s) {m : Request Name} {id : Nat}
    (phase : s.phase = .halfway m id) :
    Inv { s with names := update s.names id (some m.name), next := id + 1, phase := .idle } := by
  obtain ⟨rfl, row⟩ := inv.halfway m id phase
  refine ⟨fun name i here => .inl ?_, fun i name here => ?_, fun i name here => ?_, fun m' here => ?_,
    fun m' i here => ?_, inv.told⟩
  · rcases inv.back name i here with done | ⟨m', half, rfl⟩
    · have low := inv.fresh i name done
      exact (Function.update_of_ne (Nat.ne_of_lt low) _ _).trans done
    · cases phase.symm.trans half
      exact Function.update_self ..
  · by_cases same : i = s.next
    · subst same
      cases (Function.update_self ..).symm.trans here
      exact row
    · exact inv.forth i name ((Function.update_of_ne same _ _).symm.trans here)
  · by_cases same : i = s.next
    · exact same ▸ Nat.lt_succ_self _
    · exact Nat.lt_succ_of_lt (inv.fresh i name ((Function.update_of_ne same _ _).symm.trans here))
  · cases here
  · cases here

theorem inv_step {s t : State Name} {a : Label Name} (inv : Inv s) (moved : step s a = some t) : Inv t := by
  cases a with
  | idFor c name =>
    simp only [step] at moved
    split at moved
    · split at moved
      · rename_i id row
        cases moved
        exact inv_same inv rfl rfl rfl rfl (told_append inv row)
      · cases moved
        exact inv_same inv rfl rfl rfl rfl inv.told
    · cases moved
  | exit c =>
    cases moved
    exact inv_same inv rfl rfl rfl rfl inv.told
  | receive =>
    simp only [step] at moved
    split at moved
    · rename_i m rest idle queue
      split at moved
      · rename_i id row
        cases moved
        refine @inv_reply _ { s with mailbox := rest } ?_ m id row
        exact inv_same inv rfl rfl rfl rfl inv.told
      · rename_i row
        cases moved
        refine ⟨fun name id here => ?_, inv.forth, inv.fresh, fun m' here => ?_, fun m' id here => ?_,
          inv.told⟩
        · rcases inv.back name id here with done | ⟨m', half, -⟩
          · exact .inl done
          · cases idle.symm.trans half
        · cases here
          exact row
        · cases here
    · cases moved
  | insertName =>
    simp only [step] at moved
    split at moved
    · rename_i m phase
      cases moved
      exact inv_insertName inv phase
    · cases moved
  | insertId =>
    simp only [step] at moved
    split at moved
    · rename_i m id phase
      cases moved
      exact inv_reply (inv_insertId inv phase) (inv.halfway m id phase).2
    · cases moved

theorem inv_run {t : State Name} (run : Runs.Run step Runs.anyStep init t) : Inv t :=
  Runs.run_invariant Inv run inv_init fun _ _ _ inv _ moved => inv_step inv moved

theorem rows_stay {s t : State Name} (inv : Inv s) {a : Label Name} (moved : step s a = some t) {name : Name}
    {id : Nat} (row : s.names id = some name) : t.names id = some name := by
  cases a with
  | idFor c name =>
    simp only [step] at moved
    split at moved
    · split at moved <;> cases moved <;> exact row
    · cases moved
  | exit c =>
    cases moved
    exact row
  | receive =>
    simp only [step] at moved
    split at moved
    · split at moved
      · cases moved
        rw [reply_names]
        exact row
      · cases moved
        exact row
    · cases moved
  | insertName =>
    simp only [step] at moved
    split at moved <;> cases moved
    exact row
  | insertId =>
    simp only [step] at moved
    split at moved
    · rename_i m new phase
      cases moved
      have low := inv.fresh id name row
      rw [reply_names]
      exact (Function.update_of_ne (by rw [(inv.halfway m new phase).1]; exact Nat.ne_of_lt low) _ _).trans
        row
    · cases moved

theorem rows_stay_run {s t : State Name} (inv : Inv s) (run : Runs.Run step Runs.anyStep s t) {name : Name}
    {id : Nat} (row : s.names id = some name) : t.names id = some name :=
  (Runs.run_invariant (fun u => Inv u ∧ u.names id = some name) run ⟨inv, row⟩
    fun _ _ _ before _ moved => ⟨inv_step before.1 moved, rows_stay before.1 moved before.2⟩).2

theorem told_stays {s t : State Name} (run : Runs.Run step Runs.anyStep s t) {p : Name × Nat}
    (mem : p ∈ s.told) : p ∈ t.told := by
  have reply {u : State Name} (m : Request Name) (id : Nat) (mem : p ∈ u.told) :
      p ∈ (u.reply m id).told := by
    unfold State.reply
    split
    · exact List.mem_append_left _ mem
    · exact mem
  refine Runs.run_invariant (fun u => p ∈ u.told) run mem fun u a v mem _ moved => ?_
  cases a with
  | idFor c name =>
    simp only [step] at moved
    split at moved
    · split at moved <;> cases moved
      · exact List.mem_append_left _ mem
      · exact mem
    · cases moved
  | exit c =>
    cases moved
    exact mem
  | receive =>
    simp only [step] at moved
    split at moved
    · split at moved <;> cases moved
      · exact reply _ _ mem
      · exact mem
    · cases moved
  | insertName =>
    simp only [step] at moved
    split at moved <;> cases moved
    exact mem
  | insertId =>
    simp only [step] at moved
    split at moved <;> cases moved
    exact reply _ _ mem

omit [DecidableEq Name] in
theorem one_name {s : State Name} (inv : Inv s) {name name' : Name} {id : Nat}
    (row : s.ids name = some id) (row' : s.ids name' = some id) : name = name' := by
  have low {n : Name} (there : s.names id = some n) {m : Request Name} (half : s.phase = .halfway m id) :
      False := by
    have same := (inv.halfway m id half).1
    have bound := inv.fresh id n there
    omega
  rcases inv.back name id row with done | ⟨m, half, rfl⟩
  · rcases inv.back name' id row' with done' | ⟨m', half', rfl⟩
    · exact Option.some.inj (done.symm.trans done')
    · exact (low done half').elim
  · rcases inv.back name' id row' with done' | ⟨m', half', rfl⟩
    · exact (low done' half).elim
    · cases half.symm.trans half'
      rfl

/-- In every order of steps of the server and of any number of processes, the numbers that `id_for` returns
    are the same for the same worker, at any time, and different for different ones. `name_for` gives the
    worker back for good, and never another one; it knows nothing of a number only from the server's first
    insert for the worker to the second, which is its next step. -/
theorem ids_identify {s t : State Name} (early : Runs.Run step Runs.anyStep init s)
    (late : Runs.Run step Runs.anyStep s t) :
    (∀ p ∈ s.told, ∀ q ∈ t.told, p.1 = q.1 ↔ p.2 = q.2) ∧
    (∀ id name, s.nameFor id = some name → t.nameFor id = some name) ∧
    ∀ p ∈ t.told, (∀ name, t.nameFor p.2 = some name → name = p.1) ∧
      (t.nameFor p.2 = none → Halfway t p.1 p.2 ∧
        ∃ u, step t .insertId = some u ∧ u.nameFor p.2 = some p.1) := by
  have inv := inv_run early
  have inv' := inv_run (Runs.run_trans early late)
  refine ⟨fun p mem q mem' => ?_, fun id name row => rows_stay_run inv late row, fun p mem => ⟨?_, ?_⟩⟩
  · have row := inv'.told p (told_stays late mem)
    have row' := inv'.told q mem'
    constructor
    · intro same
      exact Option.some.inj (row.symm.trans (same ▸ row'))
    · intro same
      exact one_name inv' row (same ▸ row')
  · intro name there
    exact one_name inv' (inv'.forth p.2 name there) (inv'.told p mem)
  · intro none
    have half : Halfway t p.1 p.2 := by
      rcases inv'.back p.1 p.2 (inv'.told p mem) with done | half
      · cases none.symm.trans done
      · exact half
    obtain ⟨m, phase, name⟩ := half
    refine ⟨⟨m, phase, name⟩, _, by simp only [step, phase]; rfl, ?_⟩
    rw [State.nameFor, reply_names, ← name]
    exact Function.update_self ..

/-- One process asks for a worker's number, and a second one once the server has made the first insert. -/
def twoReaders : List (Label String) :=
  [.idFor 0 "default", .receive, .insertName, .idFor 1 "default"]

theorem twoReaders_told : ∃ s u : State String, Runs.follow step init twoReaders = some s ∧
    ("default", 0) ∈ s.told ∧ s.nameFor 0 = none ∧ step s .insertId = some u ∧
      u.nameFor 0 = some "default" := by
  have ends : (Runs.follow step init twoReaders).map (fun s => (s.told, s.nameFor 0)) =
      some ([("default", 0)], none) := by decide
  obtain ⟨s, done, fields⟩ := Option.map_eq_some_iff.mp ends
  have run := Runs.run_of_follow done
  have told : ("default", 0) ∈ s.told := by simp [(Prod.mk.inj fields).1]
  obtain ⟨-, u, moved, name⟩ := ((ids_identify run (.refl s)).2.2 _ told).2 (Prod.mk.inj fields).2
  exact ⟨s, u, done, told, (Prod.mk.inj fields).2, moved, name⟩

end NxTinygrad.WorkerIds
