import Mathlib.Data.List.Dedup
import NxTinygrad.Cluster

/- Buffer ids on their way between the registry of a worker and the TensorRefs of its clients:
   what a program does with the ids it is sent and with the ids it is to release. -/
namespace NxTinygrad.Handles
open Worker Client Cluster

def reads : Call → List Minted
  | .download h => [h]
  | .runNode hs => hs
  | .execute _ hs _ => hs
  | _ => []

def releases : Call → List Minted
  | .release hs => hs
  | _ => []

def mints : Call → Bool
  | .upload | .runNode _ | .execute _ _ _ => true
  | _ => false

/-- `build` asks for the generation while it has an id in hand. -/
def building : Call → Bool
  | .generation (.build _) => true
  | _ => false

def isRequest : Call → Bool
  | .info | .generation _ => false
  | _ => true

def handlesOf : Reply → List Minted
  | .id h => [h]
  | .outputs hs => hs
  | _ => []

def Answers : Call → Reply → Prop
  | .info, r => r = .hello
  | .generation _, r => ∃ g, r = .generation g
  | .upload, r => r = .error ∨ ∃ h, r = .id h
  | .download _, r => r = .error ∨ r = .blob
  | .runNode _, r => r = .error ∨ ∃ h, r = .id h
  | .compile _ _, r => r = .error ∨ ∃ e, r = .executable e
  | .execute _ _ _, r => r = .error ∨ ∃ hs, r = .outputs hs
  | .release _, r => r = .released
  | .releaseExecutable _, r => r = .released

/-- A generation in a reply of `w` is that of the process that handed out the ids `own` of `w`. -/
def Truthful (own : List (Name × Minted)) (w : Name) (r : Reply) : Prop :=
  ∀ g, r = .generation g → ∀ h, (w, h) ∈ own → h.issuer = g

/-- The program puts every id it is sent into a TensorRef, `own` being those it still has in hand,
    and releases nothing but what it `may`. A failed call is made with empty hands, except for that
    of `build`. -/
def Sound (may : Name → Minted → Prop) : List (Name × Minted) → Prog → Prop
  | own, .done => own = []
  | own, .raise _ => own = []
  | own, .call w c k => (building c = false → own = []) ∧ (∀ p ∈ own, p.1 = w) ∧
      (∀ h ∈ releases c, may w h) ∧ Sound may [] (k .error) ∧ ∀ r, Answers c r → Truthful own w r →
        Sound may (own ++ (handlesOf r).map (w, ·)) (k r)
  | own, .await w _ c k => (building c = false → own = []) ∧ Sound may [] (k .error) ∧
      ∀ r, Answers c r → Truthful own w r →
        Sound may (own ++ (handlesOf r).map (w, ·)) (k r)
  | own, .newRef w g h k => (w, h) ∈ own ∧ g = h.issuer ∧ Sound may (own.erase (w, h)) k
  | own, .newExecutable _ _ _ k => Sound may own k
  | _, .take _ _ => False
  | own, .lookup _ _ k => ∀ e, Sound may own (k e)
  | own, .put _ _ k => Sound may own k
  | own, .close _ k => Sound may own k
  | own, .whereis _ k => ∀ x, Sound may own (k x)

variable {may : Name → Minted → Prop} {own : List (Name × Minted)}

theorem sound_generation {w : Name} {why : Purpose} {k : Gen → Prog}
    (hands : building (.generation why) = false → own = []) (here : ∀ p ∈ own, p.1 = w)
    (cont : ∀ g, (∀ h, (w, h) ∈ own → h.issuer = g) → Sound may own (k g)) :
    Sound may own (generation w why k) := by
  refine ⟨hands, here, by simp [releases], rfl, ?_⟩
  rintro r ⟨g, rfl⟩ truthful
  simpa [handlesOf] using cont g (truthful g rfl)

theorem sound_ensureFresh {b : Backend} {k : Prog} (cont : Sound may [] k) :
    Sound may [] (ensureFresh b k) := by
  apply sound_generation (fun _ => rfl) nofun
  intro g _
  split
  · rfl
  · exact cont

theorem sound_toBinary {b : Backend} {k : Prog} (cont : Sound may [] k) :
    Sound may [] (toBinary b k) := by
  apply sound_ensureFresh
  refine ⟨fun _ => rfl, nofun, by simp [releases], rfl, ?_⟩
  rintro r (rfl | rfl) _
  · rfl
  · exact cont

theorem sound_build {w : Name} {h : Minted} {k : Prog} (here : ∀ p ∈ own, p.1 = w)
    (cont : Sound may own k) : Sound may ((w, h) :: own) (build h w k) := by
  apply sound_generation (by simp [building]) (List.forall_mem_cons.mpr ⟨rfl, here⟩)
  intro g truthful
  refine ⟨List.mem_cons_self, (truthful h List.mem_cons_self).symm, ?_⟩
  simpa using cont

theorem sound_minting {w : Name} {c : Call} {k : Prog}
    (one : ∀ r, Answers c r → r = .error ∨ ∃ h, r = .id h)
    (keeps : releases c = []) (cont : Sound may [] k) :
    Sound may [] (.call w c fun
      | .id h => build h w k
      | _ => .raise .worker) := by
  refine ⟨fun _ => rfl, nofun, by simp [keeps], rfl, ?_⟩
  intro r answer _
  rcases one r answer with rfl | ⟨h, rfl⟩
  · rfl
  · exact sound_build nofun cont

theorem sound_fromBinary {w : Name} {k : Prog} (cont : Sound may [] k) :
    Sound may [] (fromBinary w k) :=
  sound_minting (fun _ answer => answer) rfl cont

theorem sound_eagerInputs {w : Name} {k : List Minted → Prog} (cont : ∀ hs, Sound may [] (k hs))
    (inputs : List Tensor) (handles : List Minted) : Sound may [] (eagerInputs w k inputs handles) := by
  induction inputs generalizing handles with
  | nil => exact cont handles
  | cons t rest ih =>
    cases t with
    | host => exact ih handles
    | backend b =>
      simp only [eagerInputs]
      split
      · exact sound_ensureFresh (ih _)
      · exact sound_toBinary (ih _)

theorem sound_eager {inputs : List Tensor} {w : Name} {k : Prog} (cont : Sound may [] k) :
    Sound may [] (eager inputs w k) :=
  sound_eagerInputs (fun hs => sound_minting (fun r (answer : Answers (.runNode hs) r) => answer) rfl
    cont) inputs []

theorem sound_collectInputs {w : Name} {g : Gen} {k : List Minted → Prog}
    (cont : ∀ hs, Sound may [] (k hs)) (params : List Tensor) (handles : List Minted) :
    Sound may [] (collectInputs w g k params handles) := by
  induction params generalizing handles with
  | nil => exact cont handles
  | cons t rest ih =>
    cases t with
    | host => exact ih handles
    | backend b =>
      simp only [collectInputs]
      split
      · split
        · exact ih _
        · rfl
      · exact sound_toBinary (ih _)

theorem sound_decodeOutputs {w : Name} {k : Prog} (cont : Sound may [] k) (hs : List Minted) :
    Sound may (hs.map (w, ·)) (decodeOutputs w k hs) := by
  induction hs with
  | nil => exact cont
  | cons h rest ih =>
    apply sound_build _ ih
    intro p mem
    obtain ⟨x, _, rfl⟩ := List.mem_map.mp mem
    rfl

theorem sound_runOne {ctx : Ctx} {params : List Tensor} {n : Nat} {k : Prog} (cont : Sound may [] k) :
    Sound may [] (runOne ctx params n k) := by
  apply sound_generation (fun _ => rfl) nofun
  intro g _
  apply sound_collectInputs
  intro hs
  refine ⟨fun _ => rfl, nofun, by simp [releases], rfl, ?_⟩
  rintro r (rfl | ⟨os, rfl⟩) _
  · rfl
  · exact sound_decodeOutputs cont os

theorem sound_compileEntry {w : Name} {g : Gen} {graph : GraphId} {k : Entry → Prog}
    (cont : ∀ e, Sound may [] (k e)) : Sound may [] (compileEntry w g graph k) := by
  refine ⟨fun _ => rfl, nofun, by simp [releases], rfl, ?_⟩
  rintro r (rfl | ⟨e, rfl⟩) _
  · rfl
  · exact cont _

theorem sound_ensureCompiled {w : Name} {graph : GraphId} {cache : Bool} {k : Entry → Prog}
    (cont : ∀ e, Sound may [] (k e)) : Sound may [] (ensureCompiled w graph cache k) := by
  cases cache with
  | false => exact sound_generation (fun _ => rfl) nofun fun g _ => sound_compileEntry cont
  | true =>
    refine ⟨fun _ => rfl, nofun, by simp [releases], rfl, ?_⟩
    rintro r rfl _
    apply sound_generation (fun _ => rfl) nofun
    intro g _ entry
    cases entry with
    | none => exact sound_compileEntry fun e => cont e
    | some e => exact cont e

theorem sound_releaseGroups {α : Type} {command : List α → Call} {entries : List (Release α)} {k : Prog}
    (quiet : ∀ hs, building (command hs) = false ∧ (∀ r, Answers (command hs) r → handlesOf r = []))
    (allowed : ∀ w hs, (∀ x ∈ hs, ∃ r ∈ entries, r.worker = w ∧ r.handle = x) →
      ∀ h ∈ releases (command hs), may w h)
    (cont : Sound may [] k) (names : List Name) :
    Sound may [] (releaseGroups command entries k names) := by
  induction names with
  | nil => exact cont
  | cons w rest ih =>
    intro up
    cases up with
    | false => exact ih
    | true =>
      apply sound_generation (fun _ => rfl) nofun
      intro g _
      dsimp only
      split
      · refine ⟨fun _ => rfl, nofun, allowed w _ ?_, ih, ?_⟩
        · intro x mem
          obtain ⟨r, kept, rfl⟩ := List.mem_map.mp mem
          obtain ⟨mine, _⟩ := List.mem_filter.mp kept
          obtain ⟨there, here⟩ := List.mem_filter.mp mine
          exact ⟨r, there, by simpa using here, rfl⟩
        · intro r answer _
          rw [(quiet _).2 r answer]
          exact ih
      · exact ih

theorem sound_drain {tensors : List (Release Minted)} {executables : List (Release Executable)}
    (allowed : ∀ r ∈ tensors, may r.worker r.handle) : Sound may [] (drain tensors executables) := by
  have ended : Sound may [] .done := rfl
  have rest : Sound may []
      (releaseGroups .releaseExecutable executables .done (workerNames executables)) :=
    sound_releaseGroups (fun _ => ⟨rfl, by rintro r rfl; rfl⟩) (by simp [releases]) ended _
  apply sound_releaseGroups (fun _ => ⟨rfl, by rintro r rfl; rfl⟩) _ rest
  intro w hs group h mem
  obtain ⟨r, here, rfl, rfl⟩ := group h mem
  exact allowed r here

/-- What is left of `backend_deallocate` once the reference has been claimed or not. -/
def afterTake (b : Backend) (claimed : Bool) : Prog :=
  if claimed then
    generation b.worker .backendDeallocate fun g =>
      if b.generation = g then .call b.worker (.release [b.handle]) fun _ => .done else .done
  else .done

theorem sound_afterTake {b : Backend} (claimed : Bool) (allowed : may b.worker b.handle) :
    Sound may [] (afterTake b claimed) := by
  cases claimed with
  | false => rfl
  | true =>
    apply sound_generation (fun _ => rfl) nofun
    intro g _
    split
    · refine ⟨fun _ => rfl, nofun, by simpa [releases] using allowed, rfl, ?_⟩
      rintro r rfl _
      rfl
    · rfl

theorem sound_program {s : Cluster.State} {op : Op} (claims : ∀ b, op ≠ .backendDeallocate b)
    (allowed : op = .drain → ∀ r ∈ s.tensorQueue, may r.worker r.handle) :
    Sound may [] (op.program s) := by
  have ended : Sound may [] .done := rfl
  cases op with
  | fromBinary w => exact sound_fromBinary ended
  | toBinary b => exact sound_toBinary ended
  | backendDeallocate b => exact absurd rfl (claims b)
  | eager inputs w => exact sound_eager ended
  | compile w graph cache => exact sound_ensureCompiled fun e => ended
  | call ctx params n => exact sound_runOne ended
  | drain => exact sound_drain (allowed rfl)

/-- Whatever the workers answer, the program releases the id `h` of `w`; it calls only workers that
    are `up`. -/
def Owes (up : Name → Prop) (w : Name) (h : Minted) : Prog → Prop
  | .done => False
  | .raise _ => False
  | .call w' c k => up w' ∧ ((w' = w ∧ h ∈ releases c) ∨ ∀ r, Answers c r →
      (w' = w → ∀ g, r = .generation g → h.issuer = g) → Owes up w h (k r))
  | .await w' _ c k => ∀ r, Answers c r →
      (w' = w → ∀ g, r = .generation g → h.issuer = g) → Owes up w h (k r)
  | .newRef _ _ _ k => Owes up w h k
  | .newExecutable _ _ _ k => Owes up w h k
  | .take _ _ => False
  | .lookup _ _ k => ∀ e, Owes up w h (k e)
  | .put _ _ k => Owes up w h k
  | .close _ k => Owes up w h k
  | .whereis w' k => Owes up w h (k true) ∧ (w' ≠ w → Owes up w h (k false))

theorem owes_mono {up up' : Name → Prop} (le : ∀ w, up w → up' w) {w : Name} {h : Minted} {p : Prog}
    (owes : Owes up w h p) : Owes up' w h p := by
  induction p with
  | done => exact owes
  | raise e => exact owes
  | call w' c k ih =>
    refine ⟨le w' owes.1, ?_⟩
    rcases owes.2 with now | later
    · exact Or.inl now
    · exact Or.inr fun r answer truthful => ih r (later r answer truthful)
  | await w' t c k ih => exact fun r answer truthful => ih r (owes r answer truthful)
  | newRef w' g h' k ih => exact ih owes
  | newExecutable w' g e k ih => exact ih owes
  | take b k ih => exact owes
  | lookup key g k ih => exact fun e => ih e (owes e)
  | put key entry k ih => exact ih owes
  | close ctx k ih => exact ih owes
  | whereis w' k ih => exact ⟨ih true owes.1, fun other => ih false (owes.2 other)⟩

variable {up : Name → Prop}

theorem owes_generation {w w' : Name} {h : Minted} {why : Purpose} {k : Gen → Prog} (live : up w')
    (cont : ∀ g, (w' = w → h.issuer = g) → Owes up w h (k g)) : Owes up w h (generation w' why k) := by
  refine ⟨live, Or.inr ?_⟩
  rintro r ⟨g, rfl⟩ truthful
  exact cont g fun same => truthful same g rfl

theorem owes_releaseGroups {tensors : List (Release Minted)} {k : Prog} {r : Release Minted}
    (mem : r ∈ tensors) (fresh : r.generation = r.handle.issuer) {names : List Name}
    (live : ∀ w ∈ names, up w) (here : r.worker ∈ names) :
    Owes up r.worker r.handle (releaseGroups .release tensors k names) := by
  induction names with
  | nil => simp at here
  | cons w rest ih =>
    have later : w ≠ r.worker → Owes up r.worker r.handle (releaseGroups .release tensors k rest) := by
      intro other
      apply ih fun w mem => live w (by simp [mem])
      simpa [other.symm] using here
    refine ⟨?_, later⟩
    have upHere : up w := live w (by simp)
    apply owes_generation upHere
    intro g truthful
    dsimp only
    by_cases mine : w = r.worker
    · -- the group holds the entry, and the generation just read is the entry's
      have grouped : r.handle ∈ (((tensors.filter fun x => x.worker = w).filter
          fun x => x.generation = g).map (·.handle)) := by
        apply List.mem_map_of_mem
        simp only [List.mem_filter, decide_eq_true_eq]
        exact ⟨⟨mem, mine.symm⟩, fresh.trans (truthful mine)⟩
      rw [if_pos (List.ne_nil_of_mem grouped)]
      exact ⟨upHere, Or.inl ⟨mine, grouped⟩⟩
    · split
      · exact ⟨upHere, Or.inr fun _ _ _ => later mine⟩
      · exact later mine

theorem owes_drain {tensors : List (Release Minted)} {executables : List (Release Executable)}
    {r : Release Minted} (mem : r ∈ tensors) (fresh : r.generation = r.handle.issuer)
    (live : ∀ x ∈ tensors, up x.worker) : Owes up r.worker r.handle (drain tensors executables) := by
  apply owes_releaseGroups mem fresh
  · intro w named
    obtain ⟨x, there, rfl⟩ := List.mem_map.mp (List.mem_dedup.mp named)
    exact live x there
  · exact List.mem_dedup.mpr (List.mem_map_of_mem mem)

theorem owes_afterTake {b : Backend} (fresh : b.generation = b.handle.issuer) (live : up b.worker) :
    Owes up b.worker b.handle (afterTake b true) := by
  apply owes_generation live
  intro g truthful
  rw [if_pos (fresh.trans (truthful rfl))]
  exact ⟨live, Or.inl ⟨rfl, by simp [releases]⟩⟩

/-- The program may yet send `w` a request that works on `h`. -/
def Names (w : Name) (h : Minted) : Prog → Prop
  | .done => False
  | .raise _ => False
  | .call w' c k => (w' = w ∧ h ∈ reads c) ∨ ∃ r, Names w h (k r)
  | .await _ _ _ k => ∃ r, Names w h (k r)
  | .newRef _ _ _ k => Names w h k
  | .newExecutable _ _ _ k => Names w h k
  | .take _ k => ∃ x, Names w h (k x)
  | .lookup _ _ k => ∃ e, Names w h (k e)
  | .put _ _ k => Names w h k
  | .close _ k => Names w h k
  | .whereis _ k => ∃ x, Names w h (k x)

end NxTinygrad.Handles
