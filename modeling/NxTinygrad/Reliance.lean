import NxTinygrad.Cluster

/- What a program takes for granted about a worker between two of its calls. A
   generation that was read, or an id that came back, is only as good as the process
   it came from; `Needs` says what the next call of a program to a worker counts on,
   and `Checked` that the program never counts on anything it has not seen. -/
namespace NxTinygrad.Reliance
open Worker Client Cluster

/-- Which facts are watched: that operand ids, ids about to be stored in a TensorRef,
    the generation about to be stored with an executable, and executable ids belong to
    the process that is running. -/
structure Relied where
  operands : Prop
  records : Prop
  entries : Prop
  executables : Prop

inductive Fact where
  | generation (g : Gen)
  | executable (e : Executable)

def Fact.Holds (srv : Server) : Fact → Prop
  | .generation g => g = srv.generation
  | .executable e => Issued srv e

def Relied.call (R : Relied) : Call → Fact → Prop
  | .generation (.build h), f => R.records ∧ f = .generation h.issuer
  | .compile _ read, f => R.entries ∧ f = .generation read
  | .execute e hs _, f =>
      (R.executables ∧ f = .executable e) ∨ (R.operands ∧ ∃ h ∈ hs, f = .generation h.issuer)
  | .download h, f => R.operands ∧ f = .generation h.issuer
  | .runNode hs, f => R.operands ∧ ∃ h ∈ hs, f = .generation h.issuer
  | .release hs, f => R.operands ∧ ∃ h ∈ hs, f = .generation h.issuer
  | _, _ => False

/-- The next thing the program does with worker `w` counts on `f`. -/
def Needs (R : Relied) (w : Name) : Prog → Fact → Prop
  | .done, _ => False
  | .raise _, _ => False
  | .call w' c k, f => (w' = w ∧ R.call c f) ∨ (w' ≠ w ∧ ∃ r, Needs R w (k r) f)
  | .await w' _ _ k, f => w' ≠ w ∧ ∃ r, Needs R w (k r) f
  | .newRef _ _ _ k, f => Needs R w k f
  | .newExecutable _ _ _ k, f => Needs R w k f
  | .take _ k, f => ∃ x, Needs R w (k x) f
  | .lookup key read k, f =>
      (R.executables ∧ key.worker = w ∧ f = .generation read) ∨ Needs R w (k none) f
  | .put key entry k, f =>
      (R.executables ∧ key.worker = w ∧ f = .executable entry.executable) ∨ Needs R w k f
  | .close ctx k, f =>
      (R.executables ∧ ctx.worker = w ∧ f = .executable ctx.executable) ∨ Needs R w k f
  | .whereis _ k, f => ∃ x, Needs R w (k x) f

def Quiet (R : Relied) (k : Prog) : Prop := ∀ w f, ¬ Needs R w k f

/-- What is known when an operation starts: the generation of every worker, a bound on
    all generations so far, and the closure being called. -/
structure Origin where
  base : Name → Option Gen
  bound : Gen
  pin : Option Ctx

/-- `srv` can answer for `w` during the operation: `w` has not restarted, or it has a
    generation no older reference can carry; the worker of a pinned closure stays. -/
structure Origin.Allows (o : Origin) (R : Relied) (w : Name) (srv : Server) : Prop where
  same_or_newer : o.base w = some srv.generation ∨ o.bound < srv.generation
  pinned : ∀ ctx, o.pin = some ctx → R.executables → ctx.worker = w → Issued srv ctx.executable

/-- Every answer of a live worker leaves the program counting only on what that worker
    bears out, a failed call leaves it counting on nothing, and everything it stores is
    true. `seen` bounds the generation numbers read so far. -/
def Checked (R : Relied) (o : Origin) : Gen → Prog → Prop
  | _, .done => True
  | _, .raise _ => True
  | seen, .call w c k =>
      (∀ srv r, r.From srv c → (∀ f, R.call c f → f.Holds srv) → o.Allows R w srv →
        (∀ f, Needs R w (k r) f → f.Holds srv) ∧ Checked R o (max seen srv.generation) (k r)) ∧
      Quiet R (k .error) ∧ Checked R o seen (k .error)
  | _, .await _ _ _ _ => False
  | seen, .newRef _ g h k => (R.records → g = h.issuer) ∧ g ≤ seen ∧ Checked R o seen k
  | seen, .newExecutable _ g e k => (R.entries → g = e.issuer) ∧ Checked R o seen k
  | seen, .take _ k => ∀ x, Checked R o seen (k x)
  | seen, .lookup key g k => Checked R o seen (k none) ∧
      ∀ e : Entry, e.generation = g → e.executable.graph = key.graph →
        (∀ w f, Needs R w (k (some e)) f →
          R.executables ∧ w = key.worker ∧ f = .executable e.executable) ∧
        Checked R o seen (k (some e))
  | seen, .put key entry k => (R.entries → entry.generation = entry.executable.issuer) ∧
      entry.generation ≤ seen ∧ entry.executable.graph = key.graph ∧ Checked R o seen k
  | seen, .close ctx k => ctx.executable.graph = ctx.graph ∧ Checked R o seen k
  | seen, .whereis _ k => ∀ x, Checked R o seen (k x)

variable {R : Relied} {o : Origin}

theorem quiet_raise {error : ClientError} : Quiet R (.raise error) := fun _ _ no => no

theorem needs_generation {w w' : Name} {why : Purpose} {k : Gen → Prog} {f : Fact}
    (h : Needs R w (generation w' why k) f) :
    (w' = w ∧ R.call (.generation why) f) ∨ (w' ≠ w ∧ ∃ g, Needs R w (k g) f) := by
  rcases h with same | ⟨other, r, inner⟩
  · exact Or.inl same
  · cases r with
    | generation g => exact Or.inr ⟨other, g, inner⟩
    | _ => exact inner.elim

theorem checked_generation {seen : Gen} {w : Name} {why : Purpose} {k : Gen → Prog}
    (h : ∀ srv, (∀ f, R.call (.generation why) f → f.Holds srv) → o.Allows R w srv →
      (∀ f, Needs R w (k srv.generation) f → f.Holds srv) ∧
        Checked R o (max seen srv.generation) (k srv.generation)) :
    Checked R o seen (generation w why k) := by
  refine ⟨fun srv r from_srv relied allowed => ?_, quiet_raise, trivial⟩
  cases r with
  | generation g =>
    have same : g = srv.generation := from_srv
    subst same
    exact h srv relied allowed
  | _ => exact ⟨fun _ no => no.elim, trivial⟩

theorem needs_ensureFresh {w : Name} {b : Backend} {k : Prog} {f : Fact}
    (h : Needs R w (ensureFresh b k) f) : b.worker ≠ w ∧ Needs R w k f := by
  rcases needs_generation h with ⟨_, none⟩ | ⟨other, g, inner⟩
  · exact none.elim
  · refine ⟨other, ?_⟩
    split at inner
    · exact inner.elim
    · exact inner

theorem checked_ensureFresh {seen : Gen} {b : Backend} {k : Prog}
    (h : ∀ srv, b.generation = srv.generation → o.Allows R b.worker srv →
      (∀ f, Needs R b.worker k f → f.Holds srv) ∧ Checked R o (max seen srv.generation) k) :
    Checked R o seen (ensureFresh b k) := by
  apply checked_generation
  intro srv _ allowed
  split
  · exact ⟨fun _ no => no.elim, trivial⟩
  · rename_i same
    have eq : srv.generation = b.generation := by simpa using same
    exact h srv eq.symm allowed

theorem needs_toBinary {w : Name} {b : Backend} {k : Prog} {f : Fact}
    (h : Needs R w (toBinary b k) f) : b.worker ≠ w ∧ Needs R w k f := by
  obtain ⟨other, inner⟩ := needs_ensureFresh h
  rcases inner with ⟨same, _⟩ | ⟨_, r, inner⟩
  · exact absurd same other
  · cases r with
    | blob => exact ⟨other, inner⟩
    | _ => exact inner.elim

theorem checked_toBinary {seen : Gen} {b : Backend} {k : Prog}
    (fresh : R.operands → b.generation = b.handle.issuer)
    (needs : ∀ f, ¬ Needs R b.worker k f) (h : ∀ seen, Checked R o seen k) :
    Checked R o seen (toBinary b k) := by
  apply checked_ensureFresh
  intro srv current _
  refine ⟨?_, ?_, quiet_raise, trivial⟩
  · rintro f (⟨_, on, rfl⟩ | ⟨other, _⟩)
    · exact (fresh on).symm.trans current
    · exact absurd rfl other
  · intro srv r _ _ _
    cases r with
    | blob => exact ⟨fun f no => (needs f no).elim, h _⟩
    | _ => exact ⟨fun _ no => no.elim, trivial⟩

theorem needs_build {w w' : Name} {h : Minted} {k : Prog} {f : Fact}
    (need : Needs R w (build h w' k) f) :
    (w' = w ∧ R.records ∧ f = .generation h.issuer) ∨ (w' ≠ w ∧ Needs R w k f) := by
  rcases needs_generation need with same | ⟨other, _, inner⟩
  · exact Or.inl same
  · exact Or.inr ⟨other, inner⟩

theorem checked_build {seen : Gen} {w : Name} {h : Minted} {k : Prog}
    (needs : ∀ f, Needs R w k f → R.records ∧ f = .generation h.issuer)
    (cont : ∀ seen, Checked R o seen k) : Checked R o seen (build h w k) := by
  apply checked_generation
  intro srv relied _
  have read : R.records → h.issuer = srv.generation := fun on => relied _ ⟨on, rfl⟩
  refine ⟨fun f need => ?_, fun on => (read on).symm, Nat.le_max_right _ _, cont _⟩
  obtain ⟨on, rfl⟩ := needs f need
  exact read on

theorem needs_decodeOutputs {w w' : Name} {k : Prog} {os : List Minted} {f : Fact}
    (need : Needs R w (decodeOutputs w' k os) f) :
    (w' = w ∧ R.records ∧ ∃ h ∈ os, f = .generation h.issuer) ∨ Needs R w k f := by
  induction os with
  | nil => exact Or.inr need
  | cons h rest ih =>
    rcases needs_build need with ⟨same, on, eq⟩ | ⟨_, inner⟩
    · exact Or.inl ⟨same, on, h, by simp, eq⟩
    · rcases ih inner with ⟨same, on, h', mem, eq⟩ | more
      · exact Or.inl ⟨same, on, h', by simp [mem], eq⟩
      · exact Or.inr more

theorem checked_decodeOutputs {seen g : Gen} {w : Name} {k : Prog} {os : List Minted}
    (minted : ∀ h ∈ os, h.issuer = g) (needs : ∀ f, ¬ Needs R w k f)
    (cont : ∀ seen, Checked R o seen k) : Checked R o seen (decodeOutputs w k os) := by
  induction os generalizing seen with
  | nil => exact cont seen
  | cons h rest ih =>
    have tail : ∀ x ∈ rest, x.issuer = g := fun x mem => minted x (by simp [mem])
    apply checked_build
    · intro f need
      rcases needs_decodeOutputs need with ⟨_, on, x, mem, eq⟩ | more
      · exact ⟨on, by rw [eq, tail x mem, minted h (by simp)]⟩
      · exact (needs f more).elim
    · intro seen
      exact ih tail

/-- `k` counts on the worker it sends the collected handles to, and only for these
    handles or for `extra`. -/
def HandsOver (R : Relied) (w : Name) (extra : Fact → Prop) (k : List Minted → Prog) : Prop :=
  ∀ hs w' f, Needs R w' (k hs) f →
    w' = w ∧ (extra f ∨ R.operands ∧ ∃ h ∈ hs, f = .generation h.issuer)

def Vouched (R : Relied) (o : Origin) (bs : List Backend) : Prop :=
  ∀ b ∈ bs, (R.operands → b.generation = b.handle.issuer) ∧ b.generation ≤ o.bound

theorem needs_eagerInputs {w w' : Name} {k : List Minted → Prog} {inputs : List Tensor}
    {handles : List Minted} {f : Fact} (hands : HandsOver R w' (fun _ => False) k)
    (need : Needs R w (eagerInputs w' k inputs handles) f) :
    w = w' ∧ R.operands ∧ ∃ h ∈ handles, f = .generation h.issuer := by
  induction inputs generalizing handles with
  | nil => simpa using hands handles w f need
  | cons t rest ih =>
    cases t with
    | host => exact ih need
    | backend b =>
      simp only [eagerInputs] at need
      split at need
      · rename_i here
        obtain ⟨other, inner⟩ := needs_ensureFresh need
        exact absurd (here.trans (ih inner).1.symm) other
      · exact ih (needs_toBinary need).2

theorem checked_eagerInputs {seen : Gen} {w : Name} {k : List Minted → Prog}
    {inputs : List Tensor} {handles : List Minted} (hands : HandsOver R w (fun _ => False) k)
    (vouched : Vouched R o (backends inputs))
    (current : R.operands → ∀ x ∈ handles, o.base w = some x.issuer)
    (cont : ∀ hs seen, Checked R o seen (k hs)) :
    Checked R o seen (eagerInputs w k inputs handles) := by
  induction inputs generalizing handles seen with
  | nil => exact cont handles seen
  | cons t rest ih =>
    cases t with
    | host => exact ih vouched current
    | backend b =>
      have tail : Vouched R o (backends rest) := fun x mem => vouched x (by simp [backends, mem])
      have head := vouched b (by simp [backends])
      simp only [eagerInputs]
      split
      · rename_i here
        apply checked_ensureFresh
        intro srv same allowed
        -- an operand is older than the operation, so its generation answers only if the
        -- worker has not restarted since
        have base : o.base w = some srv.generation := by
          rcases allowed.same_or_newer with kept | newer
          · rw [← here]; exact kept
          · exact absurd head.2 (Nat.not_le_of_lt (same ▸ newer))
        have current' : R.operands → ∀ x ∈ handles ++ [b.handle], o.base w = some x.issuer := by
          intro on x mem
          rcases List.mem_append.mp mem with mem | mem
          · exact current on x mem
          · rw [List.mem_singleton.mp mem, base, ← same, head.1 on]
        refine ⟨fun f need => ?_, ih tail current'⟩
        obtain ⟨_, on, x, mem, rfl⟩ := needs_eagerInputs hands need
        exact Option.some.inj ((current' on x mem).symm.trans base)
      · rename_i elsewhere
        exact checked_toBinary head.1 (fun f need => elsewhere (needs_eagerInputs hands need).1)
          (fun _ => ih tail current)

theorem handsOver_runNode {w : Name} {k : Prog} (quiet : Quiet R k) :
    HandsOver R w (fun _ => False) fun handles => .call w (.runNode handles) fun
      | .id h => build h w k
      | _ => .raise .worker := by
  rintro hs w' f (⟨rfl, on, mem⟩ | ⟨other, r, inner⟩)
  · exact ⟨rfl, Or.inr ⟨on, mem⟩⟩
  · cases r with
    | id h =>
      rcases needs_build inner with ⟨same, _⟩ | ⟨_, more⟩
      · exact absurd same other
      · exact (quiet _ _ more).elim
    | _ => exact inner.elim

theorem checked_minting {seen : Gen} {w : Name} {c : Call} {k : Prog} (quiet : Quiet R k)
    (cont : ∀ seen, Checked R o seen k) :
    Checked R o seen (.call w c fun
      | .id h => build h w k
      | _ => .raise .worker) := by
  refine ⟨fun srv r from_srv _ _ => ?_, quiet_raise, trivial⟩
  cases r with
  | id h =>
    refine ⟨fun f need => ?_, checked_build (fun f need => (quiet _ _ need).elim) cont⟩
    rcases needs_build need with ⟨_, _, rfl⟩ | ⟨_, more⟩
    · exact from_srv
    · exact (quiet _ _ more).elim
  | _ => exact ⟨fun _ no => no.elim, trivial⟩

theorem quiet_eager {inputs : List Tensor} {w : Name} {k : Prog} (quiet : Quiet R k) :
    Quiet R (eager inputs w k) := by
  intro w' f need
  obtain ⟨_, _, _, none, _⟩ := needs_eagerInputs (handsOver_runNode quiet) need
  simp at none

theorem checked_eager {seen : Gen} {inputs : List Tensor} {w : Name} {k : Prog}
    (quiet : Quiet R k) (cont : ∀ seen, Checked R o seen k)
    (vouched : Vouched R o (backends inputs)) : Checked R o seen (eager inputs w k) :=
  checked_eagerInputs (handsOver_runNode quiet) vouched (by simp)
    (fun _ _ => checked_minting quiet cont)

theorem quiet_fromBinary {w : Name} {k : Prog} (quiet : Quiet R k) :
    Quiet R (fromBinary w k) := by
  rintro w' f (⟨_, none⟩ | ⟨other, r, inner⟩)
  · exact none.elim
  · cases r with
    | id h =>
      rcases needs_build inner with ⟨same, _⟩ | ⟨_, more⟩
      · exact other same
      · exact quiet _ _ more
    | _ => exact inner.elim

theorem quiet_toBinary {b : Backend} {k : Prog} (quiet : Quiet R k) :
    Quiet R (toBinary b k) := fun w f need => quiet w f (needs_toBinary need).2

theorem quiet_backendDeallocate {b : Backend} {k : Prog} (quiet : Quiet R k) :
    Quiet R (backendDeallocate b k) := by
  rintro w f ⟨claimed, need⟩
  cases claimed with
  | false => exact quiet _ _ need
  | true =>
    rcases needs_generation need with ⟨_, none⟩ | ⟨other, g, inner⟩
    · exact none.elim
    · split at inner
      · rcases inner with ⟨same, _⟩ | ⟨_, _, more⟩
        · exact other same
        · exact quiet _ _ more
      · exact quiet _ _ inner

theorem checked_backendDeallocate {seen : Gen} {b : Backend} {k : Prog} (quiet : Quiet R k)
    (cont : ∀ seen, Checked R o seen k) (fresh : R.operands → b.generation = b.handle.issuer) :
    Checked R o seen (backendDeallocate b k) := by
  intro claimed
  cases claimed with
  | false => exact cont _
  | true =>
    apply checked_generation
    intro srv _ _
    split
    · rename_i same
      refine ⟨?_, fun srv r _ _ _ => ⟨fun f need => (quiet _ _ need).elim, cont _⟩,
        quiet, cont _⟩
      rintro f (⟨_, on, x, mem, rfl⟩ | ⟨other, _⟩)
      · rw [List.mem_singleton.mp mem]
        exact (fresh on).symm.trans same
      · exact absurd rfl other
    · exact ⟨fun f need => (quiet _ _ need).elim, cont _⟩

theorem needs_collectInputs {w w' : Name} {read : Gen} {extra : Fact → Prop}
    {k : List Minted → Prog} {params : List Tensor} {handles : List Minted} {f : Fact}
    (hands : HandsOver R w' extra k) (fresh : R.operands → ∀ b ∈ backends params,
      b.generation = b.handle.issuer)
    (same : R.operands → ∀ x ∈ handles, x.issuer = read)
    (need : Needs R w (collectInputs w' read k params handles) f) :
    w = w' ∧ (extra f ∨ R.operands ∧ f = .generation read) := by
  induction params generalizing handles with
  | nil =>
    obtain ⟨eq, here | ⟨on, x, mem, rfl⟩⟩ := hands handles w f need
    · exact ⟨eq, Or.inl here⟩
    · exact ⟨eq, Or.inr ⟨on, by rw [same on x mem]⟩⟩
  | cons t rest ih =>
    cases t with
    | host => exact ih fresh same need
    | backend b =>
      have tail : R.operands → ∀ x ∈ backends rest, x.generation = x.handle.issuer :=
        fun on x mem => fresh on x (by simp [backends, mem])
      simp only [collectInputs] at need
      split at need
      · split at need
        · rename_i match_read
          refine ih tail (fun on x mem => ?_) need
          rcases List.mem_append.mp mem with mem | mem
          · exact same on x mem
          · rw [List.mem_singleton.mp mem, ← fresh on b (by simp [backends]), match_read]
        · exact need.elim
      · exact ih tail same (needs_toBinary need).2

theorem checked_collectInputs {seen read : Gen} {w : Name} {extra : Fact → Prop}
    {k : List Minted → Prog} {params : List Tensor} {handles : List Minted}
    (hands : HandsOver R w extra k) (fresh : R.operands → ∀ b ∈ backends params,
      b.generation = b.handle.issuer)
    (same : R.operands → ∀ x ∈ handles, x.issuer = read)
    (cont : ∀ hs seen, Checked R o seen (k hs)) :
    Checked R o seen (collectInputs w read k params handles) := by
  induction params generalizing handles seen with
  | nil => exact cont handles seen
  | cons t rest ih =>
    cases t with
    | host => exact ih fresh same
    | backend b =>
      have tail : R.operands → ∀ x ∈ backends rest, x.generation = x.handle.issuer :=
        fun on x mem => fresh on x (by simp [backends, mem])
      have head : R.operands → b.generation = b.handle.issuer :=
        fun on => fresh on b (by simp [backends])
      simp only [collectInputs]
      split
      · split
        · rename_i match_read
          refine ih tail (fun on x mem => ?_)
          rcases List.mem_append.mp mem with mem | mem
          · exact same on x mem
          · rw [List.mem_singleton.mp mem, ← head on, match_read]
        · trivial
      · rename_i elsewhere
        exact checked_toBinary head
          (fun f need => elsewhere (needs_collectInputs hands tail same need).1)
          (fun _ => ih tail same)

theorem handsOver_execute (ctx : Ctx) (n : Nat) {k : Prog} (quiet : Quiet R k) :
    HandsOver R ctx.worker (fun f => R.executables ∧ f = .executable ctx.executable)
      fun handles => .call ctx.worker (.execute ctx.executable handles n) fun
        | .outputs os => decodeOutputs ctx.worker k os
        | _ => .raise .worker := by
  rintro hs w' f (⟨rfl, relied⟩ | ⟨other, r, inner⟩)
  · exact ⟨rfl, relied⟩
  · cases r with
    | outputs os =>
      rcases needs_decodeOutputs inner with ⟨same, _⟩ | more
      · exact absurd same other
      · exact (quiet _ _ more).elim
    | _ => exact inner.elim

theorem quiet_runOne {ctx : Ctx} {params : List Tensor} {n : Nat} {k : Prog}
    (quiet : Quiet R k) (fresh : R.operands → ∀ b ∈ backends params,
      b.generation = b.handle.issuer) : Quiet R (runOne ctx params n k) := by
  intro w f need
  rcases needs_generation need with ⟨_, none⟩ | ⟨other, read, inner⟩
  · exact none.elim
  · exact other (needs_collectInputs (handsOver_execute ctx n quiet) fresh (by simp) inner).1.symm

theorem checked_runOne {seen : Gen} {ctx : Ctx} {params : List Tensor} {n : Nat} {k : Prog}
    (quiet : Quiet R k) (cont : ∀ seen, Checked R o seen k) (pinned : o.pin = some ctx)
    (fresh : R.operands → ∀ b ∈ backends params, b.generation = b.handle.issuer) :
    Checked R o seen (runOne ctx params n k) := by
  have hands := handsOver_execute ctx n quiet
  apply checked_generation
  intro srv _ allowed
  refine ⟨fun f need => ?_, checked_collectInputs hands fresh (by simp) ?_⟩
  · rcases (needs_collectInputs hands fresh (by simp) need).2 with ⟨on, rfl⟩ | ⟨_, rfl⟩
    · exact allowed.pinned ctx pinned on rfl
    · rfl
  · intro hs seen
    refine ⟨fun srv r from_srv _ _ => ?_, quiet_raise, trivial⟩
    cases r with
    | outputs os =>
      refine ⟨fun f need => ?_, checked_decodeOutputs from_srv (fun f => quiet _ f) cont⟩
      rcases needs_decodeOutputs need with ⟨_, _, h, mem, rfl⟩ | more
      · exact from_srv h mem
      · exact (quiet _ _ more).elim
    | _ => exact ⟨fun _ no => no.elim, trivial⟩

/-- `k` keeps the executable of the entry it is given, in the cache or in a closure. -/
def Keeps (R : Relied) (w : Name) (k : Entry → Prog) : Prop :=
  ∀ entry w' f, Needs R w' (k entry) f →
    w' = w ∧ R.executables ∧ f = .executable entry.executable

theorem keeps_close {w : Name} {graph : GraphId} {k : Prog} (quiet : Quiet R k) :
    Keeps R w fun entry => .close ⟨w, entry.executable, graph⟩ k := by
  rintro entry w' f (⟨on, same, eq⟩ | more)
  · exact ⟨same.symm, on, eq⟩
  · exact (quiet _ _ more).elim

theorem keeps_put {w : Name} {graph : GraphId} {k : Entry → Prog} (keeps : Keeps R w k) :
    Keeps R w fun entry => .put ⟨w, graph⟩ entry (k entry) := by
  rintro entry w' f (⟨on, same, eq⟩ | more)
  · exact ⟨same.symm, on, eq⟩
  · exact keeps entry w' f more

theorem needs_compileEntry {w w' : Name} {g : Gen} {graph : GraphId} {k : Entry → Prog}
    {f : Fact} (keeps : Keeps R w k) (need : Needs R w' (compileEntry w g graph k) f) :
    w' = w ∧ R.entries ∧ f = .generation g := by
  rcases need with ⟨same, relied⟩ | ⟨other, r, inner⟩
  · exact ⟨same.symm, relied⟩
  · cases r with
    | executable e => exact absurd (keeps ⟨g, e⟩ w' f inner).1.symm other
    | _ => exact inner.elim

theorem checked_compileEntry {seen : Gen} {w : Name} {g : Gen} {graph : GraphId}
    {k : Entry → Prog} (keeps : Keeps R w k) (read : g ≤ seen)
    (cont : ∀ e seen, (R.entries → g = e.issuer) → g ≤ seen → e.graph = graph →
      Checked R o seen (k ⟨g, e⟩)) :
    Checked R o seen (compileEntry w g graph k) := by
  refine ⟨fun srv r from_srv relied _ => ?_, quiet_raise, trivial⟩
  cases r with
  | executable e =>
    obtain ⟨issued, _, same⟩ := from_srv
    obtain ⟨rfl, rfl⟩ := Call.compile.inj same
    have current : R.entries → g = e.issuer :=
      fun on => (relied (.generation g) ⟨on, rfl⟩).trans issued.issuer.symm
    refine ⟨fun f need => ?_, current, cont e _ current (Nat.le_trans read (Nat.le_max_left _ _)) rfl⟩
    obtain ⟨_, _, rfl⟩ := keeps ⟨g, e⟩ w f need
    exact issued
  | _ => exact ⟨fun _ no => no.elim, trivial⟩

theorem quiet_ensureCompiled {w : Name} {graph : GraphId} {cache : Bool} {k : Entry → Prog}
    (keeps : Keeps R w k) : Quiet R (ensureCompiled w graph cache k) := by
  intro w' f need
  cases cache with
  | false =>
    rcases needs_generation need with ⟨_, none⟩ | ⟨other, read, inner⟩
    · exact none.elim
    · exact other (needs_compileEntry keeps inner).1.symm
  | true =>
    rcases need with ⟨_, none⟩ | ⟨other, r, inner⟩
    · exact none.elim
    · cases r with
      | hello =>
        rcases needs_generation inner with ⟨same, _⟩ | ⟨_, read, ⟨_, same, _⟩ | inner⟩
        · exact other same
        · exact other same
        · exact other (needs_compileEntry (keeps_put keeps) inner).1.symm
      | _ => exact inner.elim

theorem checked_ensureCompiled {seen : Gen} {w : Name} {graph : GraphId} {cache : Bool}
    {k : Entry → Prog} (keeps : Keeps R w k)
    (cont : ∀ entry seen, entry.executable.graph = graph → Checked R o seen (k entry)) :
    Checked R o seen (ensureCompiled w graph cache k) := by
  cases cache with
  | false =>
    apply checked_generation
    intro srv _ _
    refine ⟨fun f need => ?_, ?_⟩
    · rw [(needs_compileEntry keeps need).2.2]; rfl
    · exact checked_compileEntry keeps (Nat.le_max_right _ _) (fun e _ _ _ same => cont _ _ same)
  | true =>
    refine ⟨fun srv r _ _ _ => ?_, quiet_raise, trivial⟩
    cases r with
    | hello =>
      refine ⟨fun f need => ?_, ?_⟩
      · rcases needs_generation need with ⟨_, none⟩ | ⟨other, _⟩
        · exact none.elim
        · exact absurd rfl other
      · apply checked_generation
        intro srv _ _
        refine ⟨fun f need => ?_, ⟨?_, fun e _ same => ⟨fun w' f need => ?_, cont e _ same⟩⟩⟩
        · rcases need with ⟨_, _, rfl⟩ | inner
          · rfl
          · rw [(needs_compileEntry (keeps_put keeps) inner).2.2]; rfl
        · exact checked_compileEntry (keeps_put keeps) (Nat.le_max_right _ _)
            (fun e seen current bound same => ⟨current, bound, same, cont _ _ same⟩)
        · obtain ⟨same, on, eq⟩ := keeps e w' f need
          exact ⟨on, same, eq⟩
    | _ => exact ⟨fun _ no => no.elim, trivial⟩

theorem quiet_releaseGroups {α : Type} {command : List α → Call} {entries : List (Release α)}
    {names : List Name} {k : Prog} (quiet : Quiet R k) :
    Quiet R (releaseGroups command entries k names) := by
  induction names with
  | nil => exact quiet
  | cons w' rest ih =>
    rintro w f ⟨up, need⟩
    cases up with
    | false => exact ih _ _ need
    | true =>
      rcases needs_generation need with ⟨_, none⟩ | ⟨other, g, inner⟩
      · exact none.elim
      · dsimp only at inner
        split at inner
        · rcases inner with ⟨same, _⟩ | ⟨_, _, more⟩
          · exact other same
          · exact ih _ _ more
        · exact ih _ _ inner

theorem checked_releaseGroups {α : Type} {seen : Gen} {command : List α → Call}
    {entries : List (Release α)} {names : List Name} {k : Prog} (quiet : Quiet R k)
    (cont : ∀ seen, Checked R o seen k)
    (own : ∀ g f hs, (∀ h ∈ hs, ∃ r ∈ entries, r.generation = g ∧ r.handle = h) →
      R.call (command hs) f → f = .generation g) :
    Checked R o seen (releaseGroups command entries k names) := by
  induction names generalizing seen with
  | nil => exact cont _
  | cons w rest ih =>
    have still : Quiet R (releaseGroups command entries k rest) := quiet_releaseGroups quiet
    intro up
    cases up with
    | false => exact ih
    | true =>
      apply checked_generation
      intro srv _ _
      dsimp only
      split
      · refine ⟨?_, fun srv r _ _ _ => ⟨fun f need => (still _ _ need).elim, ih⟩, still, ih⟩
        rintro f (⟨_, relied⟩ | ⟨other, _⟩)
        · -- the group keeps only the entries of the generation just read
          rw [own srv.generation f _ (fun h mem => ?_) relied]
          · rfl
          · obtain ⟨r, kept, rfl⟩ := List.mem_map.mp mem
            obtain ⟨mine, current⟩ := List.mem_filter.mp kept
            exact ⟨r, (List.mem_filter.mp mine).1, by simpa using current, rfl⟩
        · exact absurd rfl other
      · exact ⟨fun f need => (still _ _ need).elim, ih⟩

theorem quiet_done : Quiet R .done := fun _ _ no => no

theorem quiet_drain {tensors : List (Release Minted)} {executables : List (Release Executable)} :
    Quiet R (drain tensors executables) :=
  quiet_releaseGroups (quiet_releaseGroups quiet_done)

theorem checked_drain {seen : Gen} {tensors : List (Release Minted)}
    {executables : List (Release Executable)}
    (fresh : R.operands → ∀ r ∈ tensors, r.generation = r.handle.issuer) :
    Checked R o seen (drain tensors executables) := by
  have ended : ∀ seen, Checked R o seen (releaseGroups .releaseExecutable executables .done
      (workerNames executables)) :=
    fun _ => checked_releaseGroups quiet_done (fun _ => trivial) (fun _ _ _ _ no => no.elim)
  refine checked_releaseGroups (quiet_releaseGroups quiet_done) ended ?_
  rintro g f hs group ⟨on, h, mem, rfl⟩
  obtain ⟨r, here, rfl, rfl⟩ := group h mem
  rw [fresh on r here]

theorem quiet_program {s : State} {op : Op}
    (fresh : R.operands → ∀ b ∈ op.uses, b.generation = b.handle.issuer) :
    Quiet R (op.program s) := by
  cases op with
  | fromBinary w => exact quiet_fromBinary quiet_done
  | toBinary b => exact quiet_toBinary quiet_done
  | backendDeallocate b => exact quiet_backendDeallocate quiet_done
  | eager inputs w => exact quiet_eager quiet_done
  | compile w graph cache => exact quiet_ensureCompiled (keeps_close quiet_done)
  | call ctx params n => exact quiet_runOne quiet_done fresh
  | drain => exact quiet_drain

theorem checked_program {seen : Gen} {s : State} {op : Op} (pinned : o.pin = op.pin)
    (vouched : Vouched R o op.uses)
    (queued : R.operands → ∀ r ∈ s.tensorQueue, r.generation = r.handle.issuer) :
    Checked R o seen (op.program s) := by
  have ended : ∀ seen, Checked R o seen .done := fun _ => trivial
  have fresh : R.operands → ∀ b ∈ op.uses, b.generation = b.handle.issuer :=
    fun on b mem => (vouched b mem).1 on
  cases op with
  | fromBinary w => exact checked_minting quiet_done ended
  | toBinary b =>
    exact checked_toBinary (vouched b (by simp [Op.uses])).1 (fun _ no => no) ended
  | backendDeallocate b =>
    exact checked_backendDeallocate quiet_done ended (vouched b (by simp [Op.uses])).1
  | eager inputs w => exact checked_eager quiet_done ended vouched
  | compile w graph cache =>
    exact checked_ensureCompiled (keeps_close quiet_done) (fun _ _ same => ⟨same, trivial⟩)
  | call ctx params n => exact checked_runOne quiet_done ended pinned fresh
  | drain => exact checked_drain queued

end NxTinygrad.Reliance
