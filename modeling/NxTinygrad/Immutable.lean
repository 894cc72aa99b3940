import NxTinygrad.Lib.Buffers
import NxTinygrad.Lib.Runs

/- The registry of one worker and the buffers behind its handles, next to the buffers that captured
   executables overwrite. Of tinygrad it is known that a clone, a realized computation and a transfer
   go to new buffers, that a replay writes to what was captured, and that `contiguous` may share. -/
namespace NxTinygrad.Immutable
open Buffers

variable {E : Type}

/-- A tensor in its row-major order: all of a buffer, a part of one, elements picked from one, or
    something still to be computed. -/
inductive Tensor (E : Type) where
  | buffer (a : Nat)
  | window (a first count : Nat)
  | picked (a : Nat) (indices : List Nat)
  | lazy (c : Computed (List E))

def cut (first count : Nat) (raw : List E) : Option (List E) :=
  if first + count ≤ raw.length then some ((raw.drop first).take count) else none

def Tensor.cell : Tensor E → Cell (List E)
  | .buffer a => .buffer a
  | .window a first count => .view a (cut first count)
  | .picked a indices => .view a fun raw => indices.mapM (raw[·]?)
  | .lazy c => .computed c

def Tensor.base : Tensor E → Option Nat
  | .buffer a => some a
  | .window a _ _ => some a
  | .picked a _ => some a
  | .lazy _ => none

def Tensor.rowMajor : Tensor E → Bool
  | .picked _ _ => false
  | _ => true

def Tensor.clone (t : Tensor E) : Tensor E := .lazy (combine List.head? [t.cell])

/-- What `contiguous()` makes of a tensor: nothing, another view of the same storage, or a copy that
    is still to be computed. -/
inductive Contiguous where
  | same
  | view
  | copy
  deriving DecidableEq, Repr

/-- `t.contiguous()`, and whether it is `t` itself. A view out of order is copied. -/
def Tensor.contiguous (t : Tensor E) (how : Contiguous) : Tensor E × Bool :=
  match t.rowMajor, how with
  | true, .same => (t, true)
  | true, .view => (t, false)
  | _, _ => (t.clone, false)

/-- `t.realize()`. With `folds`, what depends on no buffer stays a constant. -/
def realize (folds : Bool) (s : Store (List E)) : Tensor E → Option (Tensor E × Store (List E))
  | .lazy c =>
      if folds && c.foot.isEmpty then some (.lazy c, s)
      else (c.value s.heap).map fun v => (.buffer s.next, (s.alloc v).2)
  | t => some (t, s)

def realizeAll (folds : Bool) (s : Store (List E)) : List (Tensor E) →
    Option (List (Tensor E) × Store (List E))
  | [] => some ([], s)
  | t :: rest => do
      let (t, s) ← realize folds s t
      let (ts, s) ← realizeAll folds s rest
      some (t :: ts, s)

def cloned (s : Store (List E)) (t : Tensor E) : Option (Tensor E × Store (List E)) :=
  (t.cell.value s.heap).map fun v => (.buffer s.next, (s.alloc v).2)

inductive Fast where
  | noTransfer
  | raises
  | copies
  deriving DecidableEq, Repr

/-- `immutable_copy`. The fast path copies the whole buffer behind the tensor. -/
def immutableCopy (folds : Bool) (fast : Fast) (s : Store (List E)) (t : Tensor E) :
    Option (Tensor E × Store (List E)) := do
  let (t, s) ← realize folds s t
  match t.base.bind s.heap with
  | none => cloned s t
  | some raw => do
      let v ← t.cell.value s.heap
      if raw.length ≠ v.length then cloned s t
      else match fast with
        | .noTransfer => cloned s t
        | .raises => cloned (s.alloc []).2 t
        | .copies => some (.buffer s.next, (s.alloc raw).2)

/-- What happens on the device while a graph is evaluated: a clone or a realized computation, the
    call of a TinyJit that is captured, or a replay. -/
inductive Effect (E : Type) where
  | fresh (v : List E)
  | capture (vs : List (List E))
  | replay (writes : List (Nat × List E))

/-- `owned` are the output and intermediate buffers of the executable's TinyJits, `outs` what its own
    captured call returned. -/
structure Executable (E : Type) where
  owned : List Nat
  outs : Option (List (Tensor E))

def Effect.run (s : Store (List E)) (owned : List Nat) : Effect E → Option (Store (List E) × List Nat)
  | .fresh v => some ((s.alloc v).2, owned)
  | .capture vs => some ((s.allocAll vs).2, owned ++ List.range' s.next vs.length)
  | .replay writes =>
      if writes.all fun w => owned.contains w.1 then
        some (s.writeAll (writes.map Prod.fst) (writes.map Prod.snd), owned)
      else none

def runEffects (s : Store (List E)) (owned : List Nat) : List (Effect E) →
    Option (Store (List E) × List Nat)
  | [] => some (s, owned)
  | e :: rest => (e.run s owned).bind fun (s, owned) => runEffects s owned rest

def Tensor.exists (s : Store (List E)) (t : Tensor E) : Bool :=
  t.cell.foot.all fun a => decide (a < s.next)

/-- The end of `_graph_fn`: an output that `contiguous` left alone is cloned. -/
def outputTensor (t : Tensor E) (how : Contiguous) : Tensor E :=
  match t.contiguous how with
  | (t, true) => t.clone
  | (t, false) => t

def graphOutputs (folds : Bool) (s : Store (List E)) (ts : List (Tensor E × Contiguous)) :
    Option (List (Tensor E) × Store (List E)) :=
  realizeAll folds s (ts.map fun p => outputTensor p.1 p.2)

structure Evaluation (E : Type) where
  effects : List (Effect E)
  tensors : List (Tensor E × Contiguous)

def graphFn (folds : Bool) (s : Store (List E)) (owned : List Nat) (ev : Evaluation E) :
    Option (List (Tensor E) × Store (List E) × List Nat) := do
  let (s, owned) ← runEffects s owned ev.effects
  if ev.tensors.all fun p => p.1.exists s then do
    let (outs, s) ← graphOutputs folds s ev.tensors
    some (outs, s, owned)
  else none

inductive Event (E : Type) where
  | created (id : Nat) (value : List E)
  | downloaded (id : Nat) (value : List E)

/-- `log` is what the commands computed and what the downloads returned; the worker keeps neither. -/
structure Worker (E : Type) where
  store : Store (List E)
  registry : List (Nat × Tensor E)
  nextId : Nat
  executables : List (Nat × Executable E)
  nextExecutable : Nat
  log : List (Event E)

def Worker.fresh (E : Type) : Worker E := ⟨⟨fun _ => none, 0⟩, [], 1, [], 1, []⟩

inductive Input (E : Type) where
  | handle (id : Nat)
  | blob (v : List E)

/-- The tensors of the inputs, each with the entry it comes from; a stale handle raises. -/
def gather (registry : List (Nat × Tensor E)) (s : Store (List E)) : List (Input E) →
    Store (List E) × Option (List (Option Nat × Tensor E))
  | [] => (s, some [])
  | .handle id :: rest => match registry.lookup id with
    | none => (s, none)
    | some t =>
        let (later, more) := gather registry s rest
        (later, more.map ((some id, t) :: ·))
  | .blob v :: rest =>
      let (later, more) := gather registry (s.alloc v).2 rest
      (later, more.map ((none, .buffer s.next) :: ·))

def dedup (s : Store (List E)) (seen : List Nat) :
    List (Option Nat × Tensor E) → Option (Store (List E))
  | [] => some s
  | (none, _) :: rest => dedup s seen rest
  | (some id, t) :: rest =>
      if seen.contains id then (cloned s t).bind fun (_, s) => dedup s seen rest
      else dedup s (id :: seen) rest

def Worker.put (w : Worker E) (t : Tensor E) (value : List E) : Worker E :=
  { w with
    registry := (w.nextId, t) :: w.registry
    nextId := w.nextId + 1
    log := w.log ++ [.created w.nextId value] }

/-- The end of `execute` in device mode, for as many outputs as there are copies made; `values` are
    those of the outputs when the executable returned. -/
def Worker.putCopies (folds : Bool) (w : Worker E) : List (Tensor E) → List (List E) → List Fast →
    Option (Worker E)
  | t :: ts, v :: vs, fast :: more => do
      let (copy, s) ← immutableCopy folds fast w.store t
      ({ w with store := s }.put copy v).putCopies folds ts vs more
  | _, _, _ => some w

/-- `Executable.run`; `ev` is how the graph goes where it is not replayed as a whole, `writes` what the
    replay writes where it is. -/
def Executable.run (folds : Bool) (s : Store (List E)) (x : Executable E)
    (inputs : List (Option Nat × Tensor E)) (ev : Evaluation E) (writes : List (Nat × List E)) :
    Option (List (Tensor E) × Store (List E) × Executable E) :=
  match x.outs with
  | none => do
      let (outs, s, owned) ← graphFn folds s x.owned ev
      some (outs, s, { x with owned := owned })
  | some outs => do
      let s ← dedup s [] inputs
      let (s, _) ← (Effect.replay writes).run s x.owned
      some (outs, s, x)

/-- The commands. Everything that tinygrad decides stands in the label. A command that raises stops
    after the effects it has had by then: with `raises`, or with fewer copies than outputs. -/
inductive Label (E : Type) where
  | upload (v : List E)
  | runNode (inputs : List (Input E)) (made : List (List E)) (result : Tensor E) (how : Contiguous)
      (raises : Bool)
  | compile (effects : List (Effect E)) (captured : Option (List (Tensor E × Contiguous)))
      (raises : Bool)
  | execute (id : Nat) (inputs : List (Input E)) (ev : Evaluation E) (writes : List (Nat × List E))
      (copies : List Fast) (raises : Bool)
  | download (id : Nat)
  | release (ids : List Nat)
  | releaseExecutable (ids : List Nat)

def Worker.setExecutable (w : Worker E) (id : Nat) (x : Executable E) : Worker E :=
  { w with executables := w.executables.map fun e => if e.1 = id then (id, x) else e }

/-- The result of `run_node` is made of its inputs and of new buffers. -/
def resultFits (inputs : List (Option Nat × Tensor E)) (first : Nat) (s : Store (List E))
    (t : Tensor E) : Bool :=
  t.exists s && t.cell.foot.all fun a =>
    decide (first ≤ a) || (inputs.flatMap fun i => i.2.cell.foot).contains a

def step (folds : Bool) (w : Worker E) : Label E → Option (Worker E)
  | .upload v => some ({ w with store := (w.store.alloc v).2 }.put (.buffer w.store.next) v)
  | .runNode inputs made result how raises =>
      match gather w.registry w.store inputs with
      | (s, none) => some { w with store := s }
      | (s, some inputs) =>
          let s := (s.allocAll made).2
          if raises then some { w with store := s }
          else if resultFits inputs w.store.next s result then do
            let v ← result.cell.value s.heap
            let (t, s) ← realize folds s (result.contiguous how).1
            some ({ w with store := s }.put t v)
          else none
  | .compile effects captured raises => do
      let (s, owned) ← runEffects w.store [] effects
      let counted := { w with store := s, nextExecutable := w.nextExecutable + 1 }
      if raises then some counted
      else match captured with
        | none => some { counted with executables := (w.nextExecutable, ⟨owned, none⟩) :: w.executables }
        | some ts =>
            if ts.all fun p => p.1.exists s then do
              -- the buffers that the outputs are realized into are captured like the others
              let (outs, s') ← graphOutputs folds s ts
              let owned := owned ++ List.range' s.next (s'.next - s.next)
              some { counted with
                store := s'
                executables := (w.nextExecutable, ⟨owned, some outs⟩) :: w.executables }
            else none
  | .execute id inputs ev writes copies raises =>
      match w.executables.lookup id with
      | none => some w
      | some x => match gather w.registry w.store inputs with
        | (s, none) => some { w with store := s }
        | (s, some inputs) => do
            let (outs, s, x) ← x.run folds s inputs ev writes
            let w := { w with store := s }.setExecutable id x
            if raises then some w
            else do
              -- in host mode there are no copies
              let values ← outs.mapM fun t => t.cell.value s.heap
              w.putCopies folds outs values copies
  | .download id =>
      match w.registry.lookup id with
      | none => some w
      | some t => (t.cell.value w.store.heap).map fun v => { w with log := w.log ++ [.downloaded id v] }
  | .release ids => some { w with registry := w.registry.filter fun e => !ids.contains e.1 }
  | .releaseExecutable ids =>
      some { w with executables := w.executables.filter fun e => !ids.contains e.1 }

variable {s s' : Store (List E)} {live owned owned' : List Nat} {folds : Bool}

theorem cut_whole {first count : Nat} {raw v : List E} (part : cut first count raw = some v)
    (same : raw.length = v.length) : v = raw := by
  unfold cut at part
  split at part
  · rename_i fits
    cases part
    rw [List.length_take, List.length_drop] at same
    have start : first = 0 := by omega
    subst start
    rw [List.drop_zero]
    exact List.take_of_length_le (by omega)
  · cases part

theorem cloned_spec {t t' : Tensor E} {v : List E} (used : ∀ a ∈ live, a < s.next)
    (holds : Holds s t.cell v) (made : cloned s t = some (t', s')) :
    Keeps live s s' ∧ Holds s' t'.cell v ∧ ∀ a ∈ t'.cell.foot, s.next ≤ a := by
  simp only [cloned, holds.value, Option.map_some, Option.some.injEq, Prod.mk.injEq] at made
  obtain ⟨rfl, rfl⟩ := made
  refine ⟨alloc_keeps used v, alloc_holds s v, ?_⟩
  intro a mem
  exact Nat.le_of_eq (List.mem_singleton.mp mem).symm

theorem realize_spec {t t' : Tensor E} {v : List E} (used : ∀ a ∈ live, a < s.next)
    (holds : Holds s t.cell v) (made : realize folds s t = some (t', s')) :
    Keeps live s s' ∧ Holds s' t'.cell v ∧ (t.rowMajor = true → t'.rowMajor = true) ∧
      ∀ a ∈ t'.cell.foot, a ∈ t.cell.foot ∨ s.next ≤ a := by
  cases t with
  | lazy c =>
    simp only [realize] at made
    split at made
    · cases made
      exact ⟨keeps_refl live s, holds, fun row => row, fun a mem => Or.inl mem⟩
    · have value : c.value s.heap = some v := holds.value
      simp only [value, Option.map_some, Option.some.injEq, Prod.mk.injEq] at made
      obtain ⟨rfl, rfl⟩ := made
      refine ⟨alloc_keeps used v, alloc_holds s v, fun _ => rfl, ?_⟩
      intro a mem
      rw [List.mem_singleton.mp mem]
      exact Or.inr (Nat.le_refl _)
  | buffer a | window a first count | picked a indices =>
    cases made
    exact ⟨keeps_refl live s, holds, fun row => row, fun a mem => Or.inl mem⟩

theorem whole_buffer {t : Tensor E} {a : Nat} {raw v : List E} (row : t.rowMajor = true)
    (base : t.base = some a) (here : s.heap a = some raw) (value : t.cell.value s.heap = some v)
    (same : raw.length = v.length) : v = raw := by
  cases t with
  | buffer b =>
    cases base
    exact Option.some.inj (value.symm.trans here)
  | window b first count =>
    cases base
    simp only [Tensor.cell, Cell.value, here, Option.bind_some] at value
    exact cut_whole value same
  | picked b indices => cases row
  | lazy c => cases base

theorem immutableCopy_spec {t t' : Tensor E} {v : List E} {fast : Fast} (used : ∀ a ∈ live, a < s.next)
    (row : t.rowMajor = true) (holds : Holds s t.cell v)
    (made : immutableCopy folds fast s t = some (t', s')) :
    Keeps live s s' ∧ Holds s' t'.cell v ∧ ∀ a ∈ t'.cell.foot, s.next ≤ a := by
  obtain ⟨⟨t₁, s₁⟩, realized, made⟩ := Option.bind_eq_some_iff.mp made
  obtain ⟨keeps, holds₁, row₁, _⟩ := realize_spec used holds realized
  have used₁ : ∀ a ∈ live, a < s₁.next := fun a mem => Nat.lt_of_lt_of_le (used a mem) keeps.grows
  -- the copy is made in a store that has grown
  have done : ∀ {s₂ : Store (List E)}, Keeps live s₁ s₂ ∧ Holds s₂ t'.cell v ∧
      (∀ a ∈ t'.cell.foot, s₁.next ≤ a) → Keeps live s s₂ ∧ Holds s₂ t'.cell v ∧
        ∀ a ∈ t'.cell.foot, s.next ≤ a := fun ⟨keeps₂, holds₂, fresh⟩ =>
    ⟨keeps_trans keeps keeps₂, holds₂, fun a mem => Nat.le_trans keeps.grows (fresh a mem)⟩
  dsimp only at made
  split at made
  · exact done (cloned_spec used₁ holds₁ made)
  · rename_i raw at_base
    obtain ⟨a, base, here⟩ := Option.bind_eq_some_iff.mp at_base
    obtain ⟨v', value, made⟩ := Option.bind_eq_some_iff.mp made
    cases holds₁.value.symm.trans value
    split at made
    · exact done (cloned_spec used₁ holds₁ made)
    · rename_i same
      have whole := whole_buffer (row₁ row) base here value (not_not.mp same)
      subst whole
      cases fast with
      | noTransfer => exact done (cloned_spec used₁ holds₁ made)
      | raises =>
        have used : ∀ b ∈ live ++ t₁.cell.foot, b < s₁.next := by
          intro b mem
          rcases List.mem_append.mp mem with old | own
          · exact used₁ b old
          · exact holds₁.used b own
        have garbage := alloc_keeps used []
        have holds₂ := holds_keep holds₁ garbage fun b mem => List.mem_append_right _ mem
        have keeps₂ := keeps_mono garbage fun b mem => List.mem_append_left t₁.cell.foot mem
        obtain ⟨keeps₃, holds₃, fresh⟩ := cloned_spec
          (fun b mem => Nat.lt_of_lt_of_le (used₁ b mem) garbage.grows) holds₂ made
        exact done ⟨keeps_trans keeps₂ keeps₃, holds₃,
          fun b mem => Nat.le_trans garbage.grows (fresh b mem)⟩
      | copies =>
        cases made
        refine done ⟨alloc_keeps used₁ v, alloc_holds s₁ v, ?_⟩
        intro b mem
        exact Nat.le_of_eq (List.mem_singleton.mp mem).symm

theorem effect_keeps {e : Effect E} (used : ∀ a ∈ live, a < s.next) (mine : ∀ a ∈ owned, a < s.next)
    (apart : ∀ a ∈ live, a ∉ owned) (ran : e.run s owned = some (s', owned')) :
    Keeps live s s' ∧ (∀ a ∈ owned', a < s'.next) ∧ ∀ a ∈ owned', a ∈ owned ∨ s.next ≤ a := by
  cases e with
  | fresh v =>
    cases ran
    exact ⟨alloc_keeps used v, fun a mem => Nat.lt_succ_of_lt (mine a mem), fun a mem => Or.inl mem⟩
  | capture vs =>
    cases ran
    refine ⟨(allocAll_spec used vs).1, ?_, ?_⟩
    · intro a mem
      rw [allocAll_next]
      rcases List.mem_append.mp mem with old | new
      · exact Nat.lt_of_lt_of_le (mine a old) (Nat.le_add_right _ _)
      · obtain ⟨_, inside⟩ := List.mem_range'_1.mp new
        exact inside
    · intro a mem
      rcases List.mem_append.mp mem with old | new
      · exact Or.inl old
      · obtain ⟨after, _⟩ := List.mem_range'_1.mp new
        exact Or.inr after
  | replay writes =>
    simp only [Effect.run, Option.ite_none_right_eq_some, Option.some.injEq, Prod.mk.injEq] at ran
    obtain ⟨inside, rfl, rfl⟩ := ran
    refine ⟨writeAll_keeps ?_ _, ?_, fun a mem => Or.inl mem⟩
    · intro a mem written
      obtain ⟨p, there, rfl⟩ := List.mem_map.mp written
      have own := List.all_eq_true.mp inside p there
      exact apart p.1 mem (by simpa using own)
    · intro a mem
      rw [writeAll_next]
      exact mine a mem

theorem effects_keep {es : List (Effect E)} (used : ∀ a ∈ live, a < s.next)
    (mine : ∀ a ∈ owned, a < s.next)
    (apart : ∀ a ∈ live, a ∉ owned) (ran : runEffects s owned es = some (s', owned')) :
    Keeps live s s' ∧ (∀ a ∈ owned', a < s'.next) ∧ ∀ a ∈ owned', a ∈ owned ∨ s.next ≤ a := by
  induction es generalizing s owned with
  | nil =>
    cases ran
    exact ⟨keeps_refl live _, mine, fun a mem => Or.inl mem⟩
  | cons e rest ih =>
    obtain ⟨⟨s₁, owned₁⟩, first, ran⟩ := Option.bind_eq_some_iff.mp ran
    obtain ⟨keeps, mine₁, grown⟩ := effect_keeps used mine apart first
    have used₁ : ∀ a ∈ live, a < s₁.next := fun a mem => Nat.lt_of_lt_of_le (used a mem) keeps.grows
    have apart₁ : ∀ a ∈ live, a ∉ owned₁ := by
      intro a mem own
      rcases grown a own with old | new
      · exact apart a mem old
      · exact absurd (used a mem) (Nat.not_lt_of_le new)
    obtain ⟨keeps', mine', grown'⟩ := ih used₁ mine₁ apart₁ ran
    refine ⟨keeps_trans keeps keeps', mine', fun a own => ?_⟩
    rcases grown' a own with old | new
    · exact grown a old
    · exact Or.inr (Nat.le_trans keeps.grows new)

/-- A tensor all of whose buffers exist, with its elements in order. -/
def Ready (s : Store (List E)) (t : Tensor E) : Prop :=
  t.rowMajor = true ∧ ∀ a ∈ t.cell.foot, a < s.next

theorem exists_iff {t : Tensor E} : t.exists s = true ↔ ∀ a ∈ t.cell.foot, a < s.next := by
  simp [Tensor.exists]

theorem ready_grows {t : Tensor E} (ready : Ready s t) (grows : s.next ≤ s'.next) : Ready s' t :=
  ⟨ready.1, fun a mem => Nat.lt_of_lt_of_le (ready.2 a mem) grows⟩

theorem clone_foot (t : Tensor E) : t.clone.cell.foot = t.cell.foot := by
  simp [Tensor.clone, Tensor.cell, Cell.foot, combine, feet]

theorem contiguous_ready {t : Tensor E} {how : Contiguous} (there : ∀ a ∈ t.cell.foot, a < s.next) :
    Ready s (t.contiguous how).1 ∧ (t.contiguous how).1.cell.foot = t.cell.foot := by
  unfold Tensor.contiguous
  split
  · rename_i row
    exact ⟨⟨row, there⟩, rfl⟩
  · rename_i row
    exact ⟨⟨row, there⟩, rfl⟩
  · exact ⟨⟨rfl, by rwa [clone_foot]⟩, clone_foot t⟩

theorem contiguous_holds {t : Tensor E} {how : Contiguous} {v : List E} (holds : Holds s t.cell v) :
    Holds s (t.contiguous how).1.cell v := by
  unfold Tensor.contiguous
  split
  · exact holds
  · exact holds
  · exact combine_holds (holds_one holds) rfl

theorem outputTensor_ready {t : Tensor E} {how : Contiguous} (there : ∀ a ∈ t.cell.foot, a < s.next) :
    Ready s (outputTensor t how) := by
  have ready : Ready s (t.contiguous how).1 := (contiguous_ready there).1
  unfold outputTensor
  split
  · rename_i same
    rw [same] at ready
    exact ⟨rfl, by rw [clone_foot]; exact ready.2⟩
  · rename_i other
    rw [other] at ready
    exact ready

theorem outputs_ready {ts : List (Tensor E × Contiguous)} (there : (ts.all fun p => p.1.exists s) = true) :
    ∀ t ∈ ts.map fun p => outputTensor p.1 p.2, Ready s t := by
  intro t mem
  obtain ⟨p, listed, rfl⟩ := List.mem_map.mp mem
  exact outputTensor_ready (exists_iff.mp (List.all_eq_true.mp there p listed))

theorem realize_ready {t t' : Tensor E} (used : ∀ a ∈ live, a < s.next) (ready : Ready s t)
    (made : realize folds s t = some (t', s')) : Keeps live s s' ∧ Ready s' t' := by
  cases t with
  | lazy c =>
    simp only [realize] at made
    split at made
    · cases made
      exact ⟨keeps_refl live s, ready⟩
    · obtain ⟨v, _, same⟩ := Option.map_eq_some_iff.mp made
      cases same
      refine ⟨alloc_keeps used v, rfl, fun a mem => ?_⟩
      rw [List.mem_singleton.mp mem]
      exact Nat.lt_succ_self _
  | buffer a | window a first count | picked a indices =>
    cases made
    exact ⟨keeps_refl live s, ready⟩

theorem realizeAll_ready {ts ts' : List (Tensor E)} (used : ∀ a ∈ live, a < s.next)
    (ready : ∀ t ∈ ts, Ready s t) (made : realizeAll folds s ts = some (ts', s')) :
    Keeps live s s' ∧ ∀ t ∈ ts', Ready s' t := by
  induction ts generalizing s ts' with
  | nil =>
    cases made
    exact ⟨keeps_refl live _, nofun⟩
  | cons t rest ih =>
    obtain ⟨⟨t₁, s₁⟩, first, made⟩ := Option.bind_eq_some_iff.mp made
    obtain ⟨⟨ts₁, s₂⟩, more, made⟩ := Option.bind_eq_some_iff.mp made
    cases made
    obtain ⟨keeps, ready₁⟩ := realize_ready used (ready t List.mem_cons_self) first
    have used₁ : ∀ a ∈ live, a < s₁.next := fun a mem => Nat.lt_of_lt_of_le (used a mem) keeps.grows
    obtain ⟨keeps', readyRest⟩ := ih used₁
      (fun t mem => ready_grows (ready t (List.mem_cons_of_mem _ mem)) keeps.grows) more
    refine ⟨keeps_trans keeps keeps', ?_⟩
    intro t mem
    rcases List.mem_cons.mp mem with rfl | later
    · exact ready_grows ready₁ keeps'.grows
    · exact readyRest t later

theorem graphFn_spec {ev : Evaluation E} {outs : List (Tensor E)} (used : ∀ a ∈ live, a < s.next)
    (mine : ∀ a ∈ owned, a < s.next) (apart : ∀ a ∈ live, a ∉ owned)
    (ran : graphFn folds s owned ev = some (outs, s', owned')) :
    Keeps live s s' ∧ (∀ a ∈ owned', a < s'.next) ∧ (∀ a ∈ owned', a ∈ owned ∨ s.next ≤ a) ∧
      ∀ t ∈ outs, Ready s' t := by
  obtain ⟨⟨s₁, owned₁⟩, effects, ran⟩ := Option.bind_eq_some_iff.mp ran
  simp only [Option.ite_none_right_eq_some] at ran
  obtain ⟨there, ran⟩ := ran
  obtain ⟨⟨outs₁, s₂⟩, made, ran⟩ := Option.bind_eq_some_iff.mp ran
  cases ran
  obtain ⟨keeps, mine₁, grown⟩ := effects_keep used mine apart effects
  have used₁ : ∀ a ∈ live ++ owned', a < s₁.next := by
    intro a mem
    rcases List.mem_append.mp mem with old | own
    · exact Nat.lt_of_lt_of_le (used a old) keeps.grows
    · exact mine₁ a own
  obtain ⟨keeps', ready'⟩ := realizeAll_ready used₁ (outputs_ready there) made
  refine ⟨keeps_trans keeps (keeps_mono keeps' fun a mem => List.mem_append_left _ mem), ?_,
    grown, ready'⟩
  exact fun a mem => Nat.lt_of_lt_of_le (mine₁ a mem) keeps'.grows

theorem dedup_keeps {seen : List Nat} {inputs : List (Option Nat × Tensor E)}
    (used : ∀ a ∈ live, a < s.next)
    (made : dedup s seen inputs = some s') : Keeps live s s' := by
  induction inputs generalizing s seen with
  | nil =>
    cases made
    exact keeps_refl live _
  | cons i rest ih =>
    obtain ⟨_ | id, t⟩ := i
    · exact ih used made
    · simp only [dedup] at made
      split at made
      · obtain ⟨⟨t₁, s₁⟩, copied, made⟩ := Option.bind_eq_some_iff.mp made
        obtain ⟨v, _, same⟩ := Option.map_eq_some_iff.mp copied
        cases same
        have keeps := alloc_keeps used v
        exact keeps_trans keeps (ih (fun a mem => Nat.lt_of_lt_of_le (used a mem) keeps.grows) made)
      · exact ih used made

theorem run_spec {x x' : Executable E} {inputs : List (Option Nat × Tensor E)} {ev : Evaluation E}
    {writes : List (Nat × List E)} {outs : List (Tensor E)} (used : ∀ a ∈ live, a < s.next)
    (mine : ∀ a ∈ x.owned, a < s.next) (apart : ∀ a ∈ live, a ∉ x.owned)
    (captured : ∀ ts, x.outs = some ts → ∀ t ∈ ts, Ready s t)
    (ran : x.run folds s inputs ev writes = some (outs, s', x')) :
    Keeps live s s' ∧ (∀ a ∈ x'.owned, a < s'.next) ∧ (∀ a ∈ x'.owned, a ∈ x.owned ∨ s.next ≤ a) ∧
      x'.outs = x.outs ∧ ∀ t ∈ outs, Ready s' t := by
  unfold Executable.run at ran
  split at ran
  · rename_i none
    obtain ⟨⟨outs₁, s₁, owned₁⟩, graph, ran⟩ := Option.bind_eq_some_iff.mp ran
    cases ran
    obtain ⟨keeps, mine', grown, ready⟩ := graphFn_spec used mine apart graph
    exact ⟨keeps, mine', grown, rfl, ready⟩
  · rename_i ts some
    obtain ⟨s₁, deduped, ran⟩ := Option.bind_eq_some_iff.mp ran
    obtain ⟨⟨s₂, owned₂⟩, replayed, ran⟩ := Option.bind_eq_some_iff.mp ran
    cases ran
    have keeps := dedup_keeps used deduped
    obtain ⟨keeps', mine', _⟩ := effect_keeps
      (fun a mem => Nat.lt_of_lt_of_le (used a mem) keeps.grows)
      (fun a mem => Nat.lt_of_lt_of_le (mine a mem) keeps.grows) apart replayed
    have grows := Nat.le_trans keeps.grows keeps'.grows
    exact ⟨keeps_trans keeps keeps', fun a mem => Nat.lt_of_lt_of_le (mine a mem) grows,
      fun a mem => Or.inl mem, rfl, fun t mem => ready_grows (captured outs some t mem) grows⟩

def createdId : Event E → Option Nat
  | .created id _ => some id
  | .downloaded _ _ => none

def Worker.feet (w : Worker E) : List Nat := w.registry.flatMap fun p => p.2.cell.foot

structure Inv (w : Worker E) : Prop where
  held : ∀ p ∈ w.registry, ∃ v, .created p.1 v ∈ w.log ∧ Holds w.store p.2.cell v
  apart : ∀ e ∈ w.executables, ∀ a ∈ w.feet, a ∉ e.2.owned
  owned : ∀ e ∈ w.executables, ∀ a ∈ e.2.owned, a < w.store.next
  outs : ∀ e ∈ w.executables, ∀ ts, e.2.outs = some ts → ∀ t ∈ ts, Ready w.store t
  young : ∀ id v, .created id v ∈ w.log → id < w.nextId
  once : (w.log.filterMap createdId).Nodup
  told : ∀ id v, .downloaded id v ∈ w.log → .created id v ∈ w.log

variable {w w' : Worker E}

theorem inv_fresh (E : Type) : Inv (Worker.fresh E) := by
  constructor <;> simp [Worker.fresh, Worker.feet]

theorem live_used (inv : Inv w) : ∀ a ∈ w.feet, a < w.store.next := by
  intro a mem
  obtain ⟨p, entry, foot⟩ := List.mem_flatMap.mp mem
  obtain ⟨v, _, holds⟩ := inv.held p entry
  exact holds.used a foot

theorem inv_store (inv : Inv w) (keeps : Keeps w.feet w.store s') : Inv { w with store := s' } := by
  refine { inv with held := ?_, owned := ?_, outs := ?_ }
  · intro p entry
    obtain ⟨v, made, holds⟩ := inv.held p entry
    exact ⟨v, made, holds_keep holds keeps fun a foot => List.mem_flatMap.mpr ⟨p, entry, foot⟩⟩
  · exact fun e listed a own => Nat.lt_of_lt_of_le (inv.owned e listed a own) keeps.grows
  · exact fun e listed ts some t mem => ready_grows (inv.outs e listed ts some t mem) keeps.grows

theorem inv_put (inv : Inv w) {t : Tensor E} {v : List E} (holds : Holds w.store t.cell v)
    (free : ∀ e ∈ w.executables, ∀ a ∈ t.cell.foot, a ∉ e.2.owned) : Inv (w.put t v) := by
  refine ⟨?_, ?_, inv.owned, inv.outs, ?_, ?_, ?_⟩
  · intro p entry
    rcases List.mem_cons.mp entry with rfl | old
    · exact ⟨v, List.mem_append_right _ List.mem_cons_self, holds⟩
    · obtain ⟨v', made, holds'⟩ := inv.held p old
      exact ⟨v', List.mem_append_left _ made, holds'⟩
  · intro e listed a mem
    simp only [Worker.feet, Worker.put, List.flatMap_cons, List.mem_append] at mem
    rcases mem with new | old
    · exact free e listed a new
    · exact inv.apart e listed a old
  · intro id v' made
    simp only [Worker.put, List.mem_append, List.mem_singleton, Event.created.injEq] at made ⊢
    rcases made with old | ⟨rfl, _⟩
    · exact Nat.lt_succ_of_lt (inv.young id v' old)
    · exact Nat.lt_succ_self _
  · simp only [Worker.put, List.filterMap_append, List.filterMap_cons, List.filterMap_nil, createdId]
    refine List.nodup_append.mpr ⟨inv.once, by simp, ?_⟩
    rintro id mem _ same rfl
    obtain ⟨ev, logged, named⟩ := List.mem_filterMap.mp mem
    cases ev with
    | created id' v' =>
      cases named
      rw [List.mem_singleton.mp same] at logged
      exact absurd (inv.young _ v' logged) (Nat.lt_irrefl _)
    | downloaded id' v' => cases named
  · intro id v' told
    simp only [Worker.put, List.mem_append, List.mem_singleton, reduceCtorEq, or_false] at told ⊢
    exact Or.inl (inv.told id v' told)

theorem gather_spec {inputs : List (Input E)} {r : Option (List (Option Nat × Tensor E))}
    {registry : List (Nat × Tensor E)} (used : ∀ a ∈ live, a < s.next)
    (inside : ∀ p ∈ registry, ∀ a ∈ p.2.cell.foot, a ∈ live)
    (made : gather registry s inputs = (s', r)) :
    Keeps live s s' ∧ ∀ found, r = some found → ∀ i ∈ found, ∀ a ∈ i.2.cell.foot, a ∈ live ∨
    s.next ≤ a := by
  induction inputs generalizing s s' r with
  | nil =>
    cases made
    exact ⟨keeps_refl live _, by rintro found ⟨⟩ i ⟨⟩⟩
  | cons i rest ih =>
    cases i with
    | handle id =>
      simp only [gather] at made
      cases found : registry.lookup id with
      | none =>
        simp only [found] at made
        cases made
        exact ⟨keeps_refl live _, nofun⟩
      | some t =>
        simp only [found, Prod.mk.injEq] at made
        obtain ⟨rfl, rfl⟩ := made
        obtain ⟨keeps, feet⟩ := ih used rfl
        refine ⟨keeps, ?_⟩
        intro all listed i mem
        obtain ⟨more, tail, rfl⟩ := Option.map_eq_some_iff.mp listed
        rcases List.mem_cons.mp mem with rfl | later
        · intro a foot
          obtain ⟨front, back, split, _⟩ := List.lookup_eq_some_iff.mp found
          exact Or.inl (inside (id, t) (by simp [split]) a foot)
        · exact feet more tail i later
    | blob v =>
      simp only [gather, Prod.mk.injEq] at made
      obtain ⟨rfl, rfl⟩ := made
      have first := alloc_keeps used v
      obtain ⟨keeps, feet⟩ := ih (fun a mem => Nat.lt_of_lt_of_le (used a mem) first.grows) rfl
      refine ⟨keeps_trans first keeps, ?_⟩
      intro all listed i mem
      obtain ⟨more, tail, rfl⟩ := Option.map_eq_some_iff.mp listed
      rcases List.mem_cons.mp mem with rfl | later
      · intro a foot
        exact Or.inr (Nat.le_of_eq (List.mem_singleton.mp foot).symm)
      · intro a foot
        exact (feet more tail i later a foot).imp_right fun new => Nat.le_trans first.grows new

theorem inv_putCopies {ts : List (Tensor E)} {vs : List (List E)} {copies : List Fast} (inv : Inv w)
    (ready : ∀ t ∈ ts, Ready w.store t) (values : HoldAll w.store (ts.map Tensor.cell) vs)
    (made : w.putCopies folds ts vs copies = some w') : Inv w' := by
  induction ts generalizing w vs copies with
  | nil =>
    simp only [Worker.putCopies, Option.some.injEq] at made
    subst made
    exact inv
  | cons t ts ih =>
    rw [List.map_cons] at values
    cases values with
    | cons holds rest =>
      rename_i v vs
      cases copies with
      | nil =>
        simp only [Worker.putCopies, Option.some.injEq] at made
        subst made
        exact inv
      | cons fast more =>
        obtain ⟨⟨copy, s₁⟩, copied, made⟩ := Option.bind_eq_some_iff.mp made
        have used : ∀ a ∈ w.feet ++ Buffers.feet (ts.map Tensor.cell), a < w.store.next := by
          intro a mem
          rcases List.mem_append.mp mem with old | later
          · exact live_used inv a old
          · exact holdAll_used rest a later
        obtain ⟨keeps, holds', fresh⟩ :=
          immutableCopy_spec used (ready t List.mem_cons_self).1 holds copied
        have stored := inv_store inv (keeps_mono keeps fun a mem => List.mem_append_left _ mem)
        have free : ∀ e ∈ w.executables, ∀ a ∈ copy.cell.foot, a ∉ e.2.owned :=
          fun e listed a foot own =>
          absurd (inv.owned e listed a own) (Nat.not_lt_of_le (fresh a foot))
        refine ih (inv_put stored holds' free) ?_ ?_ made
        · exact fun u mem => ready_grows (ready u (List.mem_cons_of_mem _ mem)) keeps.grows
        · exact holdAll_keep rest keeps fun a mem => List.mem_append_right _ mem

theorem inv_runNode {inputs : List (Input E)} {made : List (List E)} {result : Tensor E}
    {how : Contiguous}
    {raises : Bool} (inv : Inv w)
    (moved : step folds w (.runNode inputs made result how raises) = some w') :
    Inv w' := by
  have inside : ∀ p ∈ w.registry, ∀ a ∈ p.2.cell.foot, a ∈ w.feet :=
    fun p entry a foot => List.mem_flatMap.mpr ⟨p, entry, foot⟩
  simp only [step] at moved
  split at moved
  · rename_i s₁ gathered
    cases moved
    exact inv_store inv (gather_spec (live_used inv) inside gathered).1
  · rename_i s₁ found gathered
    obtain ⟨keeps, feet⟩ := gather_spec (live_used inv) inside gathered
    have used₁ : ∀ a ∈ w.feet, a < s₁.next :=
      fun a mem => Nat.lt_of_lt_of_le (live_used inv a mem) keeps.grows
    have keeps₂ := keeps_trans keeps (allocAll_spec used₁ made).1
    split at moved
    · cases moved
      exact inv_store inv keeps₂
    · simp only [Option.ite_none_right_eq_some] at moved
      obtain ⟨fits, moved⟩ := moved
      obtain ⟨v, value, moved⟩ := Option.bind_eq_some_iff.mp moved
      obtain ⟨⟨t, s₃⟩, realized, moved⟩ := Option.bind_eq_some_iff.mp moved
      cases moved
      simp only [resultFits, Bool.and_eq_true] at fits
      obtain ⟨there, within⟩ := fits
      have there := exists_iff.mp there
      -- the result shares buffers with its inputs at most
      have mine : ∀ a ∈ result.cell.foot, a ∈ w.feet ∨ w.store.next ≤ a := by
        intro a foot
        have here := List.all_eq_true.mp within a foot
        simp only [Bool.or_eq_true, decide_eq_true_eq, List.contains_eq_mem] at here
        rcases here with new | input
        · exact Or.inr new
        · obtain ⟨i, listed, foot⟩ := List.mem_flatMap.mp input
          exact feet found rfl i listed a foot
      have used₂ : ∀ a ∈ w.feet ++ (result.contiguous how).1.cell.foot,
          a < (s₁.allocAll made).2.next := by
        intro a mem
        rcases List.mem_append.mp mem with old | own
        · exact Nat.lt_of_lt_of_le (live_used inv a old) keeps₂.grows
        · exact (contiguous_ready there).1.2 a own
      have holds : Holds (s₁.allocAll made).2 (result.contiguous how).1.cell v :=
        contiguous_holds ⟨value, there⟩
      obtain ⟨keeps₃, holds₃, _, grown⟩ := realize_spec used₂ holds realized
      have keepsAll := keeps_trans keeps₂ (keeps_mono keeps₃ fun a mem => List.mem_append_left _ mem)
      refine inv_put (inv_store inv keepsAll) holds₃ ?_
      intro e listed a foot own
      have new : w.store.next ≤ a → False := fun after =>
        absurd (inv.owned e listed a own) (Nat.not_lt_of_le after)
      rcases grown a foot with old | after
      · rw [(contiguous_ready there).2] at old
        rcases mine a old with handle | after
        · exact inv.apart e listed a handle own
        · exact new after
      · exact new (Nat.le_trans keeps₂.grows after)

theorem inv_compiled {x : Executable E} (inv : Inv w) (keeps : Keeps w.feet w.store s')
    (mine : ∀ a ∈ x.owned, a < s'.next) (new : ∀ a ∈ x.owned, w.store.next ≤ a)
    (ready : ∀ ts, x.outs = some ts → ∀ t ∈ ts, Ready s' t) :
    Inv { w with
      store := s'
      nextExecutable := w.nextExecutable + 1
      executables := (w.nextExecutable, x) :: w.executables } := by
  have stored := inv_store inv keeps
  refine { stored with apart := ?_, owned := ?_, outs := ?_ }
  · intro e listed a mem own
    rcases List.mem_cons.mp listed with rfl | old
    · exact absurd (live_used inv a mem) (Nat.not_lt_of_le (new a own))
    · exact inv.apart e old a mem own
  · intro e listed a own
    rcases List.mem_cons.mp listed with rfl | old
    · exact mine a own
    · exact stored.owned e old a own
  · intro e listed ts some t mem
    rcases List.mem_cons.mp listed with rfl | old
    · exact ready ts some t mem
    · exact stored.outs e old ts some t mem

theorem inv_compile {effects : List (Effect E)} {captured : Option (List (Tensor E × Contiguous))}
    {raises : Bool} (inv : Inv w) (moved : step folds w (.compile effects captured raises) = some w') :
    Inv w' := by
  obtain ⟨⟨s₁, owned₁⟩, ran, moved⟩ := Option.bind_eq_some_iff.mp moved
  obtain ⟨keeps, mine, grown⟩ := effects_keep (live_used inv)
    (fun _ mem => absurd mem List.not_mem_nil) (fun _ _ => List.not_mem_nil) ran
  have new : ∀ a ∈ owned₁, w.store.next ≤ a := fun a own =>
    (grown a own).resolve_left List.not_mem_nil
  dsimp only at moved
  split at moved
  · cases moved
    exact { inv_store inv keeps with }
  · split at moved
    · cases moved
      exact inv_compiled inv keeps mine new fun ts none => by cases none
    · simp only [Option.ite_none_right_eq_some] at moved
      obtain ⟨there, moved⟩ := moved
      obtain ⟨⟨outs, s₂⟩, made, moved⟩ := Option.bind_eq_some_iff.mp moved
      cases moved
      -- the outputs end as `_graph_fn` leaves them
      have used₁ : ∀ a ∈ w.feet, a < s₁.next :=
        fun a mem => Nat.lt_of_lt_of_le (live_used inv a mem) keeps.grows
      obtain ⟨keeps', ready⟩ := realizeAll_ready used₁ (outputs_ready there) made
      refine inv_compiled inv (keeps_trans keeps keeps') ?_ ?_ ?_
      · intro a own
        rcases List.mem_append.mp own with old | late
        · exact Nat.lt_of_lt_of_le (mine a old) keeps'.grows
        · obtain ⟨_, inside⟩ := List.mem_range'_1.mp late
          have grows := keeps'.grows
          omega
      · intro a own
        rcases List.mem_append.mp own with old | late
        · exact new a old
        · obtain ⟨after, _⟩ := List.mem_range'_1.mp late
          exact Nat.le_trans keeps.grows after
      · intro ts same t mem
        cases same
        exact ready t mem

theorem lookup_listed {α : Type} {xs : List (Nat × α)} {id : Nat} {x : α}
    (found : xs.lookup id = some x) :
    (id, x) ∈ xs := by
  obtain ⟨front, back, split, _⟩ := List.lookup_eq_some_iff.mp found
  simp [split]

theorem inv_ran {id : Nat} {x x' : Executable E} {s₁ : Store (List E)} (inv : Inv w)
    (keeps : Keeps w.feet w.store s₁) (mine : ∀ a ∈ x'.owned, a < s₁.next)
    (grown : ∀ a ∈ x'.owned, a ∈ x.owned ∨ w.store.next ≤ a) (listed : (id, x) ∈ w.executables)
    (captured : x'.outs = x.outs) : Inv ({ w with store := s₁ }.setExecutable id x') := by
  have stored := inv_store inv keeps
  have cases : ∀ e ∈ ({ w with store := s₁ }.setExecutable id x').executables,
      e ∈ w.executables ∨ e = (id, x') := by
    intro e mem
    obtain ⟨e₀, there, rfl⟩ := List.mem_map.mp mem
    split
    · exact Or.inr rfl
    · exact Or.inl there
  refine { stored with apart := ?_, owned := ?_, outs := ?_ }
  · intro e mem a live own
    rcases cases e mem with old | rfl
    · exact inv.apart e old a live own
    · rcases grown a own with before | new
      · exact inv.apart (id, x) listed a live before
      · exact absurd (live_used inv a live) (Nat.not_lt_of_le new)
  · intro e mem a own
    rcases cases e mem with old | rfl
    · exact stored.owned e old a own
    · exact mine a own
  · intro e mem ts some t there
    rcases cases e mem with old | rfl
    · exact stored.outs e old ts some t there
    · exact stored.outs (id, x) listed ts (captured ▸ some) t there

theorem values_hold {ts : List (Tensor E)} {vs : List (List E)} (ready : ∀ t ∈ ts, Ready s t)
    (values : (ts.mapM fun t => t.cell.value s.heap) = some vs) :
      HoldAll s (ts.map Tensor.cell) vs := by
  induction ts generalizing vs with
  | nil =>
    cases values
    exact List.Forall₂.nil
  | cons t ts ih =>
    rw [List.mapM_cons] at values
    obtain ⟨v, here, values⟩ := Option.bind_eq_some_iff.mp values
    obtain ⟨rest, more, values⟩ := Option.bind_eq_some_iff.mp values
    cases values
    exact List.Forall₂.cons ⟨here, (ready t List.mem_cons_self).2⟩
      (ih (fun u mem => ready u (List.mem_cons_of_mem _ mem)) more)

theorem inv_execute {id : Nat} {inputs : List (Input E)} {ev : Evaluation E}
    {writes : List (Nat × List E)}
    {copies : List Fast} {raises : Bool} (inv : Inv w)
    (moved : step folds w (.execute id inputs ev writes copies raises) = some w') : Inv w' := by
  have inside : ∀ p ∈ w.registry, ∀ a ∈ p.2.cell.foot, a ∈ w.feet :=
    fun p entry a foot => List.mem_flatMap.mpr ⟨p, entry, foot⟩
  simp only [step] at moved
  split at moved
  · cases moved
    exact inv
  · rename_i x found
    have listed := lookup_listed found
    split at moved
    · rename_i s₁ gathered
      cases moved
      exact inv_store inv (gather_spec (live_used inv) inside gathered).1
    · rename_i s₁ given gathered
      have keeps := (gather_spec (live_used inv) inside gathered).1
      obtain ⟨⟨outs, s₂, x'⟩, ran, moved⟩ := Option.bind_eq_some_iff.mp moved
      obtain ⟨keeps', mine, grown, captured, ready⟩ := run_spec
        (fun a mem => Nat.lt_of_lt_of_le (live_used inv a mem) keeps.grows)
        (fun a own => Nat.lt_of_lt_of_le (inv.owned _ listed a own) keeps.grows)
        (fun a mem => inv.apart _ listed a mem)
        (fun ts some t mem => ready_grows (inv.outs _ listed ts some t mem) keeps.grows) ran
      have after : Inv ({ w with store := s₂ }.setExecutable id x') :=
        inv_ran inv (keeps_trans keeps keeps') mine
          (fun a own => (grown a own).imp_right fun new => Nat.le_trans keeps.grows new) listed captured
      dsimp only at moved
      split at moved
      · cases moved
        exact after
      · obtain ⟨vs, values, moved⟩ := Option.bind_eq_some_iff.mp moved
        exact inv_putCopies after ready (values_hold ready values) moved

theorem download_value (inv : Inv w) {id : Nat} {t : Tensor E} (found : w.registry.lookup id = some t) :
    ∃ v, .created id v ∈ w.log ∧ t.cell.value w.store.heap = some v := by
  obtain ⟨v, made, holds⟩ := inv.held (id, t) (lookup_listed found)
  exact ⟨v, made, holds.value⟩

theorem inv_download {id : Nat} (inv : Inv w) (moved : step folds w (.download id) = some w') :
    Inv w' := by
  simp only [step] at moved
  split at moved
  · cases moved
    exact inv
  · rename_i t found
    obtain ⟨v, made, value⟩ := download_value inv found
    rw [value] at moved
    cases moved
    refine { inv with held := ?_, young := ?_, once := ?_, told := ?_ }
    · intro p entry
      obtain ⟨v', made', holds⟩ := inv.held p entry
      exact ⟨v', List.mem_append_left _ made', holds⟩
    · intro id' v' made'
      exact inv.young id' v' (by simpa using made')
    · simpa [createdId, List.filterMap_cons] using inv.once
    · intro id' v' told
      simp only [List.mem_append, List.mem_singleton, Event.downloaded.injEq] at told
      rcases told with old | ⟨rfl, rfl⟩
      · exact List.mem_append_left _ (inv.told id' v' old)
      · exact List.mem_append_left _ made

theorem inv_step {a : Label E} (inv : Inv w) (moved : step folds w a = some w') : Inv w' := by
  cases a with
  | upload v =>
    cases moved
    refine inv_put (inv_store inv (alloc_keeps (live_used inv) v)) (alloc_holds w.store v) ?_
    intro e listed a foot own
    rw [List.mem_singleton.mp foot] at own
    exact absurd (inv.owned e listed _ own) (Nat.lt_irrefl _)
  | runNode inputs made result how raises => exact inv_runNode inv moved
  | compile effects captured raises => exact inv_compile inv moved
  | execute id inputs ev writes copies raises => exact inv_execute inv moved
  | download id => exact inv_download inv moved
  | release ids =>
    cases moved
    refine { inv with held := ?_, apart := ?_ }
    · exact fun p entry => inv.held p (List.mem_of_mem_filter entry)
    · intro e listed a mem
      obtain ⟨p, entry, foot⟩ := List.mem_flatMap.mp mem
      exact inv.apart e listed a (List.mem_flatMap.mpr ⟨p, List.mem_of_mem_filter entry, foot⟩)
  | releaseExecutable ids =>
    cases moved
    exact { inv with
      apart := fun e listed => inv.apart e (List.mem_of_mem_filter listed)
      owned := fun e listed => inv.owned e (List.mem_of_mem_filter listed)
      outs := fun e listed => inv.outs e (List.mem_of_mem_filter listed) }

theorem created_unique (inv : Inv w) {id : Nat} {v v' : List E} (first : .created id v ∈ w.log)
    (second : .created id v' ∈ w.log) : v = v' := by
  have once := inv.once
  generalize w.log = log at once first second
  induction log with
  | nil => cases first
  | cons ev rest ih =>
    have later : ∀ {u : List E}, .created id u ∈ rest → id ∈ rest.filterMap createdId :=
      fun mem => List.mem_filterMap.mpr ⟨_, mem, rfl⟩
    cases ev with
    | created id' u =>
      simp only [List.filterMap_cons, createdId, List.nodup_cons] at once
      rcases List.mem_cons.mp first with same | mem
      · cases same
        rcases List.mem_cons.mp second with same | mem
        · cases same
          rfl
        · exact absurd (later mem) once.1
      · rcases List.mem_cons.mp second with same | mem'
        · cases same
          exact absurd (later mem) once.1
        · exact ih once.2 mem mem'
    | downloaded id' u =>
      simp only [List.filterMap_cons, createdId] at once
      exact ih once (by simpa using first) (by simpa using second)

/-! What the commands add. -/

def Label.releases : Label E → Bool
  | .release _ => true
  | _ => false

structure Grown (w w' : Worker E) : Prop where
  registry : ∃ new, w'.registry = new ++ w.registry ∧ ∀ e ∈ new, w.nextId ≤ e.1
  log : ∀ ev ∈ w.log, ev ∈ w'.log
  next : w.nextId ≤ w'.nextId

theorem grown_same (registry : w'.registry = w.registry) (log : ∀ ev ∈ w.log, ev ∈ w'.log)
    (next : w'.nextId = w.nextId) : Grown w w' :=
  ⟨⟨[], registry, List.forall_mem_nil _⟩, log, next.ge⟩

theorem grown_refl (w : Worker E) : Grown w w := grown_same rfl (fun _ mem => mem) rfl

theorem grown_trans {w'' : Worker E} (first : Grown w w') (second : Grown w' w'') : Grown w w'' := by
  obtain ⟨new, registry, above⟩ := first.registry
  obtain ⟨newer, registry', above'⟩ := second.registry
  refine ⟨⟨newer ++ new, by rw [registry', registry, List.append_assoc], ?_⟩,
    fun ev mem => second.log ev (first.log ev mem), Nat.le_trans first.next second.next⟩
  intro e mem
  rcases List.mem_append.mp mem with late | early
  · exact Nat.le_trans first.next (above' e late)
  · exact above e early

theorem grown_put (w : Worker E) (t : Tensor E) (v : List E) : Grown w (w.put t v) where
  registry := ⟨[(w.nextId, t)], rfl, List.forall_mem_singleton.mpr (Nat.le_refl _)⟩
  log _ mem := List.mem_append_left _ mem
  next := Nat.le_succ _

theorem grown_putCopies {ts : List (Tensor E)} {vs : List (List E)} {copies : List Fast}
    (made : w.putCopies folds ts vs copies = some w') : Grown w w' := by
  induction ts generalizing w vs copies with
  | nil =>
    simp only [Worker.putCopies, Option.some.injEq] at made
    exact made ▸ grown_refl w
  | cons t ts ih =>
    cases vs with
    | nil =>
      simp only [Worker.putCopies, Option.some.injEq] at made
      exact made ▸ grown_refl w
    | cons v vs =>
      cases copies with
      | nil =>
        simp only [Worker.putCopies, Option.some.injEq] at made
        exact made ▸ grown_refl w
      | cons fast more =>
        obtain ⟨⟨copy, s₁⟩, _, made⟩ := Option.bind_eq_some_iff.mp made
        have stored : Grown w { w with store := s₁ } := grown_same rfl (fun _ mem => mem) rfl
        exact grown_trans stored (grown_trans (grown_put _ copy v) (ih made))

theorem step_grown {a : Label E} (adds : a.releases = false) (moved : step folds w a = some w') :
    Grown w w' := by
  have stored (s : Store (List E)) : Grown w { w with store := s } :=
    grown_same rfl (fun _ mem => mem) rfl
  cases a with
  | upload v =>
    cases moved
    exact grown_trans (stored _) (grown_put _ _ _)
  | runNode inputs made result how raises =>
    simp only [step] at moved
    split at moved
    · cases moved
      exact stored _
    · split at moved
      · cases moved
        exact stored _
      · simp only [Option.ite_none_right_eq_some] at moved
        obtain ⟨_, moved⟩ := moved
        obtain ⟨v, _, moved⟩ := Option.bind_eq_some_iff.mp moved
        obtain ⟨⟨t, s⟩, _, moved⟩ := Option.bind_eq_some_iff.mp moved
        cases moved
        exact grown_trans (stored _) (grown_put _ _ _)
  | compile effects captured raises =>
    obtain ⟨⟨s, owned⟩, _, moved⟩ := Option.bind_eq_some_iff.mp moved
    dsimp only at moved
    split at moved
    · cases moved
      exact grown_same rfl (fun _ mem => mem) rfl
    · split at moved
      · cases moved
        exact grown_same rfl (fun _ mem => mem) rfl
      · simp only [Option.ite_none_right_eq_some] at moved
        obtain ⟨_, moved⟩ := moved
        obtain ⟨⟨outs, s'⟩, _, moved⟩ := Option.bind_eq_some_iff.mp moved
        cases moved
        exact grown_same rfl (fun _ mem => mem) rfl
  | execute id inputs ev writes copies raises =>
    simp only [step] at moved
    split at moved
    · cases moved
      exact grown_refl _
    · split at moved
      · cases moved
        exact stored _
      · obtain ⟨⟨outs, s, x⟩, _, moved⟩ := Option.bind_eq_some_iff.mp moved
        dsimp only at moved
        split at moved
        · cases moved
          exact grown_same rfl (fun _ mem => mem) rfl
        · obtain ⟨values, _, moved⟩ := Option.bind_eq_some_iff.mp moved
          have ran : Grown w ({ w with store := s }.setExecutable id x) :=
            grown_same rfl (fun _ mem => mem) rfl
          exact grown_trans ran (grown_putCopies moved)
  | download id =>
    simp only [step] at moved
    split at moved
    · cases moved
      exact grown_refl _
    · obtain ⟨v, _, rfl⟩ := Option.map_eq_some_iff.mp moved
      exact grown_same rfl (fun _ mem => List.mem_append_left _ mem) rfl
  | release ids => cases adds
  | releaseExecutable ids =>
    cases moved
    exact grown_same rfl (fun _ mem => mem) rfl

theorem grown_value (inv : Inv w) (inv' : Inv w') (grown : Grown w w') {id : Nat} {t : Tensor E}
    (found : w.registry.lookup id = some t) : w'.registry.lookup id = some t ∧
      t.cell.value w'.store.heap = t.cell.value w.store.heap := by
  obtain ⟨v, made, value⟩ := download_value inv found
  obtain ⟨new, registry, above⟩ := grown.registry
  have young := inv.young id v made
  have later : new.lookup id = none := by
    rw [List.lookup_eq_none_iff]
    intro e mem
    have late := above e mem
    have apart : id ≠ e.1 := by omega
    simp [apart]
  have found' : w'.registry.lookup id = some t := by
    rw [registry, List.lookup_append, later, found]
    rfl
  obtain ⟨v', made', value'⟩ := download_value inv' found'
  exact ⟨found', by rw [value, value', created_unique inv' made' (grown.log _ made)]⟩

/-- Every download of a handle succeeds and returns what the command that made the handle computed. -/
theorem handles_immutable (run : Runs.Run (step folds) Runs.anyStep (Worker.fresh E) w) (id : Nat) :
    (∀ v v', .downloaded id v ∈ w.log → .created id v' ∈ w.log → v = v') ∧
      (∀ v, .downloaded id v ∈ w.log → .created id v ∈ w.log) ∧
        ∀ t, w.registry.lookup id = some t → ∃ v, .created id v ∈ w.log ∧
          step folds w (.download id) = some { w with log := w.log ++ [.downloaded id v] } := by
  have inv : Inv w := Runs.run_invariant Inv run (inv_fresh E) fun _ _ _ inv _ moved =>
    inv_step inv moved
  refine ⟨fun v v' told made => created_unique inv (inv.told id v told) made, inv.told id, ?_⟩
  intro t found
  obtain ⟨v, made, value⟩ := download_value inv found
  refine ⟨v, made, ?_⟩
  simp only [step, found, value, Option.map_some]

/-- Negation of two numbers: an upload, a captured executable, two executes, and a download of what
    the first one returned. -/
def replayTwice : List (Label Nat) :=
  [.upload [1, 2],
    .compile [.fresh [1, 2], .fresh [8, 9], .capture [[8, 9]]] (some [(.buffer 3, .view)]) false,
    .execute 1 [.handle 1] ⟨[], []⟩ [(3, [9, 8])] [.copies] false,
    .execute 1 [.blob [5, 5]] ⟨[], []⟩ [(3, [5, 5])] [.raises] false, .download 2, .download 3]

theorem first_result_stays : ∃ w : Worker Nat,
    (∀ v, .downloaded 2 v ∈ w.log → .created 2 v ∈ w.log) ∧
      w.log = [.created 1 [1, 2], .created 2 [9, 8], .created 3 [5, 5], .downloaded 2 [9, 8],
        .downloaded 3 [5, 5]] := by
  have ends : (Runs.follow (step false) (Worker.fresh Nat) replayTwice).isSome = true := by decide
  obtain ⟨w, done⟩ := Option.isSome_iff_exists.mp ends
  refine ⟨w, (handles_immutable (Runs.run_of_follow done) 2).2.1, ?_⟩
  cases done
  rfl

end NxTinygrad.Immutable
