import NxTinygrad.Immutable
import Mathlib.Data.List.Forall2
import Mathlib.Data.List.Pairwise

/- The tensors that a replay of a whole graph is called with: `Executable._dedup`. -/
namespace NxTinygrad.InputSlots
open Buffers Immutable

variable {E : Type}

/-- `_dedup`, for tensors that are realized: an object that was seen is cloned. Each registry entry
    has an object of its own; a blob is a new object. -/
def dedupSlots (s : Store (List E)) (seen : List Nat) :
    List (Option Nat × Tensor E) → Option (List (Tensor E) × Store (List E))
  | [] => some ([], s)
  | (none, t) :: rest => do
      let (ts, s) ← dedupSlots s seen rest
      some (t :: ts, s)
  | (some id, t) :: rest =>
      if seen.contains id then do
        let (t, s) ← cloned s t
        let (ts, s) ← dedupSlots s seen rest
        some (t :: ts, s)
      else do
        let (ts, s) ← dedupSlots s (id :: seen) rest
        some (t :: ts, s)

def bases (ts : List (Tensor E)) : List Nat := ts.filterMap Tensor.base

def firsts (seen : List Nat) : List (Option Nat × Tensor E) → List (Option Nat × Tensor E)
  | [] => []
  | (none, t) :: rest => (none, t) :: firsts seen rest
  | (some id, t) :: rest =>
      if seen.contains id then firsts seen rest else (some id, t) :: firsts (id :: seen) rest

/-- No two handles among the inputs stand for tensors over one buffer. -/
def Unshared (w : Worker E) (inputs : List (Input E)) : Prop :=
  ∀ id id' t t' a, .handle id ∈ inputs → .handle id' ∈ inputs → w.registry.lookup id = some t →
    w.registry.lookup id' = some t' → t.base = some a → t'.base = some a → id = id'

variable {s s' : Store (List E)} {live seen : List Nat} {given : List (Option Nat × Tensor E)}
variable {ts : List (Tensor E)}

theorem dedupSlots_store : (dedupSlots s seen given).map Prod.snd = dedup s seen given := by
  induction given generalizing s seen with
  | nil => rfl
  | cons i rest ih =>
    obtain ⟨_ | id, t⟩ := i
    · simp only [dedupSlots, dedup, ← ih]
      cases dedupSlots s seen rest <;> rfl
    · simp only [dedupSlots, dedup]
      split
      · cases cloned s t with
        | none => rfl
        | some r =>
          simp only [Option.bind_eq_bind, Option.bind_some, ← ih]
          cases dedupSlots r.2 seen rest <;> rfl
      · rw [← ih]
        cases dedupSlots s (id :: seen) rest <;> rfl

theorem base_foot {t : Tensor E} {a : Nat} (base : t.base = some a) : t.cell.foot = [a] := by
  cases t <;> cases base <;> rfl

def cells (given : List (Option Nat × Tensor E)) : List (Cell (List E)) := given.map fun i => i.2.cell

structure Slots (s : Store (List E)) (first : List (Option Nat × Tensor E)) (vs : List (List E))
    (ts : List (Tensor E)) (s' : Store (List E)) : Prop where
  keeps : ∀ live, (∀ a ∈ live, a < s.next) → Keeps live s s'
  holds : HoldAll s' (ts.map Tensor.cell) vs
  old : ∀ a, a < s.next → (a ∈ bases ts ↔ a ∈ bases (first.map Prod.snd))
  nodup : (bases ts).Nodup ↔ (bases (first.map Prod.snd)).Nodup

theorem firsts_sublist : (firsts seen given).Sublist given := by
  induction given generalizing seen with
  | nil => exact .slnil
  | cons i rest ih =>
    obtain ⟨_ | id, t⟩ := i
    · exact ih.cons_cons _
    · simp only [firsts]
      split
      · exact ih.cons _
      · exact ih.cons_cons _

theorem bases_used (used : ∀ a ∈ feet (cells given), a < s.next) {a : Nat}
    (mem : a ∈ bases ((firsts seen given).map Prod.snd)) : a < s.next := by
  obtain ⟨t, listed, base⟩ := List.mem_filterMap.mp mem
  obtain ⟨i, first, rfl⟩ := List.mem_map.mp listed
  refine used a (List.mem_flatMap.mpr ⟨i.2.cell, List.mem_map_of_mem (firsts_sublist.subset first), ?_⟩)
  simp [base_foot base]

section slots
variable {first : List (Option Nat × Tensor E)} {vs : List (List E)} {t : Tensor E} {v : List E}

theorem slots_kept (o : Option Nat) (holds : Holds s t.cell v) (slots : Slots s first vs ts s') :
    Slots s ((o, t) :: first) (v :: vs) (t :: ts) s' where
  keeps := slots.keeps
  holds := .cons (holds_keep holds (slots.keeps _ holds.used) fun _ mem => mem) slots.holds
  old a low := by
    have later := slots.old a low
    cases base : t.base with
    | none => simpa only [bases, List.map_cons, List.filterMap_cons, base] using later
    | some b =>
      simp only [bases, List.map_cons, List.filterMap_cons, base, List.mem_cons] at later ⊢
      rw [later]
  nodup := by
    have later := slots.nodup
    cases base : t.base with
    | none => simpa only [bases, List.map_cons, List.filterMap_cons, base] using later
    | some a =>
      have here := slots.old a (holds.used a (by simp [base_foot base]))
      simp only [bases, List.map_cons, List.filterMap_cons, base, List.nodup_cons] at later here ⊢
      rw [here, later]

theorem slots_cloned (used : ∀ a ∈ bases (first.map Prod.snd), a < s.next)
    (slots : Slots (s.alloc v).2 first vs ts s') :
      Slots s first (v :: vs) (.buffer s.next :: ts) s' where
  keeps live inside := keeps_trans (alloc_keeps inside v)
    (slots.keeps live fun a mem => Nat.lt_succ_of_lt (inside a mem))
  holds := .cons (holds_keep (alloc_holds s v) (slots.keeps _ (alloc_holds s v).used) fun _ mem => mem)
    slots.holds
  old a low := by
    have later := slots.old a (Nat.lt_succ_of_lt low)
    simp only [bases, List.filterMap_cons, Tensor.base, List.mem_cons] at later ⊢
    rw [later]
    exact ⟨fun h => h.resolve_left (Nat.ne_of_lt low), Or.inr⟩
  nodup := by
    have fresh : s.next ∉ bases ts := fun mem =>
      Nat.lt_irrefl _ (used _ ((slots.old _ (Nat.lt_succ_self _)).mp mem))
    rw [show bases (.buffer s.next :: ts) = s.next :: bases ts from rfl, List.nodup_cons, slots.nodup]
    exact ⟨fun h => h.2, fun h => ⟨fresh, h⟩⟩

theorem dedupSlots_spec (seen : List Nat) (holds : HoldAll s (cells given) vs) :
    ∃ ts s', dedupSlots s seen given = some (ts, s') ∧ Slots s (firsts seen given) vs ts s' := by
  induction given generalizing s seen vs with
  | nil =>
    cases holds
    exact ⟨[], s, rfl, ⟨fun live _ => keeps_refl live s,
      .nil, by simp [bases, firsts], by simp [bases, firsts]⟩⟩
  | cons i rest ih =>
    obtain ⟨v, vs, here, later, rfl⟩ := List.forall₂_cons_left_iff.mp holds
    obtain ⟨_ | id, t⟩ := i
    · obtain ⟨ts, s', made, slots⟩ := ih seen later
      exact ⟨t :: ts, s', by simp [dedupSlots, made], slots_kept none here slots⟩
    · cases known : seen.contains id with
      | false =>
        obtain ⟨ts, s', made, slots⟩ := ih (id :: seen) later
        refine ⟨t :: ts, s', by rw [dedupSlots, known, if_neg Bool.false_ne_true, made]; rfl, ?_⟩
        simpa only [firsts, known, Bool.false_eq_true, if_false] using slots_kept (some id) here slots
      | true =>
        have used := holdAll_used later
        have moved := holdAll_keep later (alloc_keeps used v) fun _ mem => mem
        obtain ⟨ts, s', made, slots⟩ := ih seen moved
        have copied : cloned s t = some (.buffer s.next, (s.alloc v).2) :=
          Option.map_eq_some_iff.mpr ⟨v, here.value, rfl⟩
        refine ⟨.buffer s.next :: ts, s', ?_, ?_⟩
        · rw [dedupSlots, known, if_pos rfl, copied, Option.bind_eq_bind, Option.bind_some]
          dsimp only
          rw [made]
          rfl
        · simpa only [firsts, known, if_true] using slots_cloned (fun a => bases_used used) slots

end slots

theorem firsts_ids : (∀ i ∈ firsts seen given, ∀ id ∈ seen, i.1 ≠ some id) ∧
    (firsts seen given).Pairwise fun i j => ∀ id, i.1 = some id → j.1 ≠ some id := by
  induction given generalizing seen with
  | nil => exact ⟨by simp [firsts], .nil⟩
  | cons i rest ih =>
    obtain ⟨_ | id, t⟩ := i
    · obtain ⟨fresh, apart⟩ := @ih seen
      refine ⟨?_, .cons (by simp) apart⟩
      exact List.forall_mem_cons.mpr ⟨by simp, fresh⟩
    · simp only [firsts]
      split
      · exact @ih seen
      · rename_i unseen
        obtain ⟨fresh, apart⟩ := @ih (id :: seen)
        refine ⟨List.forall_mem_cons.mpr ⟨?_, ?_⟩, .cons ?_ apart⟩
        · rintro id' mem ⟨⟩
          exact unseen (by simpa using mem)
        · exact fun i mem id' there => fresh i mem id' (List.mem_cons_of_mem _ there)
        · rintro j mem id' ⟨⟩
          exact fresh j mem id (List.mem_cons_self ..)

theorem firsts_mem {id : Nat} {t : Tensor E} (mem : (some id, t) ∈ given) (unseen : id ∉ seen) :
    ∃ t', (some id, t') ∈ firsts seen given := by
  induction given generalizing seen with
  | nil => cases mem
  | cons i rest ih =>
    obtain ⟨_ | id', t'⟩ := i
    · obtain ⟨u, there⟩ := ih ((List.mem_cons.mp mem).resolve_left (by simp)) unseen
      exact ⟨u, List.mem_cons_of_mem _ there⟩
    · simp only [firsts]
      by_cases same : id = id'
      · subst same
        exact ⟨t', by simp [unseen]⟩
      · have later := (List.mem_cons.mp mem).resolve_left (by simp [same])
        split
        · exact ih later unseen
        · obtain ⟨u, there⟩ := @ih (id' :: seen) later (by simp [same, unseen])
          exact ⟨u, List.mem_cons_of_mem _ there⟩

structure Gathered (registry : List (Nat × Tensor E)) (s : Store (List E)) (inputs : List (Input E))
    (given : List (Option Nat × Tensor E)) (s' : Store (List E)) : Prop where
  handles : ∀ id t, (some id, t) ∈ given ↔ .handle id ∈ inputs ∧ registry.lookup id = some t
  blobs : ∀ t, (none, t) ∈ given → ∃ b, t = .buffer b ∧ s.next ≤ b
  apart : given.Pairwise fun i j => i.1 = none → j.1 = none → i.2.base ≠ j.2.base
  holds : ∃ vs, HoldAll s' (cells given) vs

theorem gather_given {registry : List (Nat × Tensor E)} {inputs : List (Input E)}
    (valued : ∀ p ∈ registry, ∃ v, Holds s p.2.cell v)
    (made : gather registry s inputs = (s', some given)) :
    (∀ live, (∀ a ∈ live, a < s.next) → Keeps live s s') ∧ Gathered registry s inputs given s' := by
  induction inputs generalizing s given with
  | nil =>
    cases made
    exact ⟨fun live _ => keeps_refl live _, by simp, by simp, .nil, [], .nil⟩
  | cons i rest ih =>
    cases i with
    | handle id =>
      simp only [gather] at made
      cases found : registry.lookup id with
      | none => simp [found] at made
      | some t =>
        simp only [found, Prod.mk.injEq] at made
        obtain ⟨rfl, listed⟩ := made
        obtain ⟨more, tail, rfl⟩ := Option.map_eq_some_iff.mp listed
        obtain ⟨keeps, later⟩ := ih valued (Prod.ext rfl tail)
        obtain ⟨v, holds⟩ := valued (id, t) (lookup_listed found)
        obtain ⟨vs, all⟩ := later.holds
        refine ⟨keeps, ?_, ?_, .cons (by simp) later.apart, v :: vs, .cons ?_ all⟩
        · intro id' t'
          simp only [List.mem_cons, Prod.mk.injEq, Option.some.injEq, later.handles, Input.handle.injEq]
          constructor
          · rintro (⟨rfl, rfl⟩ | ⟨there, looked⟩)
            · exact ⟨.inl rfl, found⟩
            · exact ⟨.inr there, looked⟩
          · rintro ⟨rfl | there, looked⟩
            · exact .inl ⟨rfl, Option.some.inj (looked.symm.trans found)⟩
            · exact .inr ⟨there, looked⟩
        · intro t' mem
          exact later.blobs t' ((List.mem_cons.mp mem).resolve_left (by simp))
        · exact holds_keep holds (keeps _ holds.used) fun _ mem => mem
    | blob v =>
      simp only [gather, Prod.mk.injEq] at made
      obtain ⟨rfl, listed⟩ := made
      obtain ⟨more, tail, rfl⟩ := Option.map_eq_some_iff.mp listed
      have moved : ∀ p ∈ registry, ∃ v', Holds (s.alloc v).2 p.2.cell v' := fun p entry => by
        obtain ⟨v', holds⟩ := valued p entry
        exact ⟨v', holds_keep holds (alloc_keeps holds.used v) fun _ mem => mem⟩
      obtain ⟨keeps, later⟩ := ih moved (Prod.ext rfl tail)
      obtain ⟨vs, all⟩ := later.holds
      have grown : ∀ a, a < s.next → a < (s.alloc v).2.next := fun a low => Nat.lt_succ_of_lt low
      refine ⟨fun live used => keeps_trans (alloc_keeps used v)
        (keeps live fun a mem => grown a (used a mem)),
        ?_, ?_, .cons ?_ later.apart, v :: vs, .cons ?_ all⟩
      · intro id t
        simp only [List.mem_cons, Prod.mk.injEq, reduceCtorEq, false_and, false_or, later.handles]
      · intro t mem
        rcases List.mem_cons.mp mem with same | there
        · cases same
          exact ⟨s.next, rfl, Nat.le_refl _⟩
        · obtain ⟨b, same, old⟩ := later.blobs t there
          exact ⟨b, same, Nat.le_of_succ_le old⟩
      · rintro ⟨o, t⟩ mem - rfl same
        obtain ⟨b, rfl, old⟩ := later.blobs t mem
        cases same
        exact Nat.lt_irrefl _ old
      · have here := alloc_holds s v
        exact holds_keep here (keeps _ here.used) fun _ mem => mem

section runs
variable {folds : Bool} {w : Worker E} {inputs : List (Input E)}

theorem registry_valued (inv : Inv w) : ∀ p ∈ w.registry, ∃ v, Holds w.store p.2.cell v := by
  intro p entry
  obtain ⟨v, -, holds⟩ := inv.held p entry
  exact ⟨v, holds⟩

theorem firsts_apart (valued : ∀ p ∈ w.registry, ∃ v, Holds w.store p.2.cell v)
    (gathered : Gathered w.registry w.store inputs given s) (unshared : Unshared w inputs) :
    (bases ((firsts [] given).map Prod.snd)).Nodup := by
  have inside {id : Nat} {t : Tensor E} {a : Nat} (mem : (some id, t) ∈ firsts [] given)
      (base : t.base = some a) : a < w.store.next := by
    have found := ((gathered.handles id t).mp (firsts_sublist.subset mem)).2
    obtain ⟨v, holds⟩ := valued (id, t) (lookup_listed found)
    exact holds.used a (by simp [base_foot base])
  have outside {t : Tensor E} {a : Nat} (mem : (none, t) ∈ firsts [] given) (base : t.base = some a) :
      w.store.next ≤ a := by
    obtain ⟨b, rfl, old⟩ := gathered.blobs t (firsts_sublist.subset mem)
    cases base
    exact old
  unfold bases List.Nodup
  rw [List.pairwise_filterMap, List.pairwise_map]
  refine (firsts_ids.2.and (gathered.apart.sublist firsts_sublist)).imp_of_mem ?_
  rintro ⟨_ | id, t⟩ ⟨_ | id', t'⟩ mem mem' ⟨ids, blobs⟩ a base _ base' rfl
  · exact blobs rfl rfl (base.trans base'.symm)
  · exact absurd (inside mem' base') (Nat.not_lt_of_le (outside mem base))
  · exact absurd (inside mem base) (Nat.not_lt_of_le (outside mem' base'))
  · obtain ⟨asked, found⟩ := (gathered.handles id t).mp (firsts_sublist.subset mem)
    obtain ⟨asked', found'⟩ := (gathered.handles id' t').mp (firsts_sublist.subset mem')
    have same := unshared id id' t t' a asked asked' found found' base base'
    exact ids id rfl (congrArg some same.symm)

theorem unshared_of_apart (gathered : Gathered w.registry w.store inputs given s)
    (apart : (bases ((firsts [] given).map Prod.snd)).Nodup) : Unshared w inputs := by
  intro id id' t t' a asked asked' found found' base base'
  by_contra different
  obtain ⟨u, mem⟩ := firsts_mem ((gathered.handles id t).mpr ⟨asked, found⟩) List.not_mem_nil
  obtain ⟨u', mem'⟩ := firsts_mem ((gathered.handles id' t').mpr ⟨asked', found'⟩) List.not_mem_nil
  have same := ((gathered.handles id u).mp (firsts_sublist.subset mem)).2
  have same' := ((gathered.handles id' u').mp (firsts_sublist.subset mem')).2
  obtain rfl : t = u := Option.some.inj (found.symm.trans same)
  obtain rfl : t' = u' := Option.some.inj (found'.symm.trans same')
  unfold bases List.Nodup at apart
  rw [List.pairwise_filterMap, List.pairwise_map] at apart
  have symmetric : Std.Symm fun i j : Option Nat × Tensor E =>
      ∀ b, i.2.base = some b → ∀ b', j.2.base = some b' → b ≠ b' :=
    ⟨fun _ _ apart b there b' here => (apart b' here b there).symm⟩
  have entries : (some id, t) ≠ (some id', t') := by simp [different]
  exact apart.forall mem mem' entries a base a base' rfl

/-- In every state of a worker, `_dedup` keeps the values of the inputs of a request, and gives each
    slot a buffer of its own exactly when no two handles among them share one. -/
theorem slots_distinct_iff (run : Runs.Run (step folds) Runs.anyStep (Worker.fresh E) w)
    (made : gather w.registry w.store inputs = (s, some given)) : ∃ ts s' vs,
      dedupSlots s [] given = some (ts, s') ∧ dedup s [] given = some s' ∧ HoldAll s (cells given) vs ∧
        HoldAll s' (ts.map Tensor.cell) vs ∧ ((bases ts).Nodup ↔ Unshared w inputs) := by
  have inv : Inv w := Runs.run_invariant Inv run (inv_fresh E) fun _ _ _ inv _ moved =>
    inv_step inv moved
  have valued := registry_valued inv
  obtain ⟨-, gathered⟩ := gather_given valued made
  obtain ⟨vs, holds⟩ := gathered.holds
  obtain ⟨ts, s', done, slots⟩ := dedupSlots_spec [] holds
  have stored : dedup s [] given = some s' := by rw [← dedupSlots_store, done, Option.map_some]
  exact ⟨ts, s', vs, done, stored, holds, slots.holds, slots.nodup.trans
    ⟨unshared_of_apart gathered, firsts_apart valued gathered⟩⟩

end runs

def twoHandles : List (Label Nat) :=
  [.upload [1, 2], .runNode [.handle 1] [] (.buffer 0) .view false]

theorem copied_handle_shares_its_slot : ∃ w s, Runs.Run (step false) Runs.anyStep (Worker.fresh Nat) w ∧
    gather w.registry w.store [.handle 1, .handle 2] =
    (s, some [(some 1, .buffer 0), (some 2, .buffer 0)]) ∧
      ∃ ts s', dedupSlots s [] [(some 1, .buffer 0), (some 2, .buffer 0)] = some (ts, s') ∧
        bases ts = [0, 0] := by
  have ends : (Runs.follow (step false) (Worker.fresh Nat) twoHandles).isSome = true := by decide
  obtain ⟨w, done⟩ := Option.isSome_iff_exists.mp ends
  refine ⟨w, w.store, Runs.run_of_follow done, ?_, _, _, rfl, rfl⟩
  cases done
  rfl

theorem repeated_handle_is_cloned : ∃ (w : Worker Nat) (ts : List (Tensor Nat)) (s' : Store (List Nat)),
    dedupSlots w.store [] [(some 1, .buffer 0), (some 1, .buffer 0)] = some (ts, s') ∧
      ((bases ts).Nodup ↔ Unshared w [.handle 1, .handle 1]) ∧ bases ts = [0, 1] := by
  have ends : (Runs.follow (step false) (Worker.fresh Nat) [.upload [1, 2]]).isSome = true := by decide
  obtain ⟨w, done⟩ := Option.isSome_iff_exists.mp ends
  have gathered : gather w.registry w.store [.handle 1, .handle 1] =
      (w.store, some [(some 1, .buffer 0), (some 1, .buffer 0)]) := by
    cases done
    rfl
  obtain ⟨ts, s', vs, made, -, -, -, distinct⟩ := slots_distinct_iff (Runs.run_of_follow done) gathered
  refine ⟨w, ts, s', made, distinct, ?_⟩
  cases done
  cases made
  rfl

end NxTinygrad.InputSlots
