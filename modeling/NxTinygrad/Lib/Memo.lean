import Mathlib.Algebra.Order.Ring.Int
import Mathlib.Algebra.BigOperators.Group.Finset.Basic
import Mathlib.Algebra.Order.BigOperators.Group.Finset
import Mathlib.Logic.Relation

/- Traversals that remember what they did: a task calls its parts and may leave a mark when it is done,
   and a call of a task whose mark is there does nothing. What a task adds is added once. -/
namespace Memo
open Relation
open scoped Classical BigOperators

/-- The tasks of a traversal. The weight of a mark is all that is added for it, and `fit` says that a task
    can be done. -/
structure Tasks (X M : Type) where
  parts : X → List X
  label : X → Option M
  weight : M → Nat
  fit : X → Prop
  inside : X → Prop
  rank : X → Nat
  marks : Finset M
  closed : ∀ x y, inside x → y ∈ parts x → inside y
  smaller : ∀ x y, inside x → y ∈ parts x → rank y < rank x
  unique : ∀ x y m, inside x → inside y → label x = some m → label y = some m → x = y
  listed : ∀ x m, inside x → label x = some m → m ∈ marks

@[ext] structure View (M : Type) where
  marked : M → Prop
  count : Nat

namespace Tasks
variable {X M : Type} (T : Tasks X M)

def Reach : X → X → Prop := ReflTransGen fun x y => y ∈ T.parts x

def Leaves (x : X) (m : M) : Prop := ∃ y, T.Reach x y ∧ T.label y = some m

noncomputable def tally (v : View M) : Nat := ∑ m ∈ T.marks, if v.marked m then T.weight m else 0

def Closed (v : View M) : Prop :=
  ∀ m, v.marked m → ∃ x, T.inside x ∧ T.label x = some m ∧
    ∀ y, T.Reach x y → T.fit y ∧ ∀ m', T.label y = some m' → v.marked m'

/-- What some tasks do to a state, where `extra` was added for marks that are still to come. -/
structure Effect (xs : List X) (extra : Nat) (a b : View M) : Prop where
  marks : ∀ m, b.marked m ↔ a.marked m ∨ ∃ x ∈ xs, T.Leaves x m
  count : b.count + T.tally a = a.count + T.tally b + extra
  closed : T.Closed b
  fits : ∀ x ∈ xs, ∀ y, T.Reach x y → T.fit y

variable {T} {x y : X} {xs ys : List X} {m : M} {k j : Nat} {a b c : View M}

theorem reach_iff : T.Reach x y ↔ x = y ∨ ∃ p ∈ T.parts x, T.Reach p y := by
  rw [Reach, ReflTransGen.cases_head_iff]

theorem leaves_iff : T.Leaves x m ↔ T.label x = some m ∨ ∃ p ∈ T.parts x, T.Leaves p m := by
  constructor
  · rintro ⟨y, reach, label⟩
    rcases reach_iff.mp reach with rfl | ⟨p, mem, rest⟩
    · exact .inl label
    · exact .inr ⟨p, mem, y, rest, label⟩
  · rintro (label | ⟨p, mem, y, rest, label⟩)
    · exact ⟨x, .refl, label⟩
    · exact ⟨y, reach_iff.mpr (.inr ⟨p, mem, rest⟩), label⟩

theorem reach_inside (start : T.inside x) (reach : T.Reach x y) : T.inside y ∧ T.rank y ≤ T.rank x := by
  induction reach with
  | refl => exact ⟨start, le_rfl⟩
  | tail _ mem ih => exact ⟨T.closed _ _ ih.1 mem, ((T.smaller _ _ ih.1 mem).trans_le ih.2).le⟩

theorem leaves_single : (∃ y ∈ [x], T.Leaves y m) ↔ T.Leaves x m := by
  simp only [List.mem_singleton, exists_eq_left]

theorem own_mark (start : T.inside x) (label : T.label x = some m) :
    ∀ p ∈ T.parts x, ¬ T.Leaves p m := by
  rintro p mem ⟨y, reach, same⟩
  obtain ⟨there, below⟩ := reach_inside (T.closed _ _ start mem) reach
  have smaller := T.smaller _ _ start mem
  rw [T.unique y x m there start same label] at below
  omega

theorem tally_mark (mem : m ∈ T.marks) (fresh : ¬ a.marked m)
    (marks : ∀ m', b.marked m' ↔ a.marked m' ∨ m' = m) :
    T.tally b = T.tally a + T.weight m := by
  have here : b.marked m := (marks m).mpr (.inr rfl)
  rw [tally, tally, ← Finset.add_sum_erase _ _ mem, ← Finset.add_sum_erase _ _ mem, if_pos here,
    if_neg fresh, zero_add, Nat.add_comm]
  refine congrArg (· + T.weight m) (Finset.sum_congr rfl fun m' other => ?_)
  have same : b.marked m' ↔ a.marked m' := by
    rw [marks m', or_iff_left (Finset.ne_of_mem_erase other)]
  simp only [same]

namespace Effect

theorem nil (closed : T.Closed a) : T.Effect [] 0 a a where
  marks m := by simp
  count := rfl
  closed := closed
  fits x mem := absurd mem List.not_mem_nil

theorem append (first : T.Effect xs k a b) (second : T.Effect ys j b c) :
    T.Effect (xs ++ ys) (k + j) a c where
  marks m := by
    rw [second.marks, first.marks, or_assoc]
    simp only [List.mem_append, or_and_right, exists_or]
  count := by
    have count := first.count
    have count' := second.count
    omega
  closed := second.closed
  fits x mem := (List.mem_append.mp mem).elim (first.fits x) (second.fits x)

theorem same (done : T.Effect xs k a b) (mems : ∀ x, x ∈ ys ↔ x ∈ xs) : T.Effect ys k a b where
  marks m := by simp only [done.marks, mems]
  count := done.count
  closed := done.closed
  fits x mem := done.fits x ((mems x).mp mem)

theorem add (done : T.Effect xs k a b) (marks : ∀ m, c.marked m ↔ b.marked m)
    (count : c.count = b.count + j) :
    T.Effect xs (k + j) a c where
  marks m := (marks m).trans (done.marks m)
  count := by
    have before := done.count
    have same : T.tally c = T.tally b := by simp only [tally, marks]
    omega
  closed m there := by
    obtain ⟨x, inside, label, reached⟩ := done.closed m ((marks m).mp there)
    exact ⟨x, inside, label, fun y reach =>
      ⟨(reached y reach).1, fun m' own => (marks m').mpr ((reached y reach).2 m' own)⟩⟩
  fits := done.fits

theorem hit (closed : T.Closed a) (marked : a.marked m)
    (only : ∀ y, T.inside y → T.label y = some m → y = x) : T.Effect [x] 0 a a := by
  obtain ⟨y, inside, label, reached⟩ := closed m marked
  obtain rfl := only y inside label
  refine ⟨fun m' => ?_, rfl, closed, fun x mem z reach => ?_⟩
  · rw [or_iff_left_of_imp]
    rintro ⟨x, mem, z, reach, own⟩
    obtain rfl := List.mem_singleton.mp mem
    exact (reached z reach).2 m' own
  · obtain rfl := List.mem_singleton.mp mem
    exact (reached z reach).1

theorem pass (label : T.label x = none) (fit : T.fit x) (done : T.Effect (T.parts x) k a b) :
    T.Effect [x] k a b where
  marks m := by
    rw [done.marks, leaves_single, leaves_iff, label]
    simp only [reduceCtorEq, false_or]
  count := done.count
  closed := done.closed
  fits x' mem y reach := by
    obtain rfl := List.mem_singleton.mp mem
    rcases reach_iff.mp reach with rfl | ⟨p, part, rest⟩
    · exact fit
    · exact done.fits p part y rest

theorem put (start : T.inside x) (label : T.label x = some m) (fit : T.fit x) (fresh : ¬ a.marked m)
    (done : T.Effect (T.parts x) k a b) (marks : ∀ m', c.marked m' ↔ b.marked m' ∨ m' = m)
    (count : c.count = b.count + j) (paid : T.weight m = k + j) : T.Effect [x] 0 a c := by
  have still : ¬ b.marked m := by
    rw [done.marks]
    rintro (before | ⟨p, mem, leaves⟩)
    · exact fresh before
    · exact own_mark start label p mem leaves
  have fits : ∀ y, T.Reach x y → T.fit y := by
    intro y reach
    rcases reach_iff.mp reach with rfl | ⟨p, part, rest⟩
    · exact fit
    · exact done.fits p part y rest
  refine ⟨fun m' => ?_, ?_, fun m' there => ?_, fun x' mem => List.mem_singleton.mp mem ▸ fits⟩
  · rw [marks, done.marks, or_assoc, leaves_single, leaves_iff, label, Option.some.injEq,
      @eq_comm _ m m', @or_comm (m' = m)]
  · have before := done.count
    have tally := tally_mark (T.listed x m start label) still marks
    omega
  · rcases (marks m').mp there with before | rfl
    · obtain ⟨y, inside, own, reached⟩ := done.closed m' before
      exact ⟨y, inside, own, fun z reach =>
        ⟨(reached z reach).1, fun m' own => (marks m').mpr (.inl ((reached z reach).2 m' own))⟩⟩
    · refine ⟨x, start, label, fun y reach => ⟨fits y reach, fun m'' own => (marks m'').mpr ?_⟩⟩
      rcases reach_iff.mp reach with rfl | ⟨p, part, rest⟩
      · exact .inr (Option.some.inj (own.symm.trans label))
      · exact .inl ((done.marks m'').mpr (.inr ⟨p, part, y, rest, own⟩))

end Effect

theorem count_marks (done : T.Effect xs 0 a b) (none : ∀ m, ¬ a.marked m) (zero : a.count = 0) :
    b.count = ∑ m ∈ T.marks, if ∃ x ∈ xs, T.Leaves x m then T.weight m else 0 := by
  have empty : T.tally a = 0 := Finset.sum_eq_zero fun m _ => if_neg (none m)
  have count := done.count
  have marks : T.tally b = ∑ m ∈ T.marks, if ∃ x ∈ xs, T.Leaves x m then T.weight m else 0 := by
    refine Finset.sum_congr rfl fun m _ => if_congr ?_ rfl rfl
    rw [done.marks, or_iff_right (none m)]
  omega

end Tasks

theorem repeated_le_iff {ι κ : Type} {E : Finset ι} {C : Finset κ} {f : ι → κ} {w : κ → Nat}
    (maps : ∀ e ∈ E, f e ∈ C) (onto : ∀ c ∈ C, ∃ e ∈ E, f e = c) (work : ∀ c ∈ C, 0 < w c) :
    ∑ e ∈ E, w (f e) ≤ ∑ c ∈ C, w c ↔ Set.InjOn f E := by
  have image : E.image f = C := by
    ext c
    rw [Finset.mem_image]
    constructor
    · rintro ⟨e, mem, rfl⟩
      exact maps e mem
    · exact onto c
  constructor
  · intro le e mem e' mem' same
    by_contra other
    -- without e' everything is still done
    have covers : (E.erase e').image f = C := by
      rw [← image]
      refine Finset.Subset.antisymm (Finset.image_subset_image (Finset.erase_subset _ _))
        fun c there => ?_
      obtain ⟨d, inside, rfl⟩ := Finset.mem_image.mp there
      by_cases last : d = e'
      · exact Finset.mem_image.mpr ⟨e, Finset.mem_erase.mpr ⟨other, mem⟩, by rw [last, same]⟩
      · exact Finset.mem_image_of_mem f (Finset.mem_erase.mpr ⟨last, inside⟩)
    have rest : ∑ c ∈ C, w c ≤ ∑ d ∈ E.erase e', w (f d) := by
      rw [← covers]
      exact Finset.sum_image_le_of_nonneg fun c _ => Nat.zero_le (w c)
    have whole := Finset.add_sum_erase E (fun d => w (f d)) mem'
    have some_work := work (f e') (maps e' mem')
    omega
  · intro apart
    rw [← image, Finset.sum_image apart]

end Memo
