import NxTinygrad.Lib.NDArray
import Mathlib.Algebra.BigOperators.Group.Finset.Basic
import Mathlib.Algebra.BigOperators.Group.Finset.Sigma
import Mathlib.Algebra.Ring.Defs
import Mathlib.Data.List.Dedup
import Mathlib.Logic.Function.Basic

/- Einstein summation of two arrays whose axes carry labels: axes of one label run together, and a
   label that the result does not name is summed over. -/
namespace NDArray

variable {α κ : Type}

def entry [Zero α] (t : NDArray α) (idx : List Nat) : α := (t.get? idx).getD 0

theorem get?_entry [Zero α] {t : NDArray α} {idx : List Nat} (inside : Inside t.shape idx) :
    t.get? idx = some (t.entry idx) := by
  obtain ⟨x, read⟩ := Option.isSome_iff_exists.mp (get?_isSome.mpr inside)
  rw [entry, read, Option.getD_some]

theorem zip_size {σ : κ → Nat} {A : List κ} {shape : List Nat} (sizes : shape = A.map σ) :
    ∀ p ∈ A.zip shape, p.2 = σ p.1 := by
  subst sizes
  intro p mem
  rw [← List.map_prod_left_eq_zip] at mem
  obtain ⟨c, _, rfl⟩ := List.mem_map.mp mem
  rfl

theorem zip_mem {σ : κ → Nat} {A : List κ} {c : κ} {shape : List Nat} (sizes : shape = A.map σ)
    (mem : c ∈ A) :
    ∃ p ∈ A.zip shape, p.1 = c := by
  subst sizes
  rw [← List.map_prod_left_eq_zip]
  exact ⟨(c, σ c), List.mem_map_of_mem mem, rfl⟩

variable [DecidableEq κ]

def assign : List κ → List Nat → (κ → Nat) → κ → Nat
  | c :: cs, v :: vs, e => assign cs vs (Function.update e c v)
  | _, _, e => e

def sumOver [AddCommMonoid α] (size : κ → Nat) : List κ → ((κ → Nat) → α) → (κ → Nat) → α
  | [], f, e => f e
  | c :: cs, f, e => ∑ i ∈ Finset.range (size c), sumOver size cs f (Function.update e c i)

def labelSize (axes : List (κ × Nat)) (c : κ) : Nat := (axes.lookup c).getD 0

def einstein [CommSemiring α] (A B C : List κ) (t t' : NDArray α) : Option (NDArray α) :=
  let size := labelSize (A.zip t.shape ++ B.zip t'.shape)
  if t.shape = A.map size ∧ t'.shape = B.map size ∧ C.Nodup ∧ ∀ c ∈ C, c ∈ A ++ B then
    some (tabulate (C.map size) fun idx =>
      sumOver size ((A ++ B).dedup.filter (· ∉ C)) (fun e => t.entry (A.map e) * t'.entry (B.map e))
        (assign C idx fun _ => 0))
  else none

variable {cs cs' : List κ} {vs : List Nat} {c : κ} {e : κ → Nat}

theorem assign_other (other : c ∉ cs) : assign cs vs e c = e c := by
  induction cs generalizing vs e with
  | nil => rfl
  | cons d cs ih =>
    obtain ⟨apart, later⟩ := not_or.mp (fun h => other (List.mem_cons.mpr h))
    cases vs with
    | nil => rfl
    | cons v vs => rw [assign, ih later, Function.update_of_ne apart]

theorem assign_get (nodup : cs.Nodup) {k v : Nat} (label : cs[k]? = some c) (value : vs[k]? = some v) :
    assign cs vs e c = v := by
  induction cs generalizing vs e k with
  | nil => cases label
  | cons d cs ih =>
    obtain ⟨fresh, rest⟩ := List.nodup_cons.mp nodup
    cases vs with
    | nil => cases value
    | cons u vs =>
      cases k with
      | zero =>
        cases label
        cases value
        rw [assign, assign_other fresh, Function.update_self]
      | succ k => exact ih rest (by simpa using label) (by simpa using value)

theorem assign_append (len : cs.length = vs.length) (vs' : List Nat) :
    assign (cs ++ cs') (vs ++ vs') e = assign cs' vs' (assign cs vs e) := by
  induction cs generalizing vs e with
  | nil =>
    cases vs with
    | nil => cases cs' <;> cases vs' <;> rfl
    | cons v vs => cases len
  | cons c cs ih =>
    cases vs with
    | nil => cases len
    | cons v vs => exact ih (by simpa using len)

theorem labelSize_eq {axes : List (κ × Nat)} {σ : κ → Nat} (all : ∀ p ∈ axes, p.2 = σ p.1)
    (there : ∃ p ∈ axes, p.1 = c) : labelSize axes c = σ c := by
  induction axes with
  | nil =>
    obtain ⟨p, mem, -⟩ := there
    cases mem
  | cons p rest ih =>
    obtain ⟨d, v⟩ := p
    by_cases here : d = c
    · subst here
      have value := all (d, v) (List.mem_cons_self ..)
      rw [labelSize, List.lookup_cons_self, Option.getD_some]
      exact value
    · have later : ∃ q ∈ rest, q.1 = c := by
        obtain ⟨q, mem, same⟩ := there
        rcases List.mem_cons.mp mem with rfl | mem
        · exact absurd same here
        · exact ⟨q, mem, same⟩
      have found := ih (fun q mem => all q (List.mem_cons_of_mem _ mem)) later
      have apart : (c == d) = false := beq_false_of_ne (Ne.symm here)
      rw [labelSize, List.lookup_cons, apart]
      exact found

section sums
variable [AddCommMonoid α] {size σ : κ → Nat} {f : (κ → Nat) → α}

theorem sumOver_congr (same : ∀ c ∈ cs, size c = σ c) : sumOver size cs f e = sumOver σ cs f e := by
  induction cs generalizing e with
  | nil => rfl
  | cons c cs ih =>
    rw [sumOver, sumOver, same c (List.mem_cons_self ..)]
    exact Finset.sum_congr rfl fun i _ => ih fun d mem => same d (List.mem_cons_of_mem _ mem)

theorem sumOver_perm (order : cs.Perm cs') (nodup : cs.Nodup) :
    sumOver size cs f e = sumOver size cs' f e := by
  induction order generalizing e with
  | nil => rfl
  | cons c _ ih =>
    rw [sumOver, sumOver]
    exact Finset.sum_congr rfl fun i _ => ih (List.nodup_cons.mp nodup).2
  | swap c d cs =>
    have apart : d ≠ c := by
      rintro rfl
      simp at nodup
    simp only [sumOver]
    rw [Finset.sum_comm]
    refine Finset.sum_congr rfl fun i _ => Finset.sum_congr rfl fun j _ => ?_
    rw [Function.update_comm apart]
  | trans first _ ih ih' => exact (ih nodup).trans (ih' (first.nodup_iff.mp nodup))

theorem sum_indices_cons (d : Nat) (ds : List Nat) (g : List Nat → α) :
    ((indices (d :: ds)).map g).sum =
    ∑ i ∈ Finset.range d, ((indices ds).map fun s => g (i :: s)).sum := by
  have rows : ∀ l : List Nat, ((l.flatMap fun i => (indices ds).map (i :: ·)).map g).sum =
      (l.map fun i => ((indices ds).map fun s => g (i :: s)).sum).sum := by
    intro l
    induction l with
    | nil => rfl
    | cons i l ih => simp only [List.flatMap_cons, List.map_append, List.sum_append, List.map_map, ih,
        List.map_cons, List.sum_cons, Function.comp_def]
  exact rows (List.range d)

theorem sumOver_eq : sumOver size cs f e =
    ((indices (cs.map size)).map fun s => f (assign cs s e)).sum := by
  induction cs generalizing e with
  | nil => simp [sumOver, indices, assign]
  | cons c cs ih =>
    rw [List.map_cons, sum_indices_cons, sumOver]
    exact Finset.sum_congr rfl fun i _ => ih

theorem sum_filter {β : Type} (p : β → Prop) [DecidablePred p] (g : β → α) (l : List β) :
    ((l.filter p).map g).sum = (l.map fun b => if p b then g b else 0).sum := by
  induction l with
  | nil => rfl
  | cons b rest ih =>
    by_cases here : p b
    · rw [List.filter_cons_of_pos (by simpa using here), List.map_cons, List.map_cons,
        List.sum_cons, List.sum_cons, if_pos here, ih]
    · rw [List.filter_cons_of_neg (by simpa using here), List.map_cons, List.sum_cons, if_neg here,
        zero_add, ih]

theorem sum_single {β : Type} {l : List β} {b : β} {g : β → α} (nodup : l.Nodup) (mem : b ∈ l)
    (others : ∀ c ∈ l, c ≠ b → g c = 0) : (l.map g).sum = g b := by
  induction l with
  | nil => cases mem
  | cons c rest ih =>
    obtain ⟨fresh, nodup⟩ := List.nodup_cons.mp nodup
    rw [List.map_cons, List.sum_cons]
    rcases List.mem_cons.mp mem with rfl | mem
    · have none : (rest.map g).sum = 0 := by
        refine List.sum_eq_zero fun x there => ?_
        obtain ⟨d, later, rfl⟩ := List.mem_map.mp there
        exact others d (List.mem_cons_of_mem _ later) fun same => fresh (same ▸ later)
      rw [none, add_zero]
    · rw [others c (List.mem_cons_self ..) fun same => fresh (same ▸ mem), zero_add]
      exact ih nodup mem fun d there => others d (List.mem_cons_of_mem _ there)

theorem sum_indices_append (a b : List Nat) (g : List Nat → α) : ((indices (a ++ b)).map g).sum =
    ((indices a).map fun i => ((indices b).map fun k => g (i ++ k)).sum).sum := by
  rw [indices_append]
  induction indices a with
  | nil => rfl
  | cons i rest ih =>
    simp only [List.flatMap_cons, List.map_append, List.sum_append, ih, List.map_map, List.map_cons,
      List.sum_cons, Function.comp_def]

end sums

section einstein
variable [CommSemiring α] {A B C K : List κ} {σ : κ → Nat} {t t' : NDArray α}

theorem einstein_ok (left : t.shape = A.map σ) (right : t'.shape = B.map σ) (named : (C ++ K).Nodup)
    (labels : ∀ c, c ∈ A ++ B ↔ c ∈ C ++ K) : ∃ r, einstein A B C t t' = some r ∧ r.shape = C.map σ ∧
      ∀ idx, Inside (C.map σ) idx → r.get? idx = some ((indices (K.map σ)).map fun s =>
        t.entry (A.map (assign (C ++ K) (idx ++ s) fun _ => 0)) *
          t'.entry (B.map (assign (C ++ K) (idx ++ s) fun _ => 0))).sum := by
  obtain ⟨fresh, fresh', apart⟩ := List.nodup_append.mp named
  have sizes : ∀ c ∈ A ++ B, labelSize (A.zip t.shape ++ B.zip t'.shape) c = σ c := by
    intro c mem
    refine labelSize_eq (fun p mem => ?_) ?_
    · exact (List.mem_append.mp mem).elim (zip_size left p) (zip_size right p)
    · rcases List.mem_append.mp mem with mem | mem
      · obtain ⟨p, there, same⟩ := zip_mem left mem
        exact ⟨p, List.mem_append_left _ there, same⟩
      · obtain ⟨p, there, same⟩ := zip_mem right mem
        exact ⟨p, List.mem_append_right _ there, same⟩
  have inC : ∀ c ∈ C, c ∈ A ++ B := fun c mem => (labels c).mpr (List.mem_append_left _ mem)
  have summed : ((A ++ B).dedup.filter (· ∉ C)).Perm K := by
    refine (List.perm_ext_iff_of_nodup ((List.nodup_dedup _).filter _) fresh').mpr fun c => ?_
    rw [List.mem_filter, List.mem_dedup, labels c, List.mem_append, decide_eq_true_iff]
    constructor
    · rintro ⟨here | here, out⟩
      · exact absurd here out
      · exact here
    · intro here
      exact ⟨.inr here, fun mem => apart c mem c here rfl⟩
  have dims : C.map (labelSize (A.zip t.shape ++ B.zip t'.shape)) = C.map σ :=
    List.map_congr_left fun c mem => sizes c (inC c mem)
  have leftSizes : t.shape = A.map (labelSize (A.zip t.shape ++ B.zip t'.shape)) := by
    refine left.trans (List.map_congr_left fun c mem => (sizes c ?_).symm)
    exact List.mem_append_left _ mem
  have rightSizes : t'.shape = B.map (labelSize (A.zip t.shape ++ B.zip t'.shape)) := by
    refine right.trans (List.map_congr_left fun c mem => (sizes c ?_).symm)
    exact List.mem_append_right _ mem
  refine ⟨_, if_pos ⟨leftSizes, rightSizes, fresh, inC⟩, dims, fun idx inside => ?_⟩
  have inside' : Inside (C.map (labelSize (A.zip t.shape ++ B.zip t'.shape))) idx := dims ▸ inside
  have len : C.length = idx.length := by simpa using inside.length.symm
  rw [get?_tabulate inside', sumOver_perm summed ((List.nodup_dedup _).filter _),
    sumOver_congr fun c mem => sizes c ((labels c).mpr (List.mem_append_right _ mem)), sumOver_eq]
  simp only [assign_append len]

end einstein
end NDArray
