import Mathlib.Data.List.DropRight

/- Texts split at the first separator, and cut down to what is not blank at either end. -/
namespace Splitting
variable {α : Type} {t : List α}

section
variable [DecidableEq α] {sep : α} {a b : List α}

def splitOnce (sep : α) (t : List α) : Option (List α × List α) :=
  if sep ∈ t then some (t.takeWhile (· ≠ sep), (t.dropWhile (· ≠ sep)).tail) else none

theorem splitOnce_none : splitOnce sep t = none ↔ sep ∉ t := by
  unfold splitOnce
  split <;> simp_all

theorem splitOnce_append (free : sep ∉ a) : splitOnce sep (a ++ sep :: b) = some (a, b) := by
  have keep : ∀ x ∈ a, (decide (x ≠ sep)) = true :=
    fun x mem => decide_eq_true (ne_of_mem_of_not_mem mem free)
  have there : sep ∈ a ++ sep :: b := by simp
  rw [splitOnce, if_pos there, List.takeWhile_append_of_pos keep, List.dropWhile_append_of_pos keep]
  simp

theorem splitOnce_some : splitOnce sep t = some (a, b) ↔ t = a ++ sep :: b ∧ sep ∉ a := by
  constructor
  · intro h
    have there : sep ∈ t := by
      by_contra absent
      rw [splitOnce_none.mpr absent] at h
      cases h
    obtain ⟨front, back, rfl, free⟩ := List.eq_append_cons_of_mem there
    rw [splitOnce_append free] at h
    cases h
    exact ⟨rfl, free⟩
  · rintro ⟨rfl, free⟩
    exact splitOnce_append free

theorem splitOnce_map {f : α → α} (fixed : ∀ x, f x = sep ↔ x = sep) (t : List α) :
    splitOnce sep (t.map f) = (splitOnce sep t).map fun p => (p.1.map f, p.2.map f) := by
  cases split : splitOnce sep t with
  | none =>
    refine splitOnce_none.mpr fun mem => splitOnce_none.mp split ?_
    obtain ⟨x, mem, same⟩ := List.mem_map.mp mem
    exact (fixed x).mp same ▸ mem
  | some p =>
    obtain ⟨rfl, free⟩ := splitOnce_some.mp split
    have free' : sep ∉ p.1.map f := by
      intro mem
      obtain ⟨x, mem, same⟩ := List.mem_map.mp mem
      exact free ((fixed x).mp same ▸ mem)
    rw [List.map_append, List.map_cons, (fixed sep).mpr rfl, splitOnce_append free']
    rfl

end

variable {blank blank' : α → Bool}

def trim (blank : α → Bool) (t : List α) : List α := (t.dropWhile blank).rdropWhile blank

structure Tight (blank : α → Bool) (t : List α) : Prop where
  first : ∀ x, t.head? = some x → blank x = false
  last : ∀ x, t.getLast? = some x → blank x = false

theorem trim_of_tight (tight : Tight blank t) : trim blank t = t := by
  have front : t.dropWhile blank = t := by
    cases t with
    | nil => rfl
    | cons x t => simp [tight.first x rfl]
  rw [trim, front, List.rdropWhile_eq_self_iff]
  intro some_end
  simp [tight.last _ (List.getLast?_eq_some_getLast some_end)]

theorem tight_trim (blank : α → Bool) (t : List α) : Tight blank (trim blank t) where
  first x head := by
    obtain ⟨back, split⟩ := List.rdropWhile_prefix blank (t.dropWhile blank)
    have here : (t.dropWhile blank).head? = some x := by
      rw [← split, List.head?_append, show (List.rdropWhile blank (t.dropWhile blank)).head? =
        some x from head]
      rfl
    have kept := List.head?_dropWhile_not blank t
    rw [here] at kept
    simpa using kept
  last x last := by
    have some_end : List.rdropWhile blank (t.dropWhile blank) ≠ [] := by
      intro empty
      rw [trim, empty] at last
      cases last
    have kept := List.rdropWhile_last_not blank (t.dropWhile blank) some_end
    rw [trim, List.getLast?_eq_some_getLast some_end, Option.some.injEq] at last
    rw [last] at kept
    simpa using kept

theorem trim_subset : trim blank t ⊆ t := fun _ mem =>
  (List.dropWhile_sublist _).subset ((List.rdropWhile_prefix blank _).subset mem)

theorem trim_eq_nil : trim blank t = [] ↔ ∀ x ∈ t, blank x = true := by
  constructor
  · intro empty
    have all := List.rdropWhile_eq_nil_iff.mp empty
    have none_left : t.dropWhile blank = [] := by
      by_contra more
      obtain ⟨x, rest, split⟩ := List.exists_cons_of_ne_nil more
      have kept := List.head?_dropWhile_not blank t
      rw [split] at kept
      have here := all x (by simp [split])
      simp [here] at kept
    exact List.dropWhile_eq_nil_iff.mp none_left
  · intro all
    rw [trim, List.dropWhile_eq_nil_iff.mpr all]
    rfl

theorem Tight.weaken (tight : Tight blank t) (le : ∀ x, blank' x = true → blank x = true) :
    Tight blank' t where
  first x head := by
    have keep := tight.first x head
    by_contra more
    rw [le x (by simpa using more)] at keep
    cases keep
  last x last := by
    have keep := tight.last x last
    by_contra more
    rw [le x (by simpa using more)] at keep
    cases keep

theorem Tight.map {f : α → α} (tight : Tight blank t) (same : ∀ x, blank (f x) = blank x) :
    Tight blank (t.map f) where
  first x head := by
    rw [List.head?_map] at head
    obtain ⟨y, here, rfl⟩ := Option.map_eq_some_iff.mp head
    exact (same y).trans (tight.first y here)
  last x last := by
    rw [List.getLast?_map] at last
    obtain ⟨y, here, rfl⟩ := Option.map_eq_some_iff.mp last
    exact (same y).trans (tight.last y here)

end Splitting
