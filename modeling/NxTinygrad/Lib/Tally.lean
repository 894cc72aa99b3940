import Mathlib.Algebra.Order.Ring.Int
import Mathlib.Data.List.Basic

/- A number counted over the entries of a list. -/
namespace Tally
variable {α : Type}

def tally (f : α → Nat) (l : List α) : Nat := (l.map f).sum

@[simp] theorem tally_nil (f : α → Nat) : tally f [] = 0 := rfl

@[simp] theorem tally_cons (f : α → Nat) (a : α) (l : List α) :
    tally f (a :: l) = f a + tally f l := rfl

@[simp] theorem tally_append (f : α → Nat) (l l' : List α) :
    tally f (l ++ l') = tally f l + tally f l' := by
  simp [tally]

theorem tally_set {f : α → Nat} {l : List α} {i : Nat} {a : α} (here : l[i]? = some a) (b : α) :
    tally f (l.set i b) + f a = tally f l + f b := by
  induction l generalizing i with
  | nil => simp at here
  | cons x rest ih =>
    cases i with
    | zero =>
      simp only [List.getElem?_cons_zero, Option.some.injEq] at here
      subst here
      simp only [List.set_cons_zero, tally_cons]
      omega
    | succ i =>
      have tail := ih (by simpa using here)
      simp only [List.set_cons_succ, tally_cons]
      omega

theorem tally_eq_zero {f : α → Nat} {l : List α} (none : ∀ a ∈ l, f a = 0) : tally f l = 0 := by
  induction l with
  | nil => rfl
  | cons a rest ih =>
    rw [tally_cons, none a (List.mem_cons_self ..), ih fun b mem => none b (List.mem_cons_of_mem _ mem)]

end Tally
