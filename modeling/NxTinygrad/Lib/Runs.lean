import Mathlib.Algebra.Order.Ring.Int
import Mathlib.Data.List.Basic

/- Runs of a labelled step function. A run is guarded by a condition on the
   state before each step; `fun _ _ => True` gives all runs. -/
namespace Runs
variable {State Label : Type}

inductive Run (step : State → Label → Option State) (ok : State → Label → Prop) :
    State → State → Prop where
  | refl (s : State) : Run step ok s s
  | next {s t u : State} {a : Label} (run : Run step ok s t) (guard : ok t a)
      (moved : step t a = some u) : Run step ok s u

def anyStep (_ : State) (_ : Label) : Prop := True

/-- Follow a schedule, failing at the first label that is not enabled. -/
def follow (step : State → Label → Option State) : State → List Label → Option State
  | s, [] => some s
  | s, a :: rest => (step s a).bind fun t => follow step t rest

theorem follow_append {step : State → Label → Option State} {s : State} (as bs : List Label) :
    follow step s (as ++ bs) = (follow step s as).bind fun t => follow step t bs := by
  induction as generalizing s with
  | nil => rfl
  | cons a rest ih =>
    simp only [List.cons_append, follow, ih, Option.bind_assoc]

theorem run_invariant {step : State → Label → Option State} {ok : State → Label → Prop}
    (inv : State → Prop) {s t : State} (run : Run step ok s t) (first : inv s)
    (kept : ∀ s a t, inv s → ok s a → step s a = some t → inv t) : inv t := by
  induction run with
  | refl => exact first
  | next run guard moved ih => exact kept _ _ _ ih guard moved

theorem run_trans {step : State → Label → Option State} {ok : State → Label → Prop}
    {s t u : State} (front : Run step ok s t) (back : Run step ok t u) : Run step ok s u := by
  induction back with
  | refl => exact front
  | next _ guard moved ih => exact .next ih guard moved

theorem guarded_of_follow {step : State → Label → Option State} {ok : State → Label → Prop}
    {s t : State} {as : List Label} (guard : ∀ a ∈ as, ∀ s, ok s a)
    (done : follow step s as = some t) : Run step ok s t := by
  induction as generalizing s with
  | nil =>
    simp only [follow, Option.some.injEq] at done
    subst t
    exact .refl s
  | cons a rest ih =>
    obtain ⟨u, moved, tail⟩ := Option.bind_eq_some_iff.mp done
    have first : Run step ok s u := .next (.refl s) (guard a (by simp) s) moved
    exact run_trans first (ih (fun b mem => guard b (by simp [mem])) tail)

theorem run_of_test {step : State → Label → Option State} {ok : State → Label → Prop}
    {test : State → Label → Bool} (sound : ∀ s a, test s a = true → ok s a) {s t : State}
    {as : List Label} (done : follow (fun s a => if test s a then step s a else none) s as = some t) :
    Run step ok s t := by
  induction as generalizing s with
  | nil =>
    simp only [follow, Option.some.injEq] at done
    subst t
    exact .refl s
  | cons a rest ih =>
    obtain ⟨u, moved, tail⟩ := Option.bind_eq_some_iff.mp done
    obtain ⟨passed, moved⟩ : test s a = true ∧ step s a = some u := by simpa using moved
    have first : Run step ok s u := .next (.refl s) (sound s a passed) moved
    exact run_trans first (ih tail)

theorem run_of_follow {step : State → Label → Option State} {s t : State} {as : List Label}
    (done : follow step s as = some t) : Run step anyStep s t :=
  guarded_of_follow (fun _ _ _ => trivial) done

end Runs
