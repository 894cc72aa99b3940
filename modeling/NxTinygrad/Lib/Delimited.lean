import Mathlib.Data.List.Forall2

/- Texts that can be cut off the front of what they stand in, so that several of them written one
   after another can be read in one way only. -/
namespace Delimited
variable {α B : Type}

def Ends (stop : B → Prop) : List B → Prop
  | [] => True
  | b :: _ => stop b

theorem ends_mono {p q : B → Prop} {s : List B} (le : ∀ b, p b → q b) (ends : Ends p s) : Ends q s := by
  cases s with
  | nil => trivial
  | cons b s => exact le b ends

/-- The text of `a` shows where it ends, and only what is the `same` as `a` has this text. -/
def Cuts (text : α → List B) (same : α → α → Prop) (stop : B → Prop) (a : α) : Prop :=
  ∀ c s t, Ends stop s → Ends stop t → text a ++ s = text c ++ t → same a c ∧ s = t

theorem plain_cut {plain : B → Prop} {x y s t : List B} (left : ∀ b ∈ x, plain b)
    (right : ∀ b ∈ y, plain b) (endsLeft : Ends (fun b => ¬ plain b) s)
    (endsRight : Ends (fun b => ¬ plain b) t) (h : x ++ s = y ++ t) : x = y ∧ s = t := by
  induction x generalizing y with
  | nil =>
    cases y with
    | nil => exact ⟨rfl, h⟩
    | cons b y =>
      rw [List.nil_append, List.cons_append] at h
      rw [h] at endsLeft
      exact absurd (right b (by simp)) endsLeft
  | cons a x ih =>
    cases y with
    | nil =>
      rw [List.nil_append, List.cons_append] at h
      rw [← h] at endsRight
      exact absurd (left a (by simp)) endsRight
    | cons b y =>
      rw [List.cons_append, List.cons_append, List.cons.injEq] at h
      obtain ⟨rfl, rest⟩ := h
      obtain ⟨rfl, back⟩ := ih (fun b mem => left b (by simp [mem]))
        (fun b mem => right b (by simp [mem])) rest
      exact ⟨rfl, back⟩

theorem marked_cut {mark : B} {x y s t : List B} (left : mark ∉ x) (right : mark ∉ y)
    (h : x ++ mark :: s = y ++ mark :: t) : x = y ∧ s = t := by
  obtain ⟨same, rest⟩ := plain_cut (fun b mem => (ne_of_mem_of_not_mem mem left : b ≠ mark))
    (fun b mem => ne_of_mem_of_not_mem mem right) (by simp [Ends]) (by simp [Ends]) h
  exact ⟨same, List.tail_eq_of_cons_eq rest⟩

theorem sequence_cut {text : α → List B} {xs ys : List α} (len : xs.length = ys.length)
    (each : ∀ x ∈ xs, ∀ y ∈ ys, ∀ s t, text x ++ s = text y ++ t → x = y ∧ s = t) {s t : List B}
    (h : xs.flatMap text ++ s = ys.flatMap text ++ t) : xs = ys ∧ s = t := by
  induction xs generalizing ys with
  | nil =>
    cases ys with
    | nil => exact ⟨rfl, h⟩
    | cons y ys => simp at len
  | cons x xs ih =>
    cases ys with
    | nil => simp at len
    | cons y ys =>
      simp only [List.flatMap_cons, List.append_assoc] at h
      obtain ⟨rfl, rest⟩ := each x (by simp) y (by simp) _ _ h
      obtain ⟨rfl, back⟩ := ih (by simpa using len)
        (fun x mx y my => each x (by simp [mx]) y (by simp [my])) rest
      exact ⟨rfl, back⟩

def separated (sep : B) (texts : List (List B)) : List B := (texts.intersperse [sep]).flatten

theorem separated_one (sep : B) (x : List B) : separated sep [x] = x := by simp [separated]

theorem separated_more (sep : B) (x y : List B) (rest : List (List B)) :
    separated sep (x :: y :: rest) = x ++ sep :: separated sep (y :: rest) := by
  simp [separated]

/-- The text of `a` starts with something else than `close`. -/
def Opens (text : α → List B) (close : B) (a : α) : Prop :=
  ∃ b rest, text a = b :: rest ∧ b ≠ close

theorem separated_opens {text : α → List B} {sep close : B} {x : α} (xs : List α)
    (opens : Opens text close x) {s t : List B} :
    separated sep ((x :: xs).map text) ++ s ≠ close :: t := by
  intro h
  obtain ⟨b, rest, begins, other⟩ := opens
  cases xs with
  | nil =>
    rw [List.map_cons, List.map_nil, separated_one, begins, List.cons_append, List.cons.injEq] at h
    exact other h.1
  | cons y xs =>
    rw [List.map_cons, List.map_cons, separated_more, begins] at h
    rw [List.cons_append, List.cons_append, List.cons.injEq] at h
    exact other h.1

theorem separated_cut {text : α → List B} {same : α → α → Prop} {stop : B → Prop} {sep close : B}
    (sepStops : stop sep) (closeStops : stop close) (apart : sep ≠ close)
    (opens : ∀ x, Opens text close x) {xs ys : List α} (cuts : ∀ x ∈ xs, Cuts text same stop x)
    {s t : List B}
    (h : separated sep (xs.map text) ++ close :: s = separated sep (ys.map text) ++ close :: t) :
    List.Forall₂ same xs ys ∧ s = t := by
  have atSep : ∀ rest, Ends stop (sep :: rest) := fun _ => sepStops
  have atClose : ∀ rest, Ends stop (close :: rest) := fun _ => closeStops
  induction xs generalizing ys with
  | nil =>
    cases ys with
    | nil => exact ⟨.nil, by simpa [separated] using h⟩
    | cons y ys => exact absurd h.symm (separated_opens ys (opens y))
  | cons x xs ih =>
    have cutsRest : ∀ y ∈ xs, Cuts text same stop y := fun y mem => cuts y (by simp [mem])
    -- four ways to go on: each side has reached its last text or not
    cases ys with
    | nil => exact absurd h (separated_opens xs (opens x))
    | cons y ys =>
      cases xs with
      | nil =>
        cases ys with
        | nil =>
          simp only [List.map_cons, List.map_nil, separated_one] at h
          obtain ⟨here, rest⟩ := cuts x (by simp) y _ _ (atClose _) (atClose _) h
          exact ⟨.cons here .nil, List.tail_eq_of_cons_eq rest⟩
        | cons y' ys =>
          simp only [List.map_cons, List.map_nil, separated_one, separated_more,
            List.append_assoc, List.cons_append] at h
          have rest := (cuts x (by simp) y _ _ (atClose _) (atSep _) h).2
          exact absurd (List.cons.inj rest).1.symm apart
      | cons x' xs =>
        cases ys with
        | nil =>
          simp only [List.map_cons, List.map_nil, separated_one, separated_more,
            List.append_assoc, List.cons_append] at h
          have rest := (cuts x (by simp) y _ _ (atSep _) (atClose _) h).2
          exact absurd (List.cons.inj rest).1 apart
        | cons y' ys =>
          simp only [List.map_cons, separated_more, List.append_assoc, List.cons_append] at h
          obtain ⟨here, rest⟩ := cuts x (by simp) y _ _ (atSep _) (atSep _) h
          have more : separated sep ((x' :: xs).map text) ++ close :: s =
              separated sep ((y' :: ys).map text) ++ close :: t := by
            simpa only [List.map_cons] using List.tail_eq_of_cons_eq rest
          obtain ⟨others, back⟩ := ih cutsRest more
          exact ⟨.cons here others, back⟩

end Delimited
