import Mathlib.Data.List.Basic
import Mathlib.Data.List.Flatten

/- A stream that arrives in pieces: a read returns at most what it asks for, and nothing only at
   the end. -/

structure Pieces (α : Type) where
  pieces : List (List α)
  full : ∀ p ∈ pieces, p ≠ []

namespace Pieces
variable {α : Type}

def whole (s : Pieces α) : List α := s.pieces.flatten

def read (n : Nat) : Pieces α → List α × Pieces α
  | ⟨[], full⟩ => ([], ⟨[], full⟩)
  | ⟨p :: rest, full⟩ =>
      if long : n < p.length then
        (p.take n, ⟨p.drop n :: rest, fun q mem => by
          rcases List.mem_cons.mp mem with rfl | mem
          · simpa using long
          · exact full q (List.mem_cons_of_mem _ mem)⟩)
      else (p, ⟨rest, fun q mem => full q (List.mem_cons_of_mem _ mem)⟩)

theorem read_whole (n : Nat) (s : Pieces α) : (s.read n).1 ++ (s.read n).2.whole = s.whole := by
  obtain ⟨pieces, full⟩ := s
  cases pieces with
  | nil => rfl
  | cons p rest =>
    by_cases long : n < p.length
    · simp [read, long, whole, ← List.append_assoc]
    · simp [read, long, whole]

theorem read_le (n : Nat) (s : Pieces α) : (s.read n).1.length ≤ n := by
  obtain ⟨pieces, full⟩ := s
  cases pieces with
  | nil => simp [read]
  | cons p rest =>
    by_cases long : n < p.length
    · simp only [read, long, dite_true]
      exact List.length_take_le ..
    · have fits := Nat.le_of_not_lt long
      simp only [read, long, dite_false]
      exact fits

theorem read_nil {n : Nat} {s : Pieces α} (pos : 0 < n) : (s.read n).1 = [] ↔ s.whole = [] := by
  obtain ⟨pieces, full⟩ := s
  cases pieces with
  | nil => simp [read, whole]
  | cons p rest =>
    have here : p ≠ [] := full p (List.mem_cons_self ..)
    by_cases long : n < p.length
    · simp [read, long, whole, here, Nat.ne_of_gt pos]
    · simp [read, long, whole, here]

theorem read_shrinks {n : Nat} {s : Pieces α} (more : (s.read n).1 ≠ []) :
    (s.read n).2.whole.length < s.whole.length := by
  have total := congrArg List.length (read_whole n s)
  have some_read := List.length_pos_of_ne_nil more
  rw [List.length_append] at total
  omega

/-- Reads until there are `n` elements in all, or the stream ends. -/
def fill (n : Nat) (buf : List α) (s : Pieces α) : Option (List α) × Pieces α :=
  if buf.length < n then
    let chunk := s.read (n - buf.length)
    if _ : chunk.1 ≠ [] then fill n (buf ++ chunk.1) chunk.2 else (none, chunk.2)
  else (some buf, s)
termination_by s.whole.length
decreasing_by exact read_shrinks ‹_›

theorem fill_eq (n : Nat) (buf : List α) (s : Pieces α) (room : buf.length ≤ n) :
    if n ≤ buf.length + s.whole.length then
      (s.fill n buf).1 = some (buf ++ s.whole.take (n - buf.length)) ∧
        (s.fill n buf).2.whole = s.whole.drop (n - buf.length)
    else (s.fill n buf).1 = none ∧ (s.fill n buf).2.whole = [] := by
  induction buf, s using fill.induct n with
  | case1 buf s short chunk more ih =>
    have pos : 0 < n - buf.length := by omega
    have cut : chunk.1 ++ chunk.2.whole = s.whole := read_whole _ s
    have fits : chunk.1.length ≤ n - buf.length := read_le _ s
    have total := congrArg List.length cut
    rw [List.length_append] at total
    have rest := ih (by rw [List.length_append]; omega)
    have step : s.fill n buf = chunk.2.fill n (buf ++ chunk.1) := by
      rw [fill, if_pos short]
      exact dif_pos more
    rw [step, ← cut]
    rw [List.length_append] at rest
    have same : buf.length + chunk.1.length + chunk.2.whole.length =
        buf.length + (chunk.1 ++ chunk.2.whole).length := by rw [List.length_append]; omega
    rw [same] at rest
    have left : n - (buf.length + chunk.1.length) = n - buf.length - chunk.1.length := by omega
    rw [List.take_append, List.drop_append, List.take_of_length_le fits, List.drop_of_length_le fits,
      List.nil_append, ← List.append_assoc, ← left]
    exact rest
  | case2 buf s short chunk more =>
    have pos : 0 < n - buf.length := by omega
    have ended : s.whole = [] := (read_nil pos).mp (not_not.mp more)
    have step : s.fill n buf = (none, chunk.2) := by
      rw [fill, if_pos short]
      exact dif_neg more
    have after : chunk.2.whole = [] := by
      have cut : chunk.1 ++ chunk.2.whole = s.whole := read_whole _ s
      rw [ended] at cut
      exact (List.append_eq_nil_iff.mp cut).2
    rw [step, ended, if_neg (by simp; omega)]
    exact ⟨rfl, after⟩
  | case3 buf s full =>
    have step : s.fill n buf = (some buf, s) := by rw [fill, if_neg full]
    have none_left : n - buf.length = 0 := by omega
    rw [step, if_pos (by omega), none_left]
    simp

theorem fill_split {n : Nat} {s s' : Pieces α} {front : List α}
    (read : s.fill n [] = (some front, s')) :
    s.whole = front ++ s'.whole ∧ front.length = n := by
  have all := fill_eq n [] s (Nat.zero_le n)
  rw [read] at all
  split at all
  · rename_i enough
    obtain ⟨found, left⟩ := all
    obtain rfl : front = s.whole.take n := by simpa using found
    have left : s'.whole = s.whole.drop n := by simpa using left
    rw [left, List.take_append_drop, List.length_take]
    simp only [List.length_nil, Nat.zero_add] at enough
    exact ⟨rfl, Nat.min_eq_left enough⟩
  · cases all.1

theorem fill_some {n : Nat} {s : Pieces α} {front back : List α} (split : s.whole = front ++ back)
    (len : front.length = n) : ∃ s', s.fill n [] = (some front, s') ∧ s'.whole = back := by
  have all := fill_eq n [] s (Nat.zero_le n)
  have enough : n ≤ ([] : List α).length + s.whole.length := by
    rw [split, List.length_append]
    simp only [List.length_nil]
    omega
  rw [if_pos enough] at all
  subst len
  refine ⟨(s.fill front.length []).2, Prod.ext ?_ rfl, ?_⟩
  · rw [all.1, split]
    simp
  · rw [all.2, split]
    simp

theorem fill_none {n : Nat} {s : Pieces α} (short : s.whole.length < n) :
    ∃ s', s.fill n [] = (none, s') ∧ s'.whole = [] := by
  have all := fill_eq n [] s (Nat.zero_le n)
  rw [if_neg (by simpa using short)] at all
  exact ⟨(s.fill n []).2, Prod.ext all.1 rfl, all.2⟩

end Pieces
