import Mathlib.Data.List.Basic

/- Computations that may fail and that are watched on the way: `safe` becomes false once
   something happened that was not to happen, and the computation goes on. -/
namespace Watch
variable {E α β : Type}

structure Watched (E α : Type) where
  result : Except E α
  safe : Bool

def bindWatched (w : Watched E α) (f : α → Watched E β) : Watched E β :=
  match w.result with
  | .error e => ⟨.error e, w.safe⟩
  | .ok a => ⟨(f a).result, w.safe && (f a).safe⟩

instance : Monad (Watched E) where
  pure a := ⟨.ok a, true⟩
  bind := bindWatched

def lift (r : Except E α) : Watched E α := ⟨r, true⟩

def watch (fine : Bool) : Watched E Unit := ⟨.ok (), fine⟩

def Watched.mapError {E' : Type} (w : Watched E α) (f : E → E') : Watched E' α :=
  ⟨w.result.mapError f, w.safe⟩

def Meets (w : Watched E α) (post : α → Prop) : Prop :=
  w.safe = true → ∃ a, w.result = .ok a ∧ post a

theorem meets_pure {post : α → Prop} {a : α} (good : post a) : Meets (pure a : Watched E α) post :=
  fun _ => ⟨a, rfl, good⟩

theorem meets_bind {post : α → Prop} {goal : β → Prop} {w : Watched E α} {f : α → Watched E β}
    (first : Meets w post) (next : ∀ a, post a → Meets (f a) goal) : Meets (w >>= f) goal := by
  intro safe
  change (bindWatched w f).safe = true at safe
  change ∃ b, (bindWatched w f).result = .ok b ∧ goal b
  unfold bindWatched at safe ⊢
  cases result : w.result with
  | error e =>
    simp only [result] at safe
    obtain ⟨a, ok, _⟩ := first safe
    cases result.symm.trans ok
  | ok a =>
    simp only [result, Bool.and_eq_true] at safe
    obtain ⟨a', ok, good⟩ := first safe.1
    cases result.symm.trans ok
    exact next a good safe.2

theorem meets_lift_bind {goal : β → Prop} {r : Except E α} {f : α → Watched E β} {a : α}
    (ok : r = .ok a) (next : Meets (f a) goal) : Meets (lift r >>= f) goal := by
  subst ok
  exact next

theorem meets_watch {goal : β → Prop} {fine : Bool} {f : Unit → Watched E β}
    (next : fine = true → Meets (f ()) goal) : Meets (watch fine >>= f) goal :=
  meets_bind (fun safe => ⟨(), rfl, safe⟩) fun _ => next

theorem meets_mapError {E' : Type} {post : α → Prop} {w : Watched E α} (f : E → E')
    (meets : Meets w post) : Meets (w.mapError f) post := by
  intro safe
  obtain ⟨a, ok, good⟩ := meets safe
  exact ⟨a, by simp [Watched.mapError, ok, Except.mapError], good⟩

theorem meets_mono {post goal : α → Prop} {w : Watched E α} (meets : Meets w post)
    (sub : ∀ a, post a → goal a) : Meets w goal := by
  intro safe
  obtain ⟨a, ok, good⟩ := meets safe
  exact ⟨a, ok, sub a good⟩

end Watch
