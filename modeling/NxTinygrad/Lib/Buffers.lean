import Mathlib.Algebra.Order.Ring.Int
import Mathlib.Data.List.Basic
import Mathlib.Logic.Function.Basic

/- Numbered buffers that can be overwritten, and values that are read from them or computed
   from them when they are asked for. -/
namespace Buffers
variable {V : Type}

abbrev Heap (V : Type) := Nat → Option V

/-- A value still to be computed. It depends on the buffers of its footprint only. -/
structure Computed (V : Type) where
  foot : List Nat
  value : Heap V → Option V
  framed : ∀ h h', (∀ a ∈ foot, h a = h' a) → value h = value h'

/-- A buffer, a function of one buffer that shares its storage, or something to compute. -/
inductive Cell (V : Type) where
  | buffer (a : Nat)
  | view (a : Nat) (f : V → Option V)
  | computed (c : Computed V)

def Cell.foot : Cell V → List Nat
  | .buffer a => [a]
  | .view a _ => [a]
  | .computed c => c.foot

def Cell.value (h : Heap V) : Cell V → Option V
  | .buffer a => h a
  | .view a f => (h a).bind f
  | .computed c => c.value h

theorem Cell.value_congr {h h' : Heap V} {c : Cell V} (same : ∀ a ∈ c.foot, h a = h' a) :
    c.value h = c.value h' := by
  cases c with
  | buffer a => exact same a (List.mem_singleton_self a)
  | view a f => simp only [Cell.value, same a (List.mem_singleton_self a)]
  | computed c => exact c.framed h h' same

def feet (cs : List (Cell V)) : List Nat := cs.flatMap Cell.foot

def values (h : Heap V) (cs : List (Cell V)) : Option (List V) := cs.mapM fun c => c.value h

theorem values_congr {h h' : Heap V} {cs : List (Cell V)} (same : ∀ a ∈ feet cs, h a = h' a) :
    values h cs = values h' cs := by
  induction cs with
  | nil => rfl
  | cons c rest ih =>
    have here : c.value h = c.value h' := Cell.value_congr fun a mem => same a (by simp [feet, mem])
    have tail := ih fun a mem => same a (by
      simp only [feet, List.flatMap_cons, List.mem_append]
      exact Or.inr mem)
    simp only [values, List.mapM_cons] at tail ⊢
    rw [here, tail]

def combine (f : List V → Option V) (cs : List (Cell V)) : Computed V where
  foot := feet cs
  value h := (values h cs).bind f
  framed h h' same := by rw [values_congr same]

/-- The store: buffers from `next` on have never been used. -/
structure Store (V : Type) where
  heap : Heap V
  next : Nat

def Store.write (s : Store V) (a : Nat) (v : V) : Store V :=
  { s with heap := Function.update s.heap a (some v) }

def Store.alloc (s : Store V) (v : V) : Cell V × Store V :=
  (.buffer s.next, ⟨Function.update s.heap s.next (some v), s.next + 1⟩)

def Store.allocAll (s : Store V) : List V → List (Cell V) × Store V
  | [] => ([], s)
  | v :: rest =>
      let (c, s) := s.alloc v
      let (cs, s) := s.allocAll rest
      (c :: cs, s)

def Store.writeAll (s : Store V) : List Nat → List V → Store V
  | a :: addrs, v :: vs => (s.write a v).writeAll addrs vs
  | _, _ => s

/-- The cell stands for the value, and all its buffers are in use. -/
structure Holds (s : Store V) (c : Cell V) (v : V) : Prop where
  value : c.value s.heap = some v
  used : ∀ a ∈ c.foot, a < s.next

structure Keeps (live : List Nat) (s s' : Store V) : Prop where
  grows : s.next ≤ s'.next
  heap : ∀ a ∈ live, s'.heap a = s.heap a

variable {s s' s'' : Store V} {live live' : List Nat} {c : Cell V} {v : V}

theorem keeps_refl (live : List Nat) (s : Store V) : Keeps live s s := ⟨Nat.le_refl _, fun _ _ => rfl⟩

theorem keeps_trans (first : Keeps live s s') (second : Keeps live s' s'') : Keeps live s s'' where
  grows := Nat.le_trans first.grows second.grows
  heap a mem := (second.heap a mem).trans (first.heap a mem)

theorem keeps_mono (keeps : Keeps live s s') (sub : ∀ a ∈ live', a ∈ live) : Keeps live' s s' :=
  ⟨keeps.grows, fun a mem => keeps.heap a (sub a mem)⟩

theorem holds_keep (holds : Holds s c v) (keeps : Keeps live s s') (kept : ∀ a ∈ c.foot, a ∈ live) :
    Holds s' c v where
  value := by
    rw [← holds.value]
    exact Cell.value_congr fun a mem => keeps.heap a (kept a mem)
  used a mem := Nat.lt_of_lt_of_le (holds.used a mem) keeps.grows

theorem alloc_keeps (used : ∀ a ∈ live, a < s.next) (v : V) : Keeps live s (s.alloc v).2 where
  grows := Nat.le_succ _
  heap a mem := Function.update_of_ne (Nat.ne_of_lt (used a mem)) _ _

theorem alloc_holds (s : Store V) (v : V) : Holds (s.alloc v).2 (s.alloc v).1 v where
  value := by simp [Store.alloc, Cell.value]
  used := by simp [Store.alloc, Cell.foot]

def HoldAll (s : Store V) (cs : List (Cell V)) (vs : List V) : Prop := List.Forall₂ (Holds s) cs vs

theorem holds_one (holds : Holds s c v) : HoldAll s [c] [v] := List.Forall₂.cons holds List.Forall₂.nil

theorem holdAll_getElem {cs : List (Cell V)} {vs : List V} (holds : HoldAll s cs vs) {k : Nat}
    (at_k : vs[k]? = some v) : ∃ c, cs[k]? = some c ∧ Holds s c v := by
  induction holds generalizing k with
  | nil => simp at at_k
  | cons here _ ih =>
    cases k with
    | zero =>
      cases Option.some.inj at_k
      exact ⟨_, rfl, here⟩
    | succ k => exact ih at_k

theorem holdAll_keep {cs : List (Cell V)} {vs : List V} (holds : HoldAll s cs vs)
    (keeps : Keeps live s s') (kept : ∀ a ∈ feet cs, a ∈ live) : HoldAll s' cs vs := by
  induction holds with
  | nil => exact List.Forall₂.nil
  | cons here _ ih =>
    simp only [feet, List.flatMap_cons, List.mem_append] at kept
    exact List.Forall₂.cons (holds_keep here keeps fun a mem => kept a (Or.inl mem))
      (ih fun a mem => kept a (Or.inr mem))

theorem holdAll_used {cs : List (Cell V)} {vs : List V} (holds : HoldAll s cs vs) :
    ∀ a ∈ feet cs, a < s.next := by
  induction holds with
  | nil =>
    intro a mem
    cases mem
  | cons here _ ih =>
    intro a mem
    simp only [feet, List.flatMap_cons, List.mem_append] at mem
    rcases mem with mem | mem
    · exact here.used a mem
    · exact ih a mem

theorem holdAll_values {cs : List (Cell V)} {vs : List V} (holds : HoldAll s cs vs) :
    values s.heap cs = some vs := by
  induction holds with
  | nil => rfl
  | cons here _ ih =>
    simp only [values] at ih
    simp only [values, List.mapM_cons, here.value, ih, Option.bind_eq_bind, Option.bind_some]
    rfl

theorem combine_holds {f : List V → Option V} {cs : List (Cell V)} {vs : List V} {v : V}
    (holds : HoldAll s cs vs) (computed : f vs = some v) : Holds s (.computed (combine f cs)) v where
  value := by simp only [Cell.value, combine, holdAll_values holds, Option.bind_some, computed]
  used := holdAll_used holds

theorem allocAll_spec (used : ∀ a ∈ live, a < s.next) (vs : List V) :
    Keeps live s (s.allocAll vs).2 ∧ HoldAll (s.allocAll vs).2 (s.allocAll vs).1 vs := by
  induction vs generalizing s live with
  | nil => exact ⟨keeps_refl live s, List.Forall₂.nil⟩
  | cons v rest ih =>
    have first := alloc_keeps used v
    have used' : ∀ a ∈ s.next :: live, a < (s.alloc v).2.next := by
      intro a mem
      rcases List.mem_cons.mp mem with same | old
      · subst same
        exact Nat.lt_succ_self _
      · exact Nat.lt_succ_of_lt (used a old)
    obtain ⟨keeps, holds⟩ := ih used'
    refine ⟨keeps_trans first (keeps_mono keeps fun a mem => List.mem_cons_of_mem _ mem), ?_⟩
    refine List.Forall₂.cons (holds_keep (alloc_holds s v) keeps ?_) holds
    intro a mem
    cases List.mem_singleton.mp mem
    exact List.mem_cons_self ..

theorem allocAll_feet (s : Store V) (vs : List V) :
    feet (s.allocAll vs).1 = List.range' s.next vs.length := by
  induction vs generalizing s with
  | nil => rfl
  | cons v rest ih =>
    have tail := ih (s.alloc v).2
    simp only [feet] at tail
    simp only [Store.allocAll, feet, List.flatMap_cons, tail, List.length_cons, List.range'_succ]
    rfl

theorem allocAll_next (s : Store V) (vs : List V) : (s.allocAll vs).2.next = s.next + vs.length := by
  induction vs generalizing s with
  | nil => rfl
  | cons v rest ih =>
    simp only [Store.allocAll, ih, List.length_cons, Store.alloc]
    omega

theorem writeAll_next (s : Store V) (addrs : List Nat) (vs : List V) :
    (s.writeAll addrs vs).next = s.next := by
  induction addrs generalizing s vs with
  | nil => rfl
  | cons a addrs ih =>
    cases vs with
    | nil => rfl
    | cons v vs => exact ih (s.write a v) vs

theorem writeAll_other {addrs : List Nat} {vs : List V} {a : Nat} (other : a ∉ addrs) :
    (s.writeAll addrs vs).heap a = s.heap a := by
  induction addrs generalizing s vs with
  | nil => rfl
  | cons b addrs ih =>
    cases vs with
    | nil => rfl
    | cons v vs =>
      simp only [List.mem_cons, not_or] at other
      rw [Store.writeAll, ih other.2]
      exact Function.update_of_ne other.1 _ _

theorem writeAll_keeps {addrs : List Nat} (apart : ∀ a ∈ live, a ∉ addrs) (vs : List V) :
    Keeps live s (s.writeAll addrs vs) where
  grows := Nat.le_of_eq (writeAll_next s addrs vs).symm
  heap a mem := writeAll_other (apart a mem)

theorem write_keeps {a : Nat} {v : V} (same : a ∈ live → s.heap a = some v) :
    Keeps live s (s.write a v) where
  grows := Nat.le_refl _
  heap b mem := by
    by_cases here : b = a
    · subst here
      simp [Store.write, same mem]
    · exact Function.update_of_ne here _ _

theorem writeAll_same {writes : List (Nat × V)}
    (same : ∀ w ∈ writes, w.1 ∈ live → s.heap w.1 = some w.2) :
    Keeps live s (s.writeAll (writes.map (·.1)) (writes.map (·.2))) := by
  induction writes generalizing s with
  | nil => exact keeps_refl live s
  | cons w rest ih =>
    have first := write_keeps (same w (List.mem_cons_self ..))
    refine keeps_trans first (ih fun w' mem there => ?_)
    rw [first.heap _ there]
    exact same w' (List.mem_cons_of_mem _ mem) there

theorem writeAll_holds {addrs : List Nat} {vs : List V} (len : addrs.length = vs.length)
    (distinct : addrs.Nodup) (used : ∀ a ∈ addrs, a < s.next) :
    HoldAll (s.writeAll addrs vs) (addrs.map Cell.buffer) vs := by
  induction addrs generalizing s vs with
  | nil =>
    cases vs with
    | nil => exact List.Forall₂.nil
    | cons v vs => simp at len
  | cons a addrs ih =>
    cases vs with
    | nil => simp at len
    | cons v vs =>
      obtain ⟨fresh, distinct⟩ := List.nodup_cons.mp distinct
      refine List.Forall₂.cons ⟨?_, ?_⟩ (ih (by simpa using len) distinct
        fun b mem => used b (List.mem_cons_of_mem _ mem))
      · rw [Store.writeAll, Cell.value, writeAll_other fresh]
        simp [Store.write]
      · intro b mem
        have same := List.mem_singleton.mp mem
        rw [writeAll_next, same]
        exact used a (List.mem_cons_self ..)

end Buffers
