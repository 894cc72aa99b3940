import Mathlib.Algebra.Order.Ring.Int
import Mathlib.Data.List.Basic
import Mathlib.Data.List.Nodup
import Mathlib.Data.List.Forall2
import Mathlib.Algebra.BigOperators.Group.List.Basic

/- Arrays of any rank, their elements in row-major order. -/

structure NDArray (α : Type) where
  shape : List Nat
  data : List α
  size : data.length = shape.prod
  deriving DecidableEq

namespace NDArray

def Inside : List Nat → List Nat → Prop
  | [], [] => True
  | d :: ds, i :: is => i < d ∧ Inside ds is
  | _, _ => False

instance decidableInside : (shape idx : List Nat) → Decidable (Inside shape idx)
  | [], [] => .isTrue trivial
  | [], _ :: _ => .isFalse id
  | _ :: _, [] => .isFalse id
  | d :: ds, i :: is => @instDecidableAnd (i < d) (Inside ds is) _ (decidableInside ds is)

def indices : List Nat → List (List Nat)
  | [] => [[]]
  | d :: ds => (List.range d).flatMap fun i => (indices ds).map (i :: ·)

def offset : List Nat → List Nat → Nat
  | _ :: ds, i :: is => i * ds.prod + offset ds is
  | _, _ => 0

variable {shape shape' idx idx' : List Nat}

theorem Inside.length (inside : Inside shape idx) : idx.length = shape.length := by
  induction shape generalizing idx with
  | nil => cases idx <;> simp_all [Inside]
  | cons d ds ih =>
    cases idx with
    | nil => cases inside
    | cons i is => simp [ih inside.2]

theorem inside_append : ∀ {shape idx : List Nat}, idx.length = shape.length →
    (Inside (shape ++ shape') (idx ++ idx') ↔ Inside shape idx ∧ Inside shape' idx')
  | [], [], _ => by simp [Inside]
  | d :: ds, i :: is, len => by
    simp [Inside, inside_append (by simpa using len), and_assoc]

theorem inside_split : ∀ {shape idx : List Nat}, Inside (shape ++ shape') idx →
    ∃ b r, idx = b ++ r ∧ Inside shape b ∧ Inside shape' r
  | [], idx, inside => ⟨[], idx, rfl, trivial, inside⟩
  | d :: ds, i :: is, inside => by
    have tail : Inside (ds ++ shape') is := inside.2
    obtain ⟨b, r, rfl, first, rest⟩ := inside_split tail
    exact ⟨i :: b, r, rfl, ⟨inside.1, first⟩, rest⟩

theorem inside_get : Inside shape idx ↔
    idx.length = shape.length ∧ ∀ (k i d : Nat), idx[k]? = some i → shape[k]? = some d → i < d := by
  induction shape generalizing idx with
  | nil => cases idx <;> simp [Inside]
  | cons d ds ih =>
    cases idx with
    | nil => simp [Inside]
    | cons i is =>
      simp only [Inside, ih, List.length_cons, Nat.add_right_cancel_iff]
      constructor
      · rintro ⟨first, len, rest⟩
        refine ⟨len, fun k i' d' at_i at_d => ?_⟩
        cases k with
        | zero =>
          simp only [List.getElem?_cons_zero, Option.some.injEq] at at_i at_d
          omega
        | succ k => exact rest k i' d' (by simpa using at_i) (by simpa using at_d)
      · rintro ⟨len, all⟩
        exact ⟨all 0 i d rfl rfl, len, fun k i' d' at_i at_d => all (k + 1) i' d' at_i at_d⟩

theorem mem_indices : idx ∈ indices shape ↔ Inside shape idx := by
  induction shape generalizing idx with
  | nil => cases idx <;> simp [indices, Inside]
  | cons d ds ih => cases idx <;> simp [indices, Inside, ih]

theorem indices_length (shape : List Nat) : (indices shape).length = shape.prod := by
  induction shape with
  | nil => rfl
  | cons d ds ih => simp [indices, ih]

theorem offset_lt (inside : Inside shape idx) : offset shape idx < shape.prod := by
  induction shape generalizing idx with
  | nil => simp [offset]
  | cons d ds ih =>
    cases idx with
    | nil => cases inside
    | cons i is =>
      have rest := ih inside.2
      have first := Nat.mul_le_mul_right ds.prod (Nat.succ_le_of_lt inside.1)
      rw [Nat.succ_mul] at first
      simp only [offset, List.prod_cons]
      omega

theorem flatMap_get {α β : Type} {f : α → List β} {n : Nat} {l : List α}
    (all : ∀ a ∈ l, (f a).length = n)
    {i j : Nat} (low : j < n) : (l.flatMap f)[i * n + j]? = l[i]?.bind fun a => (f a)[j]? := by
  induction l generalizing i with
  | nil => simp
  | cons a rest ih =>
    have len := all a (List.mem_cons_self ..)
    have later := fun b mem => all b (List.mem_cons_of_mem a mem)
    rw [List.flatMap_cons]
    cases i with
    | zero => simp [List.getElem?_append_left (by omega : j < (f a).length)]
    | succ i =>
      have beyond : (f a).length ≤ (i + 1) * n + j := by rw [Nat.succ_mul]; omega
      rw [List.getElem?_append_right beyond, len]
      have shift : (i + 1) * n + j - n = i * n + j := by rw [Nat.succ_mul]; omega
      rw [shift, ih later, List.getElem?_cons_succ]

theorem indices_get (inside : Inside shape idx) : (indices shape)[offset shape idx]? = some idx := by
  induction shape generalizing idx with
  | nil => cases idx <;> simp_all [Inside, indices, offset]
  | cons d ds ih =>
    cases idx with
    | nil => cases inside
    | cons i is =>
      have rows : ∀ a ∈ List.range d, ((indices ds).map (a :: ·)).length = ds.prod := by
        simp [indices_length]
      rw [indices, offset, flatMap_get rows (offset_lt inside.2)]
      simp [inside.1, ih inside.2]

theorem indices_single (d : Nat) : indices [d] = (List.range d).map ([·]) := by
  simp [indices, List.map_eq_flatMap]

theorem indices_nodup (shape : List Nat) : (indices shape).Nodup := by
  induction shape with
  | nil => simp [indices]
  | cons d ds ih =>
    refine List.nodup_flatMap.mpr ⟨fun i _ => ih.map (List.cons_injective), ?_⟩
    refine List.nodup_range.imp fun {a b} apart => ?_
    intro idx mem mem'
    obtain ⟨_, _, rfl⟩ := List.mem_map.mp mem
    obtain ⟨_, _, same⟩ := List.mem_map.mp mem'
    exact apart (List.cons.inj same).1.symm

theorem indices_append (shape shape' : List Nat) : indices (shape ++ shape') =
    (indices shape).flatMap fun i => (indices shape').map (i ++ ·) := by
  induction shape with
  | nil => simp [indices]
  | cons d ds ih => simp [indices, ih, List.flatMap_map, List.map_flatMap, List.flatMap_assoc,
      Function.comp_def]

theorem offset_append : ∀ {shape idx : List Nat}, idx.length = shape.length →
    offset (shape ++ shape') (idx ++ idx') = offset shape idx * shape'.prod + offset shape' idx'
  | [], [], _ => by simp [offset]
  | d :: ds, i :: is, len => by
    simp only [List.cons_append, offset, offset_append (by simpa using len : is.length = ds.length),
      List.prod_append, Nat.add_mul, Nat.mul_assoc, Nat.add_assoc]

variable {α β : Type}

def get? (t : NDArray α) (idx : List Nat) : Option α :=
  if Inside t.shape idx then t.data[offset t.shape idx]? else none

theorem get?_eq {t : NDArray α} (inside : Inside t.shape idx) :
    t.get? idx = t.data[offset t.shape idx]? := if_pos inside

theorem offset_of_get {k : Nat} (there : (indices shape)[k]? = some idx) : offset shape idx = k := by
  have inside := mem_indices.mp (List.mem_of_getElem? there)
  have bound : offset shape idx < (indices shape).length := by
    rw [indices_length]
    exact offset_lt inside
  exact (List.getElem?_inj bound (indices_nodup shape)).mp ((indices_get inside).trans there.symm)

theorem indices_offset (shape : List Nat) :
    (indices shape).map (offset shape) = List.range shape.prod := by
  apply List.ext_getElem?
  intro k
  rw [List.getElem?_map]
  rcases there : (indices shape)[k]? with _ | idx
  · have beyond := List.getElem?_eq_none_iff.mp there
    rw [indices_length] at beyond
    simp [beyond]
  · have low := (List.getElem?_eq_some_iff.mp there).1
    rw [indices_length] at low
    simp [offset_of_get there, low]

theorem data_eq (t : NDArray α) : t.data.map some = (indices t.shape).map t.get? := by
  apply List.ext_getElem?
  intro k
  rw [List.getElem?_map, List.getElem?_map]
  rcases there : (indices t.shape)[k]? with _ | idx
  · have beyond : t.data.length ≤ k := by
      rw [t.size, ← indices_length]
      exact List.getElem?_eq_none_iff.mp there
    simp [beyond]
  · have inside := mem_indices.mp (List.mem_of_getElem? there)
    have bound : k < t.data.length := by
      rw [t.size, ← indices_length]
      exact (List.getElem?_eq_some_iff.mp there).1
    simp [get?, inside, offset_of_get there, bound]

theorem get?_isSome {t : NDArray α} : (t.get? idx).isSome ↔ Inside t.shape idx := by
  unfold get?
  split
  · rename_i inside
    have bound := offset_lt inside
    rw [← t.size] at bound
    simp [inside, bound]
  · rename_i outside
    simp [outside]

theorem ext_get {t t' : NDArray α} (shape : t.shape = t'.shape)
    (same : ∀ idx, Inside t.shape idx → t.get? idx = t'.get? idx) : t = t' := by
  have data : t.data.map some = t'.data.map some := by
    rw [data_eq, data_eq, ← shape]
    exact List.map_congr_left fun idx mem => same idx (mem_indices.mp mem)
  have data := List.map_injective_iff.mpr (fun _ _ => Option.some.inj) data
  obtain ⟨_, _, _⟩ := t
  obtain ⟨_, _, _⟩ := t'
  cases shape
  cases data
  rfl

def tabulate (shape : List Nat) (f : List Nat → α) : NDArray α :=
  ⟨shape, (indices shape).map f, by simp [indices_length]⟩

theorem get?_tabulate {f : List Nat → α} (inside : Inside shape idx) :
    (tabulate shape f).get? idx = some (f idx) := by
  simp [get?, tabulate, inside, indices_get inside]

theorem data_map {t : NDArray α} {f : List Nat → α}
    (gets : ∀ idx, Inside t.shape idx → t.get? idx = some (f idx)) :
    t.data = (indices t.shape).map f := by
  have all : t.data.map some = ((indices t.shape).map f).map some := by
    rw [data_eq, List.map_map]
    exact List.map_congr_left fun idx mem => gets idx (mem_indices.mp mem)
  exact List.map_injective_iff.mpr (fun _ _ => Option.some.inj) all

def build (shape : List Nat) (f : List Nat → Option α) : Option (NDArray α) :=
  if all : ∀ idx ∈ indices shape, (f idx).isSome then
    some ⟨shape, (indices shape).pmap (fun idx some => (f idx).get some) all, by simp [indices_length]⟩
  else none

theorem build_eq {f : List Nat → Option α} {t : NDArray α} : build shape f = some t ↔
    t.shape = shape ∧ ∀ idx, Inside shape idx → t.get? idx = f idx := by
  have made (all : ∀ idx ∈ indices shape, (f idx).isSome) (idx : List Nat) (inside : Inside shape idx) :
      (NDArray.mk shape ((indices shape).pmap (fun idx some => (f idx).get some) all)
        (by simp [indices_length])).get? idx = f idx := by
    simp [get?, inside, List.getElem?_pmap, indices_get inside]
  unfold build
  constructor
  · intro h
    split at h
    · rename_i all
      cases h
      exact ⟨rfl, made all⟩
    · cases h
  · rintro ⟨rfl, elements⟩
    have all : ∀ idx ∈ indices t.shape, (f idx).isSome := fun idx mem => by
      rw [← elements idx (mem_indices.mp mem)]
      exact get?_isSome.mpr (mem_indices.mp mem)
    rw [dif_pos all]
    exact congrArg some (ext_get rfl fun idx inside =>
      (made all idx inside).trans (elements idx inside).symm)

theorem build_ok {f : List Nat → Option α} (all : ∀ idx, Inside shape idx → (f idx).isSome) :
    ∃ t, build shape f = some t :=
  ⟨_, dif_pos fun idx mem => all idx (mem_indices.mp mem)⟩

def map (f : α → β) (t : NDArray α) : NDArray β := ⟨t.shape, t.data.map f, by simp [t.size]⟩

theorem get?_map (f : α → β) (t : NDArray α) (idx : List Nat) :
    (t.map f).get? idx = (t.get? idx).map f := by
  unfold get? map
  split <;> simp

theorem build_map (f : List Nat → Option α) (g : α → β) :
    (build shape f).map (map g) = build shape fun idx => (f idx).map g := by
  by_cases all : ∀ idx ∈ indices shape, (f idx).isSome
  · obtain ⟨t, made⟩ := build_ok fun idx inside => all idx (mem_indices.mpr inside)
    obtain ⟨dims, entries⟩ := build_eq.mp made
    rw [made, Option.map_some]
    have dims' : (t.map g).shape = shape := dims
    refine (build_eq.mpr ⟨dims', fun idx inside => ?_⟩).symm
    rw [get?_map, entries idx inside]
  · have all' : ¬ ∀ idx ∈ indices shape, ((f idx).map g).isSome := by simpa using all
    rw [build, dif_neg all, build, dif_neg all']
    rfl

theorem build_lazy {f : List Nat → Option α} {g : List Nat → Option β}
    (same : ∀ idx, Inside shape idx → (f idx).isSome = (g idx).isSome) :
    (build shape f).map NDArray.shape = (build shape g).map NDArray.shape := by
  have complete : (∀ idx ∈ indices shape, (f idx).isSome) ↔
      ∀ idx ∈ indices shape, (g idx).isSome := by
    apply forall₂_congr
    intro idx mem
    rw [same idx (mem_indices.mp mem)]
  unfold build
  by_cases all : ∀ idx ∈ indices shape, (f idx).isSome
  · rw [dif_pos all, dif_pos (complete.mp all)]
    rfl
  · rw [dif_neg all, dif_neg (all ∘ complete.mpr)]
    rfl

theorem offset_inj (inside : Inside shape idx) (inside' : Inside shape idx')
    (same : offset shape idx = offset shape idx') : idx = idx' := by
  have here := indices_get inside
  rw [same, indices_get inside'] at here
  exact (Option.some.inj here).symm

theorem bind_step {β γ : Type} {x : Option β} {y : β} (done : x = some y) (f : β → Option γ) :
    (x >>= f) = f y := by
  rw [done]
  rfl

def scalar (a : α) : NDArray α := ⟨[], [a], rfl⟩

def reshape (t : NDArray α) (shape : List Nat) : Option (NDArray α) :=
  if same : t.shape.prod = shape.prod then some ⟨shape, t.data, t.size.trans same⟩ else none

def permute (t : NDArray α) (axes : List Nat) : Option (NDArray α) :=
  if axes.Perm (List.range t.shape.length) then
    build (axes.filterMap (t.shape[·]?)) fun idx =>
      t.get? ((List.range t.shape.length).filterMap fun a => idx[axes.idxOf a]?)
  else none

def expand (t : NDArray α) (shape : List Nat) : Option (NDArray α) :=
  if List.Forall₂ (fun d d' => d = d' ∨ d = 1) t.shape shape then
    build shape fun idx => t.get? (List.zipWith (fun d i => if d = 1 then 0 else i) t.shape idx)
  else none

def takeLast (t : NDArray α) (k : Nat) : Option (NDArray α) :=
  if t.shape = [] then none else build t.shape.dropLast fun idx => t.get? (idx ++ [k])

theorem get?_reshape {t t' : NDArray α} (moved : t.reshape shape' = some t')
    (inside : Inside t.shape idx)
    (inside' : Inside shape' idx') (same : offset t.shape idx = offset shape' idx') :
    t'.get? idx' = t.get? idx := by
  unfold reshape at moved
  split at moved
  · cases moved
    simp only [get?, inside, inside', if_true, same]
  · cases moved

theorem reshape_shape {t t' : NDArray α} (moved : t.reshape shape' = some t') : t'.shape = shape' := by
  unfold reshape at moved
  split at moved <;> cases moved
  rfl

theorem reshape_data {t t' : NDArray α} (moved : t.reshape shape' = some t') : t'.data = t.data := by
  unfold reshape at moved
  split at moved <;> cases moved
  rfl

theorem reshape_ok {t : NDArray α} (same : t.shape.prod = shape.prod) :
    ∃ t', t.reshape shape = some t' :=
  ⟨_, dif_pos same⟩

theorem reshape_self (t : NDArray α) : t.reshape t.shape = some t := dif_pos rfl

theorem get?_flatten {t t' : NDArray α} {last : List Nat} (split : t.shape = shape ++ last)
    (moved : t.reshape (shape ++ [last.prod]) = some t') (inside : Inside shape idx)
    (inside' : Inside last idx') : t'.get? (idx ++ [offset last idx']) = t.get? (idx ++ idx') := by
  have len := inside.length
  refine get?_reshape moved ?_ ?_ ?_
  · rw [split]
    exact (inside_append len).mpr ⟨inside, inside'⟩
  · exact (inside_append len).mpr ⟨inside, offset_lt inside', trivial⟩
  · rw [split, offset_append len, offset_append len]
    simp [offset]

theorem get?_flat {t : NDArray α} {n : Nat} (shape : t.shape = [n]) (i : Nat) :
    t.get? [i] = t.data[i]? := by
  by_cases low : i < n
  · rw [get?_eq (shape ▸ ⟨low, trivial⟩), shape]
    simp [offset]
  · have beyond : t.data.length ≤ i := by simpa [t.size, shape] using low
    have outside : ¬ Inside t.shape [i] := by
      rw [shape]
      exact fun inside => low inside.1
    rw [get?, if_neg outside, List.getElem?_eq_none beyond]

theorem get?_middle {t t' : NDArray α} {pre mid mid' post i m m' k : List Nat}
    (split : t.shape = pre ++ (mid ++ post)) (moved : t.reshape (pre ++ (mid' ++ post)) = some t')
    (first : Inside pre i) (here : Inside mid m) (here' : Inside mid' m') (last : Inside post k)
    (count : mid.prod = mid'.prod) (same : offset mid m = offset mid' m') :
    t'.get? (i ++ (m' ++ k)) = t.get? (i ++ (m ++ k)) := by
  have len := first.length
  refine get?_reshape moved ?_ ?_ ?_
  · rw [split]
    exact (inside_append len).mpr ⟨first, (inside_append here.length).mpr ⟨here, last⟩⟩
  · exact (inside_append len).mpr ⟨first, (inside_append here'.length).mpr ⟨here', last⟩⟩
  · rw [split, offset_append len, offset_append len, offset_append here.length,
      offset_append here'.length, List.prod_append, List.prod_append, count, same]

theorem inside_expand : ∀ {shape shape' idx : List Nat},
    List.Forall₂ (fun d d' => d = d' ∨ d = 1) shape shape' → Inside shape' idx →
      Inside shape (List.zipWith (fun d i => if d = 1 then 0 else i) shape idx)
  | [], [], [], _, _ => trivial
  | d :: ds, d' :: ds', i :: is, .cons fits rest, inside => by
    refine ⟨?_, inside_expand rest inside.2⟩
    have low := inside.1
    dsimp only
    split <;> omega

theorem expand_ok {t : NDArray α} (fits : List.Forall₂ (fun d d' => d = d' ∨ d = 1) t.shape shape) :
    ∃ t', t.expand shape = some t' := by
  rw [expand, if_pos fits]
  exact build_ok fun idx inside => get?_isSome.mpr (inside_expand fits inside)

theorem takeLast_eq {t t' : NDArray α} {n k : Nat} (split : t.shape = shape ++ [n]) :
    t.takeLast k = some t' ↔ t'.shape = shape ∧ ∀ idx, Inside shape idx →
    t'.get? idx = t.get? (idx ++ [k]) := by
  have some_axis : t.shape ≠ [] := by simp [split]
  rw [takeLast, if_neg some_axis, build_eq, split, List.dropLast_concat]

theorem takeLast_ok {t : NDArray α} {n k : Nat} (split : t.shape = shape ++ [n]) (low : k < n) :
    ∃ t', t.takeLast k = some t' := by
  have some_axis : t.shape ≠ [] := by simp [split]
  rw [takeLast, if_neg some_axis]
  refine build_ok fun idx inside => get?_isSome.mpr ?_
  rw [split, List.dropLast_concat] at inside
  rw [split]
  exact (inside_append inside.length).mpr ⟨inside, low, trivial⟩

end NDArray
