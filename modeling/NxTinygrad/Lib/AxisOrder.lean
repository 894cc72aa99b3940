import NxTinygrad.Lib.NDArray

/- Index lists and arrays whose axes are put in another order, and put back. -/
namespace NDArray

def arrange (axes idx : List Nat) : List Nat := axes.filterMap (idx[·]?)

def restore (axes : List Nat) (rank : Nat) (idx : List Nat) : List Nat :=
  (List.range rank).filterMap fun a => idx[axes.idxOf a]?

def inverse (axes : List Nat) (rank : Nat) : List Nat := (List.range rank).map axes.idxOf

variable {axes idx : List Nat} {rank : Nat}

theorem filterMap_get {β γ : Type} {f : β → Option γ} {l : List β}
    (all : ∀ b ∈ l, (f b).isSome) (k : Nat) :
    (l.filterMap f)[k]? = l[k]?.bind f := by
  induction l generalizing k with
  | nil => simp
  | cons b rest ih =>
    obtain ⟨c, made⟩ := Option.isSome_iff_exists.mp (all b (List.mem_cons_self ..))
    rw [List.filterMap_cons, made]
    cases k with
    | zero => simp [made]
    | succ k => simpa using ih (fun x mem => all x (List.mem_cons_of_mem _ mem)) k

theorem filterMap_length {β γ : Type} {f : β → Option γ} {l : List β} (all : ∀ b ∈ l, (f b).isSome) :
    (l.filterMap f).length = l.length := by
  induction l with
  | nil => rfl
  | cons b rest ih =>
    obtain ⟨c, made⟩ := Option.isSome_iff_exists.mp (all b (List.mem_cons_self ..))
    simp [made, ih fun x mem => all x (List.mem_cons_of_mem _ mem)]

theorem range_filterMap {β γ : Type} (f : β → Option γ) (l : List β) :
    (List.range l.length).filterMap (fun i => l[i]?.bind f) = l.filterMap f := by
  induction l with
  | nil => rfl
  | cons x rest ih =>
    rw [List.length_cons, List.range_succ_eq_map, List.filterMap_cons, List.filterMap_map]
    simp only [Function.comp_def, List.getElem?_cons_succ, ih, List.getElem?_cons_zero,
      Option.bind_some, List.filterMap_cons]

theorem range_mapM {β γ : Type} {f : Nat → Option γ} {g : β → γ} {l : List β}
    (each : ∀ i b, l[i]? = some b → f i = some (g b)) :
      (List.range l.length).mapM f = some (l.map g) := by
  induction l generalizing f with
  | nil => rfl
  | cons b rest ih =>
    have later := @ih (fun i => f (i + 1)) fun i b' there => each (i + 1) b' (by simpa using there)
    rw [List.length_cons, List.range_succ_eq_map, List.mapM_cons, each 0 b rfl, List.mapM_map]
    simp only [Function.comp_def, Nat.succ_eq_add_one, later, Option.bind_eq_bind, Option.bind_some,
      List.map_cons]
    rfl

theorem range_get {β : Type} (l : List β) : (List.range l.length).filterMap (l[·]?) = l := by
  simpa using range_filterMap some l

theorem arrange_inverse (l : List Nat) : arrange (inverse axes rank) l = restore axes rank l :=
  List.filterMap_map

section order
variable (order : axes.Perm (List.range rank))
include order

theorem axis_low {a : Nat} (mem : a ∈ axes) : a < rank := List.mem_range.mp (order.mem_iff.mp mem)

theorem axis_mem {a : Nat} (low : a < rank) : a ∈ axes := order.mem_iff.mpr (List.mem_range.mpr low)

theorem axes_length : axes.length = rank := by simpa using order.length_eq

theorem axes_get {a : Nat} (low : a < rank) : axes[axes.idxOf a]? = some a :=
  List.getElem?_idxOf (axis_mem order low)

theorem arrange_some (len : idx.length = rank) : ∀ a ∈ axes, (idx[a]?).isSome := by
  intro a mem
  have low := axis_low order mem
  simp [← len] at low ⊢
  exact low

theorem arrange_get (len : idx.length = rank) (k : Nat) :
    (arrange axes idx)[k]? = axes[k]?.bind (idx[·]?) := filterMap_get (arrange_some order len) k

theorem arrange_length (len : idx.length = rank) : (arrange axes idx).length = rank :=
  (filterMap_length (arrange_some order len)).trans (axes_length order)

theorem restore_arrange (len : idx.length = rank) : restore axes rank (arrange axes idx) = idx := by
  have same : ∀ a ∈ List.range rank, (arrange axes idx)[axes.idxOf a]? = idx[a]? := by
    intro a mem
    rw [arrange_get order len, axes_get order (List.mem_range.mp mem), Option.bind_some]
  rw [restore, List.filterMap_congr same, ← len, range_get]

theorem restore_some (len : idx.length = rank) :
    ∀ a ∈ List.range rank, (idx[axes.idxOf a]?).isSome := by
  intro a mem
  have low := List.idxOf_lt_length_iff.mpr (axis_mem order (List.mem_range.mp mem))
  rw [axes_length order, ← len] at low
  simpa using low

theorem restore_length (len : idx.length = rank) : (restore axes rank idx).length = rank :=
  (filterMap_length (restore_some order len)).trans List.length_range

theorem arrange_restore (len : idx.length = rank) : arrange axes (restore axes rank idx) = idx := by
  apply List.ext_getElem?
  intro k
  rw [arrange_get order (restore_length order len)]
  rcases Nat.lt_or_ge k rank with low | beyond
  · have here : k < axes.length := by rwa [axes_length order]
    have axis : axes[k]? = some axes[k] := List.getElem?_eq_getElem here
    have place := (order.nodup_iff.mpr List.nodup_range).idxOf_getElem k here
    rw [axis, Option.bind_some, restore, filterMap_get (restore_some order len),
      List.getElem?_range (axis_low order (List.getElem_mem here)), Option.bind_some, place]
  · have gone : axes[k]? = none := List.getElem?_eq_none (by rwa [axes_length order])
    rw [gone, List.getElem?_eq_none (by rwa [len])]
    rfl

theorem inverse_perm : (inverse axes rank).Perm (List.range rank) := by
  refine (List.perm_ext_iff_of_nodup ?_ List.nodup_range).mpr fun k => ?_
  · refine List.Nodup.map_on ?_ List.nodup_range
    intro a mem b mem' same
    have here := axes_get order (List.mem_range.mp mem)
    rw [same, axes_get order (List.mem_range.mp mem')] at here
    exact (Option.some.inj here).symm
  · simp only [inverse, List.mem_map, List.mem_range]
    constructor
    · rintro ⟨a, low, rfl⟩
      rw [← axes_length order]
      exact List.idxOf_lt_length_iff.mpr (axis_mem order low)
    · intro low
      rw [← axes_length order] at low
      refine ⟨axes[k], axis_low order (List.getElem_mem low), ?_⟩
      exact (order.nodup_iff.mpr List.nodup_range).idxOf_getElem k low

theorem inside_arrange {shape : List Nat} (len : shape.length = rank) (inside : Inside shape idx) :
    Inside (arrange axes shape) (arrange axes idx) := by
  have len' := inside.length.trans len
  refine inside_get.mpr ⟨(arrange_length order len').trans (arrange_length order len).symm, ?_⟩
  intro k i d at_i at_d
  rw [arrange_get order len'] at at_i
  rw [arrange_get order len] at at_d
  obtain ⟨a, axis, at_i⟩ := Option.bind_eq_some_iff.mp at_i
  rw [axis, Option.bind_some] at at_d
  exact (inside_get.mp inside).2 a i d at_i at_d

theorem inside_restore {shape : List Nat} (len : shape.length = rank)
    (inside : Inside (arrange axes shape) idx) :
    Inside shape (restore axes rank idx) := by
  have len' : idx.length = rank := inside.length.trans (arrange_length order len)
  have there := restore_some order len'
  have count := restore_length order len'
  refine inside_get.mpr ⟨count.trans len.symm, ?_⟩
  intro k i d at_i at_d
  have low : k < rank := by
    rw [← count]
    exact (List.getElem?_eq_some_iff.mp at_i).1
  rw [restore, filterMap_get there, List.getElem?_range low, Option.bind_some] at at_i
  refine (inside_get.mp inside).2 (axes.idxOf k) i d at_i ?_
  rw [arrange_get order len, axes_get order low, Option.bind_some, at_d]

end order

variable {α : Type}

theorem permute_ok {t : NDArray α} (order : axes.Perm (List.range t.shape.length)) : ∃ moved,
    t.permute axes = some moved ∧ moved.shape = arrange axes t.shape ∧
      ∀ idx, Inside t.shape idx → moved.get? (arrange axes idx) = t.get? idx := by
  obtain ⟨moved, made⟩ : ∃ moved, build (arrange axes t.shape)
      (fun idx => t.get? (restore axes t.shape.length idx)) = some moved :=
    build_ok fun idx inside => get?_isSome.mpr (inside_restore order rfl inside)
  refine ⟨moved, (if_pos order).trans made, (build_eq.mp made).1, fun idx inside => ?_⟩
  rw [(build_eq.mp made).2 _ (inside_arrange order rfl inside), restore_arrange order inside.length]

theorem permute_at {t moved : NDArray α} (order : axes.Perm (List.range t.shape.length))
    (made : t.permute axes = some moved) (inside : Inside (arrange axes t.shape) idx) :
    moved.get? idx = t.get? (restore axes t.shape.length idx) := by
  rw [permute, if_pos order] at made
  exact (build_eq.mp made).2 idx inside

theorem permute_map {β : Type} (g : α → β) (t : NDArray α) (axes : List Nat) :
    (t.map g).permute axes = (t.permute axes).map (map g) := by
  have same : (t.map g).shape = t.shape := rfl
  unfold permute
  rw [same]
  split
  · rw [build_map]
    simp only [get?_map]
  · rfl

theorem permute_back {t : NDArray α} {shape : List Nat} (order : axes.Perm (List.range shape.length))
    (moved : t.shape = arrange axes shape) : ∃ back, t.permute (inverse axes shape.length) = some back ∧
      back.shape = shape ∧ ∀ idx, Inside shape idx → back.get? idx = t.get? (arrange axes idx) := by
  have count : t.shape.length = shape.length := by rw [moved, arrange_length order rfl]
  have order' : (inverse axes shape.length).Perm (List.range t.shape.length) := by
    rw [count]
    exact inverse_perm order
  obtain ⟨back, made, dims, gets⟩ := permute_ok order'
  refine ⟨back, made, ?_, fun idx inside => ?_⟩
  · rw [dims, arrange_inverse, moved, restore_arrange order rfl]
  · have place := inside_arrange order rfl inside
    rw [← moved] at place
    rw [← gets _ place, arrange_inverse, restore_arrange order inside.length]

theorem permute_inverse {t : NDArray α} (order : axes.Perm (List.range t.shape.length)) :
    ∃ r, t.permute (inverse axes t.shape.length) = some r ∧ r.permute axes = some t := by
  obtain ⟨r, made, dims, gets⟩ := permute_ok (inverse_perm order)
  rw [arrange_inverse] at dims
  have count : r.shape.length = t.shape.length := by rw [dims, restore_length order rfl]
  have order' : axes.Perm (List.range r.shape.length) := by rwa [count]
  obtain ⟨again, moved, dims', gets'⟩ := permute_ok order'
  have shape : again.shape = t.shape := by rw [dims', dims, arrange_restore order rfl]
  refine ⟨r, made, ?_⟩
  rw [moved]
  refine congrArg some (ext_get shape fun idx inside => ?_)
  rw [shape] at inside
  have back : Inside r.shape (restore axes t.shape.length idx) := by
    rw [dims]
    rw [← arrange_inverse, ← arrange_inverse]
    exact inside_arrange (inverse_perm order) rfl inside
  calc again.get? idx
      = again.get? (arrange axes (restore axes t.shape.length idx)) := by
        rw [arrange_restore order inside.length]
    _ = r.get? (restore axes t.shape.length idx) := gets' _ back
    _ = t.get? idx := by rw [← arrange_inverse, gets idx inside]

end NDArray
