import NxTinygrad.Lib.NDArray

/- Arrays that are read axis by axis from another array: slices, pads and flips. -/
namespace NDArray

/-- Along one axis: the number of entries, and where each of them is read from, if anywhere. -/
structure Window where
  size : Nat
  read : Nat → Option Nat

def place : List Window → List Nat → Option (List Nat)
  | [], [] => some []
  | w :: ws, i :: is => (w.read i).bind fun j => (place ws is).map (j :: ·)
  | _, _ => none

variable {α : Type}

def look (t : NDArray α) (windows : List Window) (fill : Option α) : Option (NDArray α) :=
  build (windows.map Window.size) fun idx => match place windows idx with
    | some j => t.get? j
    | none => fill

def Window.Fits (d : Nat) (w : Window) : Prop := ∀ i j, i < w.size → w.read i = some j → j < d

def Window.Whole (w : Window) : Prop := ∀ i, i < w.size → (w.read i).isSome

variable {windows : List Window} {shape idx idx' : List Nat}

theorem place_inside (fits : List.Forall₂ Window.Fits shape windows)
    (inside : Inside (windows.map Window.size) idx)
    (there : place windows idx = some idx') : Inside shape idx' := by
  induction fits generalizing idx idx' with
  | nil =>
    cases idx with
    | nil =>
      cases there
      trivial
    | cons i is => cases inside
  | cons here _ ih =>
    cases idx with
    | nil => cases inside
    | cons i is =>
      obtain ⟨j, first, there⟩ := Option.bind_eq_some_iff.mp there
      obtain ⟨js, rest, rfl⟩ := Option.map_eq_some_iff.mp there
      exact ⟨here i j inside.1 first, ih inside.2 rest⟩

theorem place_whole (whole : ∀ w ∈ windows, w.Whole) (inside : Inside (windows.map Window.size) idx) :
    ∃ j, place windows idx = some j := by
  induction windows generalizing idx with
  | nil =>
    cases idx with
    | nil => exact ⟨[], rfl⟩
    | cons i is => cases inside
  | cons w ws ih =>
    cases idx with
    | nil => cases inside
    | cons i is =>
      obtain ⟨j, first⟩ := Option.isSome_iff_exists.mp (whole w (List.mem_cons_self ..) i inside.1)
      obtain ⟨js, rest⟩ := ih (fun v mem => whole v (List.mem_cons_of_mem _ mem)) inside.2
      exact ⟨j :: js, by rw [place, first, rest]; rfl⟩

theorem place_append {ws ws' : List Window} {is is' : List Nat} (len : ws.length = is.length) :
    place (ws ++ ws') (is ++ is') = (place ws is).bind fun j => (place ws' is').map (j ++ ·) := by
  induction ws generalizing is with
  | nil =>
    cases is with
    | nil => simp [place]
    | cons i is => cases len
  | cons w ws ih =>
    cases is with
    | nil => cases len
    | cons i is =>
      rw [List.cons_append, List.cons_append, place, place, ih (by simpa using len)]
      cases w.read i with
      | none => rfl
      | some j =>
        cases place ws is with
        | none => rfl
        | some js => cases place ws' is' <;> rfl

section look
variable {t out : NDArray α} {fill : Option α}

theorem look_shape (made : look t windows fill = some out) : out.shape = windows.map Window.size :=
  (build_eq.mp made).1

theorem get?_look (made : look t windows fill = some out)
    (inside : Inside (windows.map Window.size) idx) :
    out.get? idx = match place windows idx with
      | some j => t.get? j
      | none => fill := (build_eq.mp made).2 idx inside

theorem look_ok (fits : List.Forall₂ Window.Fits t.shape windows)
    (complete : fill.isSome ∨ ∀ w ∈ windows, w.Whole) : ∃ out, look t windows fill = some out := by
  refine build_ok fun idx inside => ?_
  cases there : place windows idx with
  | some j => exact get?_isSome.mpr (place_inside fits inside there)
  | none =>
    rcases complete with given | whole
    · exact given
    · obtain ⟨j, found⟩ := place_whole whole inside
      rw [there] at found
      cases found

theorem look_lazy {β : Type} {s : NDArray β} {fill' : Option β} (same : t.shape = s.shape)
    (filled : fill.isSome = fill'.isSome) :
    (look t windows fill).map NDArray.shape = (look s windows fill').map NDArray.shape := by
  apply build_lazy
  intro idx _
  cases place windows idx with
  | none => exact filled
  | some j =>
    apply Bool.eq_iff_iff.mpr
    rw [get?_isSome, get?_isSome, same]

end look

def Window.all (d : Nat) : Window := ⟨d, some⟩

def Window.slice (d start length stride : Nat) : Window :=
  ⟨(min (start + length) d - start + stride - 1) / stride, fun i => some (start + stride * i)⟩

/-- `lo` entries before and `hi` entries after; negative numbers crop. -/
def Window.pad (d : Nat) (lo hi : Int) : Window :=
  ⟨(d + lo + hi).toNat, fun i => if lo ≤ i ∧ i < lo + d then some (i - lo).toNat else none⟩

def Window.flip (d : Nat) : Window := ⟨d, fun i => some (d - 1 - i)⟩

theorem all_fits (d : Nat) : (Window.all d).Fits d := by
  rintro i j low ⟨⟩
  exact low

theorem slice_fits {stride : Nat} (d start length : Nat) (step : 0 < stride) :
    (Window.slice d start length stride).Fits d := by
  rintro i j low ⟨⟩
  have bound : i * stride < min (start + length) d - start + stride - 1 - (stride - 1) := by
    have := (Nat.lt_div_iff_mul_lt step).mp low
    omega
  rw [Nat.mul_comm]
  omega

theorem pad_fits (d : Nat) (lo hi : Int) : (Window.pad d lo hi).Fits d := by
  intro i j low read
  simp only [Window.pad] at read
  split at read
  · cases read
    omega
  · cases read

theorem flip_fits (d : Nat) : (Window.flip d).Fits d := by
  rintro i j low ⟨⟩
  have low : i < d := low
  omega

section axis

theorem mapIdx_other {β γ : Type} {h : Nat → β → γ} {g : β → γ} {l : List β}
    (other : ∀ (i : Nat) b, i < l.length → h i b = g b) : l.mapIdx h = l.map g := by
  refine List.mapIdx_eq_iff.mpr fun i => ?_
  rw [List.getElem?_map]
  cases there : l[i]? with
  | none => rfl
  | some b =>
    have low := (List.getElem?_eq_some_iff.mp there).1
    rw [Option.map_some, Option.map_some, other i b low]

theorem mapIdx_at {β γ : Type} (f g : β → γ) (pre post : List β) (m : β) :
    ((pre ++ m :: post).mapIdx fun j s => if j = pre.length then f s else g s) =
      pre.map g ++ f m :: post.map g := by
  rw [List.mapIdx_append, List.mapIdx_cons, Nat.zero_add, if_pos rfl]
  refine congrArg₂ (· ++ f m :: ·) (mapIdx_other ?_) (mapIdx_other ?_)
  · exact fun i b low => if_neg (Nat.ne_of_lt low)
  · exact fun i b _ => if_neg (by omega)

end axis

section pads
variable {shape : List Nat} {padding : List (Int × Int)}

def pads (shape : List Nat) (padding : List (Int × Int)) : List Window :=
  List.zipWith (fun d (p : Int × Int) => .pad d p.1 p.2) shape padding

theorem pads_sizes (shape : List Nat) (padding : List (Int × Int)) :
    (pads shape padding).map Window.size =
    List.zipWith (fun (d : Nat) (p : Int × Int) => ((d : Int) + p.1 + p.2).toNat) shape padding := by
  simp [pads, List.map_zipWith, Window.pad]

theorem pads_fit (len : padding.length = shape.length) :
    List.Forall₂ Window.Fits shape (pads shape padding) := by
  induction shape generalizing padding with
  | nil => exact .nil
  | cons d ds ih =>
    cases padding with
    | nil => cases len
    | cons p ps => exact .cons (pad_fits _ _ _) (ih (by simpa using len))

end pads

section whole
variable {shape idx : List Nat}

theorem place_all (inside : Inside shape idx) : place (shape.map .all) idx = some idx := by
  induction shape generalizing idx with
  | nil =>
    cases idx with
    | nil => rfl
    | cons i is => cases inside
  | cons s ss ih =>
    cases idx with
    | nil => cases inside
    | cons i is => simp [place, Window.all, ih inside.2]

theorem place_unpadded (inside : Inside shape idx) :
    place (shape.map fun s => .pad s 0 0) idx = some idx := by
  induction shape generalizing idx with
  | nil =>
    cases idx with
    | nil => rfl
    | cons i is => cases inside
  | cons s ss ih =>
    cases idx with
    | nil => cases inside
    | cons i is =>
      have low := inside.1
      have here : (Window.pad s 0 0).read i = some i := by
        simp only [Window.pad]
        rw [if_pos (by omega)]
        simp
      rw [List.map_cons, place, here, ih inside.2]
      rfl

theorem unpadded_sizes (shape : List Nat) :
    (shape.map fun s => Window.pad s 0 0).map Window.size = shape := by
  rw [List.map_map]
  exact (List.map_congr_left fun s _ => by simp [Window.pad]).trans (List.map_id shape)

end whole

end NDArray
