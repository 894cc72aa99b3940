import NxTinygrad.Lib.NDArray

/- The axes of an array in two groups, those with `p` and the others: what is left of a list with
   an entry for each axis, and the array whose axes are ordered group by group. -/
namespace NDArray

/-- The entries at the axes with `p`, where the first entry is for axis `k`. -/
def pick (p : Nat → Bool) : Nat → List Nat → List Nat
  | _, [] => []
  | k, x :: xs => if p k then x :: pick p (k + 1) xs else pick p (k + 1) xs

/-- The list of `n` entries with these at the axes with `p` and these at the others. -/
def weave (p : Nat → Bool) : Nat → Nat → List Nat → List Nat → List Nat
  | _, 0, _, _ => []
  | k, n + 1, bs, rs =>
      if p k then
        match bs with
        | [] => []
        | b :: bs => b :: weave p (k + 1) n bs rs
      else
        match rs with
        | [] => []
        | r :: rs => r :: weave p (k + 1) n bs rs

variable {p : Nat → Bool} {k n : Nat} {shape bs rs : List Nat}

theorem flatMap_single {α β : Type} [DecidableEq α] {l : List α} {b : α} {out : List β}
    (nodup : l.Nodup)
    (mem : b ∈ l) : (l.flatMap fun a => if a = b then out else []) = out := by
  induction l with
  | nil => cases mem
  | cons a rest ih =>
    obtain ⟨fresh, nodup⟩ := List.nodup_cons.mp nodup
    rw [List.flatMap_cons]
    by_cases same : a = b
    · have none : (rest.flatMap fun x => if x = b then out else []) = [] :=
        List.flatMap_eq_nil_iff.mpr fun x there => if_neg fun eq => fresh (by rwa [same, ← eq])
      rw [if_pos same, none, List.append_nil]
    · rw [if_neg same, List.nil_append, ih nodup ((List.mem_cons.mp mem).resolve_left (Ne.symm same))]

theorem filter_pick (inside : Inside (pick p k shape) bs) :
    (indices shape).filter (fun idx => pick p k idx = bs) =
      (indices (pick (fun a => !p a) k shape)).map (weave p k shape.length bs) := by
  induction shape generalizing k bs with
  | nil => cases bs <;> simp_all [pick, Inside, indices, weave]
  | cons d ds ih =>
    cases kept : p k with
    | false =>
      have inside : Inside (pick p (k + 1) ds) bs := by simpa [pick, kept] using inside
      simp [indices, pick, kept, weave, List.filter_flatMap, List.map_flatMap, List.filter_map,
        Function.comp_def, ih inside]
    | true =>
      obtain ⟨b, bs', rfl⟩ : ∃ b bs', bs = b :: bs' := by
        cases bs with
        | nil => simp [pick, kept, Inside] at inside
        | cons b bs' => exact ⟨b, bs', rfl⟩
      have inside : b < d ∧ Inside (pick p (k + 1) ds) bs' := by simpa [pick, kept, Inside] using inside
      have here : ∀ i ∈ List.range d, ((indices ds).map (i :: ·)).filter
          (fun idx => pick p k idx = b :: bs') =
          if i = b then ((indices (pick (fun a => !p a) (k + 1) ds)).map
            (weave p (k + 1) ds.length bs')).map (b :: ·) else [] := by
        intro i _
        by_cases same : i = b
        · subst same
          simp [pick, kept, List.filter_map, Function.comp_def, ih inside.2]
        · simp [pick, kept, same]
      rw [indices, List.filter_flatMap, List.flatMap_congr here,
        flatMap_single List.nodup_range (List.mem_range.mpr inside.1)]
      simp [pick, kept, weave, Function.comp_def]

theorem weave_mem (inside : Inside (pick p k shape) bs)
    (inside' : Inside (pick (fun a => !p a) k shape) rs) : weave p k shape.length bs rs ∈
      (indices shape).filter (fun idx => pick p k idx = bs) := by
  rw [filter_pick inside]
  exact List.mem_map_of_mem (mem_indices.mpr inside')

theorem weave_inside (inside : Inside (pick p k shape) bs)
    (inside' : Inside (pick (fun a => !p a) k shape) rs) :
    Inside shape (weave p k shape.length bs rs) :=
  mem_indices.mp (List.mem_of_mem_filter (weave_mem inside inside'))

def axesOf (p : Nat → Bool) (k n : Nat) : List Nat := (List.range' k n).filter p

theorem mem_axesOf {a : Nat} (mem : a ∈ axesOf p (k + 1) n) : k < a := by
  have := List.mem_range'.mp (List.mem_of_mem_filter mem)
  omega

theorem pick_axes : pick p k shape = (axesOf p k shape.length).filterMap fun a => shape[a - k]? := by
  induction shape generalizing k with
  | nil => rfl
  | cons d ds ih =>
    have later : (axesOf p (k + 1) ds.length).filterMap (fun a => (d :: ds)[a - k]?) =
        pick p (k + 1) ds := by
      rw [ih]
      refine List.filterMap_congr fun a mem => ?_
      have above := mem_axesOf mem
      rw [show a - k = a - (k + 1) + 1 by omega, List.getElem?_cons_succ]
    cases kept : p k with
    | false => simpa [pick, kept, axesOf, List.range'_succ] using later.symm
    | true => simpa [pick, kept, axesOf, List.range'_succ] using later.symm

theorem range'_above {a : Nat} (mem : a ∈ List.range' (k + 1) n) : a ≠ k := by
  have := List.mem_range'.mp mem
  omega

theorem weave_lookup (len : bs.length = (axesOf p k n).length)
    (len' : rs.length = (axesOf (fun a => !p a) k n).length) :
    (List.range' k n).filterMap (fun a =>
      (bs ++ rs)[(axesOf p k n ++ axesOf (fun a => !p a) k n).idxOf a]?) = weave p k n bs rs := by
  induction n generalizing k bs rs with
  | zero => rfl
  | succ n ih =>
    rw [List.range'_succ]
    cases kept : p k with
    | true =>
      have first : axesOf p k (n + 1) = k :: axesOf p (k + 1) n := by
        simp [axesOf, List.range'_succ, kept]
      have other : axesOf (fun a => !p a) k (n + 1) = axesOf (fun a => !p a) (k + 1) n := by
        simp [axesOf, List.range'_succ, kept]
      rw [first, List.length_cons] at len
      rw [other] at len'
      obtain ⟨b, bs', rfl⟩ := List.exists_cons_of_length_eq_add_one len
      rw [first, other]
      have rest : (List.range' (k + 1) n).filterMap
          (fun a => (b :: bs' ++ rs)[(k :: axesOf p (k + 1) n ++
          axesOf (fun a => !p a) (k + 1) n).idxOf a]?) = weave p (k + 1) n bs' rs := by
        rw [← ih (by simpa using len) len']
        refine List.filterMap_congr fun a mem => ?_
        simp [List.idxOf_cons_ne _ (range'_above mem).symm]
      simp only [List.filterMap_cons, weave, kept, if_true, rest]
      simp
    | false =>
      have first : axesOf p k (n + 1) = axesOf p (k + 1) n := by
        simp [axesOf, List.range'_succ, kept]
      have other : axesOf (fun a => !p a) k (n + 1) = k :: axesOf (fun a => !p a) (k + 1) n := by
        simp [axesOf, List.range'_succ, kept]
      rw [first] at len
      rw [other, List.length_cons] at len'
      obtain ⟨r, rs', rfl⟩ := List.exists_cons_of_length_eq_add_one len'
      rw [first, other]
      have absent : k ∉ axesOf p (k + 1) n := fun mem => Nat.lt_irrefl k (mem_axesOf mem)
      have rest : (List.range' (k + 1) n).filterMap (fun a => (bs ++ r :: rs')[(axesOf p (k + 1) n ++
          k :: axesOf (fun a => !p a) (k + 1) n).idxOf a]?) = weave p (k + 1) n bs rs' := by
        rw [← ih len (by simpa using len')]
        refine List.filterMap_congr fun a mem => ?_
        rw [List.idxOf_append, List.idxOf_append]
        split
        · rename_i inside
          have low : (axesOf p (k + 1) n).idxOf a < bs.length := by
            rw [len]
            exact List.idxOf_lt_length_iff.mpr inside
          rw [List.getElem?_append_left low, List.getElem?_append_left low]
        · rw [List.idxOf_cons_ne _ (range'_above mem).symm, ← len]
          rw [List.getElem?_append_right (by omega), List.getElem?_append_right (by omega)]
          simp [show (List.idxOf a (axesOf (fun a => !p a) (k + 1) n)).succ + bs.length - bs.length =
            List.idxOf a (axesOf (fun a => !p a) (k + 1) n) + 1 by omega]
      have here : (bs ++ r :: rs')[(axesOf p (k + 1) n ++
          k :: axesOf (fun a => !p a) (k + 1) n).idxOf k]? = some r := by
        rw [List.idxOf_append, if_neg absent, List.idxOf_cons_self, ← len]
        simp
      simp only [List.filterMap_cons, here, weave, kept, Bool.false_eq_true, if_false, rest]

theorem pick_length : (pick p k shape).length = (axesOf p k shape.length).length := by
  induction shape generalizing k with
  | nil => rfl
  | cons d ds ih =>
    have later := @ih (k + 1)
    cases kept : p k <;> simpa [pick, kept, axesOf, List.range'_succ] using later

theorem permute_split {α : Type} (p : Nat → Bool) (t : NDArray α) : ∃ moved,
    t.permute (axesOf p 0 t.shape.length ++ axesOf (fun a => !p a) 0 t.shape.length) = some moved ∧
      moved.shape = pick p 0 t.shape ++ pick (fun a => !p a) 0 t.shape ∧
      ∀ b r, Inside (pick p 0 t.shape) b → Inside (pick (fun a => !p a) 0 t.shape) r →
        moved.get? (b ++ r) = t.get? (weave p 0 t.shape.length b r) := by
  have order : (axesOf p 0 t.shape.length ++ axesOf (fun a => !p a) 0 t.shape.length).Perm
      (List.range t.shape.length) := by
    rw [List.range_eq_range']
    exact List.filter_append_perm p _
  have dims : (axesOf p 0 t.shape.length ++ axesOf (fun a => !p a) 0 t.shape.length).filterMap
      (t.shape[·]?) = pick p 0 t.shape ++ pick (fun a => !p a) 0 t.shape := by
    rw [List.filterMap_append, pick_axes, pick_axes]
    rfl
  have lookup (b r : List Nat) (inside : Inside (pick p 0 t.shape) b)
      (inside' : Inside (pick (fun a => !p a) 0 t.shape) r) :
      (List.range t.shape.length).filterMap (fun a => (b ++ r)[(axesOf p 0 t.shape.length ++
        axesOf (fun a => !p a) 0 t.shape.length).idxOf a]?) = weave p 0 t.shape.length b r := by
    rw [List.range_eq_range']
    exact weave_lookup (inside.length.trans pick_length) (inside'.length.trans pick_length)
  obtain ⟨moved, made⟩ : ∃ moved, build (pick p 0 t.shape ++ pick (fun a => !p a) 0 t.shape) (fun idx =>
      t.get? ((List.range t.shape.length).filterMap fun a => idx[(axesOf p 0 t.shape.length ++
        axesOf (fun a => !p a) 0 t.shape.length).idxOf a]?)) = some moved := by
    refine build_ok fun idx inside => get?_isSome.mpr ?_
    obtain ⟨b, r, rfl, first, rest⟩ := inside_split inside
    rw [lookup b r first rest]
    exact weave_inside first rest
  refine ⟨moved, by rw [permute, if_pos order, dims, made], (build_eq.mp made).1,
    fun b r first rest => ?_⟩
  rw [(build_eq.mp made).2 _ ((inside_append first.length).mpr ⟨first, rest⟩), lookup b r first rest]

theorem split_last {l : List Nat} {m d : Nat} (len : m = k + l.length) :
    pick (fun a => a ∉ [m]) k (l ++ [d]) = l ∧ pick (fun a => !decide (a ∉ [m])) k (l ++ [d]) = [d] ∧
      ∀ bs i, bs.length = l.length → weave (fun a => a ∉ [m]) k (l.length + 1) bs [i] = bs ++ [i] := by
  induction l generalizing k with
  | nil =>
    obtain rfl : m = k := by simpa using len
    simp [pick, weave]
  | cons x xs ih =>
    obtain ⟨first, last, woven⟩ := @ih (k + 1) (by rw [List.length_cons] at len; omega)
    have early : k ≠ m := by rw [List.length_cons] at len; omega
    refine ⟨?_, ?_, ?_⟩
    · simpa [pick, early] using first
    · simpa [pick, early] using last
    · intro bs i some_entries
      obtain ⟨b, bs, rfl⟩ := List.exists_cons_of_length_eq_add_one some_entries
      simpa [weave, early] using woven bs i (by simpa using some_entries)

theorem ones_prod : (shape.mapIdx fun a d => if p (k + a) then d else 1).prod =
    (pick p k shape).prod := by
  induction shape generalizing k with
  | nil => rfl
  | cons d ds ih =>
    have later := @ih (k + 1)
    simp only [Nat.add_assoc, Nat.add_comm 1] at later
    cases kept : p k <;> simp [List.mapIdx_cons, pick, kept, later]

theorem ones_inside (inside : Inside (pick p k shape) bs) :
    Inside (shape.mapIdx fun a d => if p (k + a) then d else 1)
      (weave p k shape.length bs (List.replicate (pick (fun a => !p a) k shape).length 0)) := by
  induction shape generalizing k bs with
  | nil => trivial
  | cons d ds ih =>
    have later := fun bs => @ih (k + 1) bs
    simp only [Nat.add_assoc, Nat.add_comm 1] at later
    cases kept : p k with
    | false =>
      have inside : Inside (pick p (k + 1) ds) bs := by simpa [pick, kept] using inside
      simpa [List.mapIdx_cons, pick, kept, weave, List.replicate_succ, Inside] using later bs inside
    | true =>
      cases bs with
      | nil => simp [pick, kept, Inside] at inside
      | cons b bs =>
        have inside : b < d ∧ Inside (pick p (k + 1) ds) bs := by
          simpa [pick, kept, Inside] using inside
        simpa [List.mapIdx_cons, pick, kept, weave, Inside, inside.1] using later bs inside.2

theorem ones_offset (inside : Inside (pick p k shape) bs) :
    offset (shape.mapIdx fun a d => if p (k + a) then d else 1)
      (weave p k shape.length bs (List.replicate (pick (fun a => !p a) k shape).length 0)) =
    offset (pick p k shape) bs := by
  induction shape generalizing k bs with
  | nil => cases bs <;> rfl
  | cons d ds ih =>
    have later := fun bs => @ih (k + 1) bs
    have size := @ones_prod p (k + 1) ds
    simp only [Nat.add_assoc, Nat.add_comm 1] at later size
    cases kept : p k with
    | false =>
      have inside : Inside (pick p (k + 1) ds) bs := by simpa [pick, kept] using inside
      simpa [List.mapIdx_cons, pick, kept, weave, List.replicate_succ, offset] using later bs inside
    | true =>
      cases bs with
      | nil => simp [pick, kept, Inside] at inside
      | cons b bs =>
        have inside : b < d ∧ Inside (pick p (k + 1) ds) bs := by
          simpa [pick, kept, Inside] using inside
        simp [List.mapIdx_cons, pick, kept, weave, offset, later bs inside.2, size]

end NDArray
