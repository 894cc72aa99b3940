import NxTinygrad.Lib.Joining

/- An array along one axis: the entries whose indices differ on this axis only, in order. -/
namespace NDArray

variable {α : Type} {pre post i k : List Nat} {t u r : NDArray α} {n : Nat}

def strand (axis : Nat) (t : NDArray α) (i k : List Nat) : List (Option α) :=
  (List.range (t.shape.getD axis 0)).map fun j => t.get? (i ++ j :: k)

theorem getD_between (pre post : List Nat) (n : Nat) : (pre ++ n :: post).getD pre.length 0 = n := by
  simp [List.getD_eq_getElem?_getD]

theorem set_between (pre post : List Nat) (n m : Nat) :
    (pre ++ n :: post).set pre.length m = pre ++ m :: post := by
  simp

theorem strand_length (dims : t.shape = pre ++ n :: post) : (strand pre.length t i k).length = n := by
  rw [strand, List.length_map, List.length_range, dims, getD_between]

theorem strand_get (dims : t.shape = pre ++ n :: post) {j : Nat} (low : j < n) :
    (strand pre.length t i k)[j]? = some (t.get? (i ++ j :: k)) := by
  rw [strand, dims, getD_between, List.getElem?_map, List.getElem?_range low, Option.map_some]

theorem ext_strand (dims : t.shape = pre ++ n :: post) (dims' : u.shape = pre ++ n :: post)
    (same : ∀ i k, Inside pre i → Inside post k → strand pre.length t i k = strand pre.length u i k) :
    t = u := by
  apply ext_get (dims.trans dims'.symm)
  intro idx inside
  rw [dims] at inside
  obtain ⟨i, rest, rfl, first, inside⟩ := inside_split inside
  cases rest with
  | nil => cases inside
  | cons j k =>
    have here := congrArg (·[j]?) (same i k first inside.2)
    simp only [strand_get dims inside.1, strand_get dims' inside.1] at here
    exact Option.some.inj here

theorem strand_of_get {l : List (Option α)} (dims : r.shape = pre ++ n :: post) (len : l.length = n)
    (gets : ∀ j, j < n → r.get? (i ++ j :: k) = (l[j]?).join) : strand pre.length r i k = l := by
  apply List.ext_getElem?
  intro j
  by_cases low : j < n
  · have there : j < l.length := by rwa [len]
    rw [strand_get dims low, gets j low, List.getElem?_eq_getElem there]
    rfl
  · rw [List.getElem?_eq_none (by rw [strand_length dims]; omega),
      List.getElem?_eq_none (by omega)]

theorem catRead_strands {ts : List (NDArray α)} (sized : ∀ u ∈ ts, ∃ n, u.shape = pre ++ n :: post)
    (len : i.length = pre.length) (x j : Nat) : catRead pre.length (i ++ x :: k) ts j =
      ((ts.map fun u => strand pre.length u i k).flatten[j]?).join := by
  induction ts generalizing j with
  | nil => rfl
  | cons t rest ih =>
    obtain ⟨n, dims⟩ := sized t (List.mem_cons_self ..)
    have more := ih fun u mem => sized u (List.mem_cons_of_mem _ mem)
    rw [catRead, List.map_cons, List.flatten_cons, dims, getD_between]
    split
    · rename_i low
      rw [List.getElem?_append_left (by rwa [strand_length dims]), strand_get dims low, ← len, set_between]
      rfl
    · rename_i beyond
      rw [List.getElem?_append_right (by rw [strand_length dims]; omega), strand_length dims, more]

theorem strands_length {ts : List (NDArray α)} (sized : ∀ u ∈ ts, ∃ n, u.shape = pre ++ n :: post) :
    ((ts.map fun u => strand pre.length u i k).flatten).length =
      (ts.map fun u => u.shape.getD pre.length 0).sum := by
  rw [List.length_flatten, List.map_map]
  refine congrArg List.sum (List.map_congr_left fun u mem => ?_)
  obtain ⟨n, dims⟩ := sized u mem
  rw [Function.comp_apply, strand_length dims, dims, getD_between]

theorem cat_strands {ts : List (NDArray α)} (some_part : ts ≠ [])
    (sized : ∀ u ∈ ts, ∃ n, u.shape = pre ++ n :: post) : ∃ r, cat ts pre.length = some r ∧
      r.shape = pre ++ (ts.map fun u => u.shape.getD pre.length 0).sum :: post ∧
      ∀ i k, Inside pre i → Inside post k →
        strand pre.length r i k = (ts.map fun u => strand pre.length u i k).flatten := by
  cases ts with
  | nil => exact absurd rfl some_part
  | cons t rest =>
    obtain ⟨n, dims⟩ := sized t (List.mem_cons_self ..)
    have low : pre.length < t.shape.length := by
      rw [dims, List.length_append, List.length_cons]
      omega
    have alike : ∀ u ∈ rest, u.shape.set pre.length 0 = t.shape.set pre.length 0 := by
      intro u mem
      obtain ⟨m, dims'⟩ := sized u (List.mem_cons_of_mem _ mem)
      rw [dims, dims', set_between, set_between]
    obtain ⟨r, made, shape, gets⟩ := cat_ok low alike
    have shape' : r.shape = pre ++ ((t :: rest).map fun u => u.shape.getD pre.length 0).sum :: post := by
      rw [shape]
      conv_lhs => rw [dims]
      rw [set_between]
    refine ⟨r, made, shape', fun i k first last => ?_⟩
    apply strand_of_get shape' (strands_length sized)
    intro j below
    have inside : Inside r.shape (i ++ j :: k) := by
      rw [shape']
      exact (inside_append first.length).mpr ⟨first, below, last⟩
    rw [gets _ inside, catRead_strands sized first.length]
    rw [← first.length, getD_between]

theorem cat_around {ts : List (NDArray α)} {axis : Nat} (made : cat ts axis = some r) :
    ∃ pre post, pre.length = axis ∧ ∀ u ∈ ts, ∃ n, u.shape = pre ++ n :: post := by
  cases ts with
  | nil => cases made
  | cons t rest =>
    obtain ⟨low, alike, -, -⟩ := cat_some made
    have all : ∀ u ∈ t :: rest, u.shape.set axis 0 = t.shape.set axis 0 := by
      intro u mem
      rcases List.mem_cons.mp mem with rfl | mem
      · rfl
      · exact alike u mem
    refine ⟨t.shape.take axis, t.shape.drop (axis + 1), List.length_take_of_le (Nat.le_of_lt low), ?_⟩
    intro u mem
    have same := all u mem
    have count : u.shape.length = t.shape.length := by simpa using congrArg List.length same
    have first := congrArg (List.take axis) same
    have last := congrArg (List.drop (axis + 1)) same
    rw [List.take_set_of_le (Nat.le_refl _), List.take_set_of_le (Nat.le_refl _)] at first
    rw [List.drop_set_of_lt (Nat.lt_succ_self _), List.drop_set_of_lt (Nat.lt_succ_self _)] at last
    have there : axis < u.shape.length := by omega
    refine ⟨u.shape[axis], ?_⟩
    rw [← first, ← last, List.getElem_cons_drop, List.take_append_drop]

end NDArray
