import NxTinygrad.Scatter
import NxTinygrad.Lib.Einstein
import NxTinygrad.Lib.Splitting
import Mathlib.Algebra.Ring.Int.Defs

/- `_einsum_dot` of operations.py: a batched contraction written as the subscripts of an Einstein
   sum. Texts are lists of characters. -/
namespace NxTinygrad.Contraction
open NDArray Reductions Scatter Splitting

def letters : List Char := "abcdefghijklmnopqrstuvwxyzABCDEFGHIJKLMNOPQRSTUVWXYZ".toList

structure Subs where
  a : List (Option Char)
  b : List (Option Char)
  nxt : Nat
  deriving DecidableEq

def setLetter (sub : List (Option Char)) (la : Nat) (c : Char) : Option (List (Option Char)) :=
  if la < sub.length then some (sub.set la (some c)) else none

def share : List (Nat × Nat) → Subs → Option (Subs × List Char)
  | [], s => some (s, [])
  | (la, lb) :: rest, s => do
      let c ← letters[s.nxt]?
      let a ← setLetter s.a la c
      let b ← setLetter s.b lb c
      let (s, cs) ← share rest ⟨a, b, s.nxt + 1⟩
      some (s, c :: cs)

/-- `for i in range(ra)`: a letter of its own for each axis without one. -/
def complete : List (Option Char) → Nat → Option (List Char × List Char × Nat)
  | [], nxt => some ([], [], nxt)
  | some c :: rest, nxt => do
      let (sub, free, nxt) ← complete rest nxt
      some (c :: sub, free, nxt)
  | none :: rest, nxt => do
      let c ← letters[nxt]?
      let (sub, free, nxt) ← complete rest (nxt + 1)
      some (c :: sub, c :: free, nxt)

def subscripts (ra rb : Nat) (ca cb ba bb : List Nat) : Option (List Char × List Char × List Char) := do
  let (s, batch) ← share (ba.zip bb) ⟨List.replicate ra none, List.replicate rb none, 0⟩
  let (s, _) ← share (ca.zip cb) s
  let (subA, freeA, nxt) ← complete s.a s.nxt
  let (subB, freeB, _) ← complete s.b nxt
  some (subA, subB, batch ++ freeA ++ freeB)

def formula (subA subB out : List Char) : List Char := (subA ++ ',' :: subB) ++ '-' :: '>' :: out

def parse (formula : List Char) : Option (List Char × List Char × List Char) := do
  let (lhs, rhs) ← splitOnce '-' formula
  let (subA, subB) ← splitOnce ',' lhs
  match rhs with
  | '>' :: out =>
      if (subA ++ subB ++ out).all Char.isAlpha then some (subA, subB, out) else none
  | _ => none

variable {α : Type} [CommSemiring α]

def einsum (formula : List Char) (a b : NDArray α) : Option (NDArray α) := do
  let (subA, subB, out) ← parse formula
  einstein subA subB out a b

def einsumDot (a b : NDArray α) (ca cb ba bb : List Nat) : Option (NDArray α) := do
  let (subA, subB, out) ← subscripts a.shape.length b.shape.length ca cb ba bb
  einsum (formula subA subB out) a b

/-- Each list without duplicates, the lists of one side apart, and the axes of a pair of one size. -/
structure Paired (shape shape' ca cb ba bb : List Nat) : Prop where
  distinct : (ba ++ ca).Nodup
  distinct' : (bb ++ cb).Nodup
  low : ∀ x ∈ ba ++ ca, x < shape.length
  low' : ∀ x ∈ bb ++ cb, x < shape'.length
  batches : ba.length = bb.length
  contracted : ca.length = cb.length
  batchSizes : arrange ba shape = arrange bb shape'
  contractedSizes : arrange ca shape = arrange cb shape'

/-- The index with the entries `β` at the batch axes, `κ` at the contracted axes and `φ` at the
    others. -/
def position (batch contract : List Nat) (rank : Nat) (β κ φ : List Nat) : List Nat :=
  restore (batch ++ contract ++ nonAxes (batch ++ contract) rank) rank (β ++ κ ++ φ)

/-- The sum of the products over the contracted axes. -/
def products (a b : NDArray α) (ca cb ba bb β φ ψ : List Nat) : α :=
  ((indices (arrange ca a.shape)).map fun κ => a.entry (position ba ca a.shape.length β κ φ) *
    b.entry (position bb cb b.shape.length β κ ψ)).sum

/-- Its axes are the batch axes, then the other axes of `a` and of `b`. -/
def contraction (a b : NDArray α) (ca cb ba bb : List Nat) : NDArray α :=
  let free := nonAxes (ba ++ ca) a.shape.length
  let free' := nonAxes (bb ++ cb) b.shape.length
  tabulate (arrange ba a.shape ++ arrange free a.shape ++ arrange free' b.shape) fun idx =>
    products a b ca cb ba bb (idx.take ba.length) ((idx.drop ba.length).take free.length)
      (idx.drop (ba.length + free.length))

/-! Letters and their numbers. -/

def label (n : Nat) : Char := letters.getD n ' '

theorem letters_get {n : Nat} (low : n < 52) : letters[n]? = some (label n) := by
  have there : n < letters.length := low
  rw [label, List.getD_eq_getElem?_getD, List.getElem?_eq_getElem there, Option.getD_some]

theorem letters_nodup : letters.Nodup := by decide +kernel

theorem label_inj {n m : Nat} (low : n < 52) (low' : m < 52) (same : label n = label m) : n = m := by
  have here := letters_get low
  rw [same, ← letters_get low'] at here
  exact (List.getElem?_inj (show n < letters.length from low) letters_nodup).mp here

theorem label_alpha {n : Nat} (low : n < 52) : (label n).isAlpha ∧ label n ≠ ',' ∧ label n ≠ '-' := by
  have all : letters.all (fun c => c.isAlpha && c != ',' && c != '-') = true := rfl
  have here := List.all_eq_true.mp all _ (List.mem_of_getElem? (letters_get low))
  simpa [and_assoc] using here

def marks (axes l : List Nat) : List (Option Char) :=
  l.map fun i => if i ∈ axes then some (label (axes.idxOf i)) else none

def run (lo count : Nat) : List Char := (List.range' lo count).map label

theorem marks_set {axes : List Nat} {rank la : Nat} (fresh : la ∉ axes) (low : la < rank) :
    setLetter (marks axes (List.range rank)) la (label axes.length) =
      some (marks (axes ++ [la]) (List.range rank)) := by
  have inside : la < (marks axes (List.range rank)).length := by simpa [marks] using low
  rw [setLetter, if_pos inside]
  refine congrArg some (List.ext_getElem? fun i => ?_)
  rcases Nat.lt_or_ge i rank with small | beyond
  · by_cases here : la = i
    · subst here
      rw [List.getElem?_set_self inside]
      simp [marks, small, List.idxOf_append_of_notMem fresh]
    · rw [List.getElem?_set_ne here]
      by_cases mem : i ∈ axes
      · simp [marks, small, mem, List.idxOf_append_of_mem mem]
      · simp [marks, small, mem, Ne.symm here]
  · rw [List.getElem?_eq_none (by simpa [marks] using beyond),
      List.getElem?_eq_none (by simpa [marks] using beyond)]

theorem share_ok {ra rb : Nat} {pairs : List (Nat × Nat)} {as bs : List Nat}
    (even : as.length = bs.length)
    (distinct : (as ++ pairs.map Prod.fst).Nodup) (distinct' : (bs ++ pairs.map Prod.snd).Nodup)
    (low : ∀ p ∈ pairs, p.1 < ra ∧ p.2 < rb) (few : as.length + pairs.length ≤ 52) :
    share pairs ⟨marks as (List.range ra), marks bs (List.range rb), as.length⟩ =
      some (⟨marks (as ++ pairs.map Prod.fst) (List.range ra), marks (bs ++ pairs.map Prod.snd)
      (List.range rb),
        as.length + pairs.length⟩, run as.length pairs.length) := by
  induction pairs generalizing as bs with
  | nil => simp [share, run]
  | cons p rest ih =>
    obtain ⟨la, lb⟩ := p
    have here := low (la, lb) (List.mem_cons_self ..)
    rw [List.map_cons, ← List.singleton_append, ← List.append_assoc] at distinct distinct'
    rw [List.length_cons] at few
    have fresh : la ∉ as := fun mem =>
      (List.nodup_append.mp (List.nodup_append.mp distinct).1).2.2 la mem la
        (List.mem_singleton_self _) rfl
    have fresh' : lb ∉ bs := fun mem =>
      (List.nodup_append.mp (List.nodup_append.mp distinct').1).2.2 lb mem lb
        (List.mem_singleton_self _) rfl
    have later := @ih (as ++ [la]) (bs ++ [lb]) (by simpa using even) distinct distinct'
      (fun q mem => low q (List.mem_cons_of_mem _ mem)) (by simpa using by omega)
    rw [List.length_append, List.length_singleton] at later
    have second := marks_set fresh' here.2
    rw [← even] at second
    simp only [share, letters_get (by omega : as.length < 52), marks_set fresh here.1, second, later,
      Option.bind_eq_bind, Option.bind_some, List.map_cons, List.length_cons, List.append_assoc,
      List.singleton_append, run, List.range'_succ, Nat.add_assoc, Nat.add_comm 1]

theorem complete_ok {axes l : List Nat} {nxt : Nat} (distinct : l.Nodup)
    (few : nxt + (l.filter (· ∉ axes)).length ≤ 52) : complete (marks axes l) nxt =
      some (l.map fun i => label
      (if i ∈ axes then axes.idxOf i else nxt + (l.filter (· ∉ axes)).idxOf i),
        run nxt (l.filter (· ∉ axes)).length, nxt + (l.filter (· ∉ axes)).length) := by
  induction l generalizing nxt with
  | nil => simp [marks, complete, run]
  | cons i l ih =>
    obtain ⟨fresh, rest⟩ := List.nodup_cons.mp distinct
    by_cases mem : i ∈ axes
    · have same : (i :: l).filter (· ∉ axes) = l.filter (· ∉ axes) := by simp [mem]
      rw [same] at few ⊢
      have later := ih rest few
      simp only [marks, List.map_cons, mem, if_true, complete] at later ⊢
      rw [later]
      rfl
    · have one : (i :: l).filter (· ∉ axes) = i :: l.filter (· ∉ axes) := by simp [mem]
      rw [one] at few ⊢
      rw [List.length_cons] at few ⊢
      have later := @ih (nxt + 1) rest (by omega)
      have shift : l.map (fun j => label (if j ∈ axes then axes.idxOf j else
          nxt + 1 + (l.filter (· ∉ axes)).idxOf j)) =
            l.map (fun j => label (if j ∈ axes then axes.idxOf j else
          nxt + (i :: l.filter (· ∉ axes)).idxOf j)) := by
        refine List.map_congr_left fun j there => ?_
        have apart : i ≠ j := fun same => fresh (same ▸ there)
        rw [List.idxOf_cons_ne _ apart]
        congr 2
        omega
      simp only [marks, List.map_cons, mem, if_false, complete,
        letters_get (by omega : nxt < 52)] at later ⊢
      rw [later, shift]
      simp [run, List.range'_succ, Nat.add_assoc, Nat.add_comm 1]

/-- The number of the letter of an axis, where the letters for the other axes start `skip` later. -/
def number (axes : List Nat) (rank skip i : Nat) : Nat :=
  if i ∈ axes then axes.idxOf i else axes.length + skip + (nonAxes axes rank).idxOf i

section number
variable {axes : List Nat} {rank skip : Nat}

theorem nonAxes_mem {i : Nat} : i ∈ nonAxes axes rank ↔ i < rank ∧ i ∉ axes := by
  simp [nonAxes]

theorem nonAxes_nodup (axes : List Nat) (rank : Nat) : (nonAxes axes rank).Nodup :=
  List.nodup_range.filter _

theorem nonAxes_count (axes idx : List Nat) :
    (arrange (nonAxes axes idx.length) idx).length = (nonAxes axes idx.length).length :=
  arrange_count fun _ mem => (nonAxes_mem.mp mem).1

theorem number_axes {i : Nat} (mem : i ∈ axes) : number axes rank skip i = axes.idxOf i := if_pos mem

theorem number_others {i : Nat} (other : i ∉ axes) :
    number axes rank skip i = axes.length + skip + (nonAxes axes rank).idxOf i := if_neg other

theorem number_bound {i : Nat} (low : i < rank) :
    number axes rank skip i < axes.length + skip + (nonAxes axes rank).length := by
  by_cases mem : i ∈ axes
  · have := List.idxOf_lt_length_iff.mpr mem
    rw [number_axes mem]
    omega
  · have := List.idxOf_lt_length_iff.mpr (nonAxes_mem.mpr ⟨low, mem⟩)
    rw [number_others mem]
    omega

theorem number_inj {i i' : Nat} (low : i < rank)
    (same : number axes rank skip i = number axes rank skip i') : i = i' := by
  by_cases mem : i ∈ axes <;> by_cases mem' : i' ∈ axes
  · rw [number_axes mem, number_axes mem'] at same
    exact (List.idxOf_inj mem).mp same
  · have := List.idxOf_lt_length_iff.mpr mem
    rw [number_axes mem, number_others mem'] at same
    omega
  · have := List.idxOf_lt_length_iff.mpr mem'
    rw [number_others mem, number_axes mem'] at same
    omega
  · rw [number_others mem, number_others mem'] at same
    exact (List.idxOf_inj (nonAxes_mem.mpr ⟨low, mem⟩)).mp (by omega)

theorem number_iff (distinct : axes.Nodup) (inside : ∀ x ∈ axes, x < rank) {n : Nat} :
    (∃ i, i < rank ∧ number axes rank skip i = n) ↔ n < axes.length ∨
      axes.length + skip ≤ n ∧ n < axes.length + skip + (nonAxes axes rank).length := by
  constructor
  · rintro ⟨i, low, rfl⟩
    have bound := @number_bound axes rank skip i low
    by_cases mem : i ∈ axes
    · rw [number_axes mem]
      exact .inl (List.idxOf_lt_length_iff.mpr mem)
    · rw [number_others mem] at bound ⊢
      exact .inr ⟨by omega, bound⟩
  · rintro (low | ⟨first, last⟩)
    · have mem := List.getElem_mem low
      exact ⟨axes[n], inside _ mem, (number_axes mem).trans (distinct.idxOf_getElem n low)⟩
    · obtain ⟨k, rfl⟩ := Nat.exists_eq_add_of_le first
      have low : k < (nonAxes axes rank).length := by omega
      have mem := nonAxes_mem.mp (List.getElem_mem low)
      refine ⟨(nonAxes axes rank)[k], mem.1, (number_others mem.2).trans ?_⟩
      rw [(nonAxes_nodup axes rank).idxOf_getElem k low]

theorem append_get {β : Type} {l l' : List β} {n : Nat} {v : β} : (l ++ l')[n]? = some v ↔
    l[n]? = some v ∨ ∃ k, n = l.length + k ∧ l'[k]? = some v := by
  rw [List.getElem?_append]
  split
  · rename_i low
    constructor
    · exact .inl
    · rintro (here | ⟨k, rfl, -⟩)
      · exact here
      · omega
  · rename_i beyond
    constructor
    · intro here
      exact .inr ⟨n - l.length, by omega, here⟩
    · rintro (here | ⟨k, rfl, there⟩)
      · exact absurd (List.getElem?_eq_some_iff.mp here).1 beyond
      · rwa [Nat.add_sub_cancel_left]

theorem labels_values {e : Char → Nat} {front gap own rest : List Nat}
    (len : front.length = axes.length) (skipped : gap.length = skip)
    (len' : own.length = (nonAxes axes rank).length)
    (value : ∀ n v, (front ++ gap ++ own ++ rest)[n]? = some v → e (label n) = v) :
    ((List.range rank).map fun i => label (number axes rank skip i)).map e =
      restore (axes ++ nonAxes axes rank) rank (front ++ own) := by
  rw [List.map_map, restore, ← List.filterMap_eq_map]
  refine List.filterMap_congr fun i mem => ?_
  have low := List.mem_range.mp mem
  by_cases mem : i ∈ axes
  · have small := List.idxOf_lt_length_iff.mpr mem
    rw [← len] at small
    have read : front[axes.idxOf i]? = some front[axes.idxOf i] := List.getElem?_eq_getElem small
    have given := value (axes.idxOf i) _
      (append_get.mpr (.inl (append_get.mpr (.inl (append_get.mpr (.inl read))))))
    rw [List.idxOf_append_of_mem mem, append_get.mpr (.inl read), Function.comp_apply,
      Function.comp_apply, number_axes mem, given]
  · have small := List.idxOf_lt_length_iff.mpr (nonAxes_mem.mpr ⟨low, mem⟩)
    rw [← len'] at small
    have read : own[(nonAxes axes rank).idxOf i]? = some own[(nonAxes axes rank).idxOf i] :=
      List.getElem?_eq_getElem small
    have given := value (axes.length + skip + (nonAxes axes rank).idxOf i) _ (append_get.mpr (.inl
      (append_get.mpr (.inr ⟨(nonAxes axes rank).idxOf i, by simp [len, skipped], read⟩))))
    rw [List.idxOf_append_of_notMem mem, append_get.mpr (.inr ⟨_, by rw [len], read⟩),
      Function.comp_apply, Function.comp_apply, number_others mem, given]

end number

def lettersOf (axes : List Nat) (rank skip : Nat) : List Char :=
  (List.range rank).map fun i => label (number axes rank skip i)

def outLetters (batches contracted free free' : Nat) : List Char :=
  run 0 batches ++ run (batches + contracted) free ++ run (batches + contracted + free) free'

theorem run_letters {lo count : Nat} {c : Char} :
    c ∈ run lo count ↔ ∃ n, lo ≤ n ∧ n < lo + count ∧ label n = c := by
  simp [run, List.mem_range'_1, and_assoc]

theorem run_get {lo count k : Nat} (low : k < count) : (run lo count)[k]? = some (label (lo + k)) := by
  simp [run, low]

section dot
variable {shape shape' ca cb ba bb : List Nat}

def letterCount (shape shape' ca cb ba bb : List Nat) : Nat := (ba ++ ca).length +
  (nonAxes (ba ++ ca) shape.length).length + (nonAxes (bb ++ cb) shape'.length).length

theorem Paired.even (p : Paired shape shape' ca cb ba bb) : (ba ++ ca).length = (bb ++ cb).length := by
  rw [List.length_append, List.length_append, p.batches, p.contracted]

theorem Paired.rank (p : Paired shape shape' ca cb ba bb) :
    (ba ++ ca).length + (nonAxes (ba ++ ca) shape.length).length = shape.length := by
  rw [← List.length_append]
  exact axes_length (axes_perm p.distinct p.low)

theorem Paired.rank' (p : Paired shape shape' ca cb ba bb) :
    (bb ++ cb).length + (nonAxes (bb ++ cb) shape'.length).length = shape'.length := by
  rw [← List.length_append]
  exact axes_length (axes_perm p.distinct' p.low')

theorem blank_marks (rank : Nat) : List.replicate rank none = marks [] (List.range rank) := by
  simp [marks]

theorem batch_share (p : Paired shape shape' ca cb ba bb) (few : ba.length ≤ 52) :
    share (ba.zip bb)
      ⟨List.replicate shape.length none, List.replicate shape'.length none, 0⟩ =
      some (⟨marks ba (List.range shape.length), marks bb (List.range shape'.length), ba.length⟩,
        run 0 ba.length) := by
  have firsts : (ba.zip bb).map Prod.fst = ba := List.map_fst_zip (Nat.le_of_eq p.batches)
  have seconds : (ba.zip bb).map Prod.snd = bb := List.map_snd_zip (Nat.le_of_eq p.batches.symm)
  have batch := @share_ok shape.length shape'.length (ba.zip bb) [] [] rfl
    (by rw [firsts]; exact (List.nodup_append.mp p.distinct).1)
    (by rw [seconds]; exact (List.nodup_append.mp p.distinct').1)
    (fun q mem => ⟨p.low _ (List.mem_append_left _ (List.of_mem_zip mem).1),
      p.low' _ (List.mem_append_left _ (List.of_mem_zip mem).2)⟩)
    (by rw [List.length_nil, List.length_zip, ← p.batches]; omega)
  rw [firsts, seconds, List.nil_append, List.nil_append, List.length_nil, List.length_zip, ← p.batches,
    Nat.min_self, Nat.zero_add] at batch
  rw [blank_marks, blank_marks]
  exact batch

theorem contract_share (p : Paired shape shape' ca cb ba bb) (few : ba.length + ca.length ≤ 52) :
    share (ca.zip cb)
      ⟨marks ba (List.range shape.length), marks bb (List.range shape'.length), ba.length⟩ =
      some (⟨marks (ba ++ ca) (List.range shape.length), marks (bb ++ cb) (List.range shape'.length),
        ba.length + ca.length⟩, run ba.length ca.length) := by
  have firsts : (ca.zip cb).map Prod.fst = ca := List.map_fst_zip (Nat.le_of_eq p.contracted)
  have seconds : (ca.zip cb).map Prod.snd = cb := List.map_snd_zip (Nat.le_of_eq p.contracted.symm)
  have contract := @share_ok shape.length shape'.length (ca.zip cb) ba bb p.batches
    (by rw [firsts]; exact p.distinct) (by rw [seconds]; exact p.distinct')
    (fun q mem => ⟨p.low _ (List.mem_append_right _ (List.of_mem_zip mem).1),
      p.low' _ (List.mem_append_right _ (List.of_mem_zip mem).2)⟩)
    (by rw [List.length_zip, ← p.contracted]; omega)
  rw [firsts, seconds, List.length_zip, ← p.contracted, Nat.min_self] at contract
  exact contract

theorem subscripts_ok (p : Paired shape shape' ca cb ba bb)
    (few : letterCount shape shape' ca cb ba bb ≤ 52) :
    subscripts shape.length shape'.length ca cb ba bb = some (lettersOf (ba ++ ca) shape.length 0,
      lettersOf (bb ++ cb) shape'.length (nonAxes (ba ++ ca) shape.length).length,
      outLetters ba.length ca.length (nonAxes (ba ++ ca) shape.length).length
        (nonAxes (bb ++ cb) shape'.length).length) := by
  have even := p.even
  unfold letterCount at few
  rw [List.length_append] at few even
  have batch := batch_share p (by omega)
  have contract := contract_share p (by omega)
  have left := @complete_ok (ba ++ ca) (List.range shape.length)
    (ba.length + ca.length) List.nodup_range
    (by unfold nonAxes at few; omega)
  have right := @complete_ok (bb ++ cb) (List.range shape'.length)
    (ba.length + ca.length + (nonAxes (ba ++ ca) shape.length).length) List.nodup_range
    (by unfold nonAxes at few ⊢; omega)
  rw [subscripts]
  simp only [batch, contract, left, Option.bind_eq_bind, Option.bind_some]
  unfold nonAxes at right
  simp only [right, Option.bind_some]
  simp [lettersOf, outLetters, number, nonAxes, p.batches, p.contracted]

theorem letters_low {n : Nat} {c : Char} (there : letters[n]? = some c) : n < 52 :=
  (List.getElem?_eq_some_iff.mp there).1

theorem share_few {pairs : List (Nat × Nat)} {s : Subs} {x : Subs × List Char}
    (made : share pairs s = some x) (here : s.nxt ≤ 52) : s.nxt + pairs.length ≤ 52 := by
  induction pairs generalizing s x with
  | nil => exact here
  | cons q rest ih =>
    simp only [share, Option.bind_eq_bind, Option.bind_eq_some_iff] at made
    obtain ⟨c, there, a, _, b, _, y, more, _⟩ := made
    have low := letters_low there
    have := ih more low
    rw [List.length_cons]
    dsimp only at this
    omega

theorem complete_few {axes l : List Nat} {nxt : Nat} {x : List Char × List Char × Nat}
    (made : complete (marks axes l) nxt = some x) (here : nxt ≤ 52) :
    nxt + (l.filter (· ∉ axes)).length ≤ 52 := by
  induction l generalizing nxt x with
  | nil => exact here
  | cons i l ih =>
    by_cases mem : i ∈ axes
    · simp only [marks, List.map_cons, mem, if_true, complete, Option.bind_eq_bind,
        Option.bind_eq_some_iff] at made
      obtain ⟨y, more, _⟩ := made
      have := ih more here
      simpa [mem] using this
    · simp only [marks, List.map_cons, mem, if_false, complete, Option.bind_eq_bind,
        Option.bind_eq_some_iff] at made
      obtain ⟨c, there, y, more, _⟩ := made
      have := ih more (letters_low there)
      rw [List.filter_cons_of_pos (by simpa using mem), List.length_cons]
      omega

theorem subscripts_few (p : Paired shape shape' ca cb ba bb)
    {x : List Char × List Char × List Char}
    (made : subscripts shape.length shape'.length ca cb ba bb = some x) :
    letterCount shape shape' ca cb ba bb ≤ 52 := by
  simp only [subscripts, Option.bind_eq_bind, Option.bind_eq_some_iff] at made
  obtain ⟨⟨s, batch⟩, first, ⟨s', cs⟩, second, ⟨subA, free, nxt⟩, third, _, fourth, _⟩ := made
  have few := share_few first (Nat.zero_le 52)
  rw [List.length_zip, ← p.batches, Nat.min_self, Nat.zero_add] at few
  rw [batch_share p few] at first
  cases first
  have few' := share_few second few
  rw [List.length_zip, ← p.contracted, Nat.min_self] at few'
  rw [contract_share p few'] at second
  cases second
  have few'' := complete_few third few'
  rw [complete_ok List.nodup_range few''] at third
  cases third
  have all := complete_few fourth few''
  rw [letterCount, List.length_append]
  exact all

theorem parse_formula {subA subB out : List Char}
    (letters : ∀ c ∈ subA ++ subB ++ out, ∃ n, n < 52 ∧ label n = c) :
    parse (formula subA subB out) = some (subA, subB, out) := by
  have good (c : Char) (mem : c ∈ subA ++ subB ++ out) : c.isAlpha ∧ c ≠ ',' ∧ c ≠ '-' := by
    obtain ⟨n, low, rfl⟩ := letters c mem
    exact label_alpha low
  have comma : ',' ∉ subA := fun mem => (good ',' (by simp [mem])).2.1 rfl
  have dash : '-' ∉ subA ++ ',' :: subB := by
    intro mem
    rcases List.mem_append.mp mem with here | here
    · exact (good '-' (by simp [here])).2.2 rfl
    · rcases List.mem_cons.mp here with same | here
      · cases same
      · exact (good '-' (by simp [here])).2.2 rfl
  have alpha : (subA ++ subB ++ out).all Char.isAlpha :=
    List.all_eq_true.mpr fun c mem => (good c mem).1
  simp only [parse, formula, splitOnce_append dash, splitOnce_append comma, Option.bind_eq_bind,
    Option.bind_some, alpha, if_true]

theorem letters_iff (p : Paired shape shape' ca cb ba bb) {c : Char} :
    c ∈ lettersOf (ba ++ ca) shape.length 0 ++
        lettersOf (bb ++ cb) shape'.length (nonAxes (ba ++ ca) shape.length).length ↔
      ∃ n, n < letterCount shape shape' ca cb ba bb ∧ label n = c := by
  have even := p.even
  have left (n : Nat) := @number_iff (ba ++ ca) shape.length 0 p.distinct p.low n
  have right (n : Nat) := @number_iff (bb ++ cb) shape'.length (nonAxes (ba ++ ca) shape.length).length
    p.distinct' p.low' n
  simp only [List.mem_append (a := c), lettersOf, List.mem_map, List.mem_range, letterCount]
  constructor
  · rintro (⟨i, low, rfl⟩ | ⟨i, low, rfl⟩)
    · have used := (left _).mp ⟨i, low, rfl⟩
      exact ⟨_, by omega, rfl⟩
    · have used := (right _).mp ⟨i, low, rfl⟩
      exact ⟨_, by omega, rfl⟩
  · rintro ⟨n, low, rfl⟩
    rcases Nat.lt_or_ge n
      ((ba ++ ca).length + (nonAxes (ba ++ ca) shape.length).length) with small | large
    · obtain ⟨i, inside, same⟩ := (left n).mpr (by omega)
      exact .inl ⟨i, inside, by rw [same]⟩
    · obtain ⟨i, inside, same⟩ := (right n).mpr (by omega)
      exact .inr ⟨i, inside, by rw [same]⟩

theorem out_iff {batches contracted free free' : Nat} {c : Char} :
    c ∈ outLetters batches contracted free free' ++ run batches contracted ↔
      ∃ n, n < batches + contracted + free + free' ∧ label n = c := by
  simp only [outLetters, List.mem_append, run_letters]
  constructor
  · rintro (((⟨n, _, low, same⟩ | ⟨n, _, low, same⟩) | ⟨n, _, low, same⟩) | ⟨n, _, low, same⟩) <;>
      exact ⟨n, by omega, same⟩
  · rintro ⟨n, low, same⟩
    rcases Nat.lt_or_ge n batches with one | one
    · exact .inl (.inl (.inl ⟨n, by omega, by omega, same⟩))
    rcases Nat.lt_or_ge n (batches + contracted) with two | two
    · exact .inr ⟨n, by omega, by omega, same⟩
    rcases Nat.lt_or_ge n (batches + contracted + free) with three | three
    · exact .inl (.inl (.inr ⟨n, by omega, by omega, same⟩))
    · exact .inl (.inr ⟨n, by omega, by omega, same⟩)

theorem labels_nodup {ns : List Nat} (nodup : ns.Nodup) (low : ∀ n ∈ ns, n < 52) :
    (ns.map label).Nodup :=
  nodup.map_on fun n mem m mem' same => label_inj (low n mem) (low m mem') same

theorem out_nodup {batches contracted free free' : Nat}
    (few : batches + contracted + free + free' ≤ 52) :
    (outLetters batches contracted free free' ++ run batches contracted).Nodup := by
  have apart : (List.range' 0 batches ++ List.range' (batches + contracted) free ++
      List.range' (batches + contracted + free) free' ++ List.range' batches contracted).Nodup := by
    have fresh (lo count : Nat) : (List.range' lo count).Nodup := List.nodup_range'
    refine List.nodup_append.mpr
      ⟨List.nodup_append.mpr ⟨List.nodup_append.mpr ⟨fresh _ _, fresh _ _, ?_⟩,
      fresh _ _, ?_⟩, fresh _ _, ?_⟩ <;> intro n mem m mem' <;>
      simp only [List.mem_append, List.mem_range'_1] at mem mem' <;> omega
  have named := labels_nodup apart (by
    simp only [List.mem_append, List.mem_range'_1]
    omega)
  simp only [List.map_append] at named
  exact named

theorem lettersOf_nodup {axes : List Nat} {rank skip : Nat}
    (few : axes.length + skip + (nonAxes axes rank).length ≤ 52) :
      (lettersOf axes rank skip).Nodup := by
  refine List.Nodup.map_on (fun i mem i' mem' same => ?_) List.nodup_range
  have low := List.mem_range.mp mem
  have bound := @number_bound axes rank skip i low
  have bound' := @number_bound axes rank skip i' (List.mem_range.mp mem')
  exact number_inj low (label_inj (by omega) (by omega) same)

theorem assign_numbers {β φ ψ κ : List Nat}
    (few : β.length + κ.length + φ.length + ψ.length ≤ 52) {n v : Nat}
    (there : (β ++ κ ++ φ ++ ψ)[n]? = some v) :
      assign (outLetters β.length κ.length φ.length ψ.length ++
      run β.length κ.length) (β ++ φ ++ ψ ++ κ) (fun _ => 0) (label n) = v := by
  have low {l : List Nat} {k : Nat} (read : l[k]? = some v) : k < l.length :=
    (List.getElem?_eq_some_iff.mp read).1
  have count (lo c : Nat) : (run lo c).length = c := by simp [run]
  rcases append_get.mp there with there | ⟨k, rfl, here⟩
  · rcases append_get.mp there with there | ⟨k, rfl, here⟩
    · rcases append_get.mp there with here | ⟨k, rfl, here⟩
      · refine assign_get (out_nodup few)
          (append_get.mpr (.inl (append_get.mpr (.inl (append_get.mpr (.inl ?_))))))
          (append_get.mpr (.inl (append_get.mpr (.inl (append_get.mpr (.inl here))))))
        rw [run_get (low here), Nat.zero_add]
      · refine assign_get (out_nodup few) (append_get.mpr (.inr ⟨k, rfl, run_get (low here)⟩)) ?_
        refine append_get.mpr (.inr ⟨k, ?_, here⟩)
        simp [outLetters, count]
    · refine assign_get (out_nodup few) (append_get.mpr (.inl (append_get.mpr (.inl
        (append_get.mpr (.inr ⟨k, rfl, ?_⟩)))))) (append_get.mpr (.inl (append_get.mpr (.inl
          (append_get.mpr (.inr ⟨k, by rw [count], here⟩))))))
      rw [run_get (low here), List.length_append]
  · refine assign_get (out_nodup few) (append_get.mpr (.inl (append_get.mpr (.inr ⟨k, rfl, ?_⟩))))
      (append_get.mpr (.inl (append_get.mpr (.inr ⟨k, by simp [count], here⟩))))
    rw [run_get (low here), List.length_append, List.length_append]

theorem run_map {e : Char → Nat} {lo : Nat} {seg : List Nat}
    (value : ∀ k v, seg[k]? = some v → e (label (lo + k)) = v) : (run lo seg.length).map e = seg := by
  refine List.ext_getElem? fun k => ?_
  rw [List.getElem?_map]
  rcases Nat.lt_or_ge k seg.length with low | beyond
  · have read : seg[k]? = some seg[k] := List.getElem?_eq_getElem low
    rw [run_get low, read, Option.map_some, value k _ read]
  · rw [List.getElem?_eq_none beyond, List.getElem?_eq_none (by simpa [run] using beyond)]
    rfl

def sizeOf (sizes : List Nat) (c : Char) : Nat := sizes.getD (letters.idxOf c) 0

theorem sizeOf_label {sizes : List Nat} (few : sizes.length ≤ 52) {n v : Nat}
    (there : sizes[n]? = some v) :
    sizeOf sizes (label n) = v := by
  have low : n < letters.length := Nat.lt_of_lt_of_le (List.getElem?_eq_some_iff.mp there).1 few
  have here : label n = letters[n] := by
    rw [label, List.getD_eq_getElem?_getD, List.getElem?_eq_getElem low, Option.getD_some]
  rw [sizeOf, here, letters_nodup.idxOf_getElem n low, List.getD_eq_getElem?_getD, there,
    Option.getD_some]

theorem operands (p : Paired shape shape' ca cb ba bb) {e : Char → Nat} {β κ φ ψ : List Nat}
    (lenβ : β.length = ba.length) (lenκ : κ.length = ca.length)
    (lenφ : φ.length = (nonAxes (ba ++ ca) shape.length).length)
    (lenψ : ψ.length = (nonAxes (bb ++ cb) shape'.length).length)
    (value : ∀ n v, (β ++ κ ++ φ ++ ψ)[n]? = some v → e (label n) = v) :
    (lettersOf (ba ++ ca) shape.length 0).map e = position ba ca shape.length β κ φ ∧
      (lettersOf (bb ++ cb) shape'.length (nonAxes (ba ++ ca) shape.length).length).map e =
        position bb cb shape'.length β κ ψ := by
  have front : (β ++ κ).length = (ba ++ ca).length := by simp [lenβ, lenκ]
  constructor
  · refine @labels_values _ _ _ e (β ++ κ) [] φ ψ front rfl lenφ fun n v there => value n v ?_
    rwa [List.append_nil] at there
  · refine @labels_values _ _ _ e (β ++ κ) φ ψ [] (front.trans p.even) lenφ lenψ fun n v there =>
      value n v ?_
    rwa [List.append_nil] at there

theorem letter_sizes (p : Paired shape shape' ca cb ba bb)
    (few : letterCount shape shape' ca cb ba bb ≤ 52) :
    ∃ σ : Char → Nat, shape = (lettersOf (ba ++ ca) shape.length 0).map σ ∧
      shape' = (lettersOf (bb ++ cb) shape'.length (nonAxes (ba ++ ca) shape.length).length).map σ ∧
      (run 0 ba.length).map σ = arrange ba shape ∧ (run ba.length ca.length).map σ = arrange ca shape ∧
      (run (ba.length + ca.length) (nonAxes (ba ++ ca) shape.length).length).map σ =
        arrange (nonAxes (ba ++ ca) shape.length) shape ∧
      (run (ba.length + ca.length + (nonAxes (ba ++ ca) shape.length).length)
        (nonAxes (bb ++ cb) shape'.length).length).map σ =
          arrange (nonAxes (bb ++ cb) shape'.length) shape' := by
  have countB : (arrange ba shape).length = ba.length :=
    arrange_count fun x mem => p.low x (List.mem_append_left _ mem)
  have countC : (arrange ca shape).length = ca.length :=
    arrange_count fun x mem => p.low x (List.mem_append_right _ mem)
  have countF := nonAxes_count (ba ++ ca) shape
  have countG := nonAxes_count (bb ++ cb) shape'
  -- in the order of the numbers
  obtain ⟨sizes, all⟩ : ∃ sizes, arrange ba shape ++ arrange ca shape ++
    arrange (nonAxes (ba ++ ca) shape.length) shape ++ arrange
      (nonAxes (bb ++ cb) shape'.length) shape' =
      sizes := ⟨_, rfl⟩
  have total : sizes.length ≤ 52 := by
    simp only [← all, List.length_append, countB, countC, countF, countG]
    simpa only [letterCount, List.length_append] using few
  have size (n v : Nat) (there : sizes[n]? = some v) : sizeOf sizes (label n) = v :=
    sizeOf_label total there
  have dims := operands p countB countC countF countG (by rw [all]; exact size)
  refine ⟨sizeOf sizes, ?_, ?_, ?_, ?_, ?_, ?_⟩
  · rw [dims.1, position, ← arrange_append, ← arrange_append,
      restore_arrange (axes_perm p.distinct p.low) rfl]
  · rw [dims.2, position, p.batchSizes, p.contractedSizes, ← arrange_append, ← arrange_append,
      restore_arrange (axes_perm p.distinct' p.low') rfl]
  · rw [← countB]
    exact run_map fun k v there => size _ v (by simp [← all, append_get, there])
  · rw [← countB, ← countC]
    exact run_map fun k v there => size _ v (by simp [← all, append_get, there])
  · rw [← countB, ← countC, ← countF]
    exact run_map fun k v there => size _ v (by simp [← all, append_get, there, Nat.add_assoc])
  · rw [← countB, ← countC, ← countF, ← countG]
    exact run_map fun k v there => size _ v (by simp [← all, append_get, there, Nat.add_assoc])

theorem letters_split (p : Paired shape shape' ca cb ba bb) (c : Char) :
    c ∈ lettersOf (ba ++ ca) shape.length 0 ++ lettersOf (bb ++ cb) shape'.length
        (nonAxes (ba ++ ca) shape.length).length ↔
      c ∈ outLetters ba.length ca.length (nonAxes (ba ++ ca) shape.length).length
        (nonAxes (bb ++ cb) shape'.length).length ++ run ba.length ca.length := by
  rw [letters_iff p, out_iff, letterCount, List.length_append]

theorem formula_parsed (p : Paired shape shape' ca cb ba bb)
    (few : letterCount shape shape' ca cb ba bb ≤ 52)
    {subA subB out : List Char}
    (built : subscripts shape.length shape'.length ca cb ba bb = some (subA, subB, out)) :
    parse (formula subA subB out) = some (subA, subB, out) := by
  rw [subscripts_ok p few] at built
  cases built
  refine parse_formula fun c mem => ?_
  have used := (List.mem_append.mp mem).elim id fun here =>
    (letters_split p c).mpr (List.mem_append_left _ here)
  obtain ⟨n, low, same⟩ := (letters_iff p).mp used
  exact ⟨n, Nat.lt_of_lt_of_le low few, same⟩

variable {a b : NDArray α}

theorem einsumDot_ok (p : Paired a.shape b.shape ca cb ba bb)
    (few : letterCount a.shape b.shape ca cb ba bb ≤ 52) : ∃ r, einsumDot a b ca cb ba bb = some r ∧
      r.shape = arrange ba a.shape ++ arrange (nonAxes (ba ++ ca) a.shape.length) a.shape ++
        arrange (nonAxes (bb ++ cb) b.shape.length) b.shape ∧
      ∀ β φ ψ, Inside (arrange ba a.shape) β →
      Inside (arrange (nonAxes (ba ++ ca) a.shape.length) a.shape) φ →
        Inside (arrange (nonAxes (bb ++ cb) b.shape.length) b.shape) ψ →
        r.get? (β ++ φ ++ ψ) = some (products a b ca cb ba bb β φ ψ) := by
  have within := few
  rw [letterCount, List.length_append] at within
  obtain ⟨σ, left, right, batches, contracted, free, free'⟩ := letter_sizes p few
  obtain ⟨r, made, shape, entries⟩ := einstein_ok left right (out_nodup within) (letters_split p)
  rw [outLetters, List.map_append, List.map_append, batches, free, free'] at shape entries
  refine ⟨r, ?_, shape, fun β φ ψ inside inside' inside'' => ?_⟩
  · have built := subscripts_ok p few
    simp only [einsumDot, einsum, built, formula_parsed p few built, Option.bind_eq_bind,
      Option.bind_some, made]
  · have lenβ := inside.length.trans (arrange_count fun x mem => p.low x (List.mem_append_left _ mem))
    have lenφ := inside'.length.trans (nonAxes_count _ _)
    have lenψ := inside''.length.trans (nonAxes_count _ _)
    have there := (inside_append
      (by rw [List.length_append, List.length_append, inside.length, inside'.length])).mpr
      ⟨(inside_append inside.length).mpr ⟨inside, inside'⟩, inside''⟩
    rw [entries _ there, contracted, products]
    refine congrArg (fun l => some (List.sum l)) (List.map_congr_left fun κ mem => ?_)
    have lenκ := (mem_indices.mp mem).length.trans
      (arrange_count fun x mem => p.low x (List.mem_append_right _ mem))
    have values (n v : Nat) (read : (β ++ κ ++ φ ++ ψ)[n]? = some v) :=
      assign_numbers (by rw [lenβ, lenκ, lenφ, lenψ]; exact within) read
    rw [lenβ, lenκ, lenφ, lenψ] at values
    have read := operands p lenβ lenκ lenφ lenψ values
    rw [← read.1, ← read.2]
    rfl

theorem einsumDot_eq (p : Paired a.shape b.shape ca cb ba bb)
    (few : letterCount a.shape b.shape ca cb ba bb ≤ 52) :
    einsumDot a b ca cb ba bb = some (contraction a b ca cb ba bb) := by
  obtain ⟨r, made, dims, entries⟩ := einsumDot_ok p few
  have same : (contraction a b ca cb ba bb).shape = r.shape := dims.symm
  rw [made]
  refine congrArg some (ext_get same.symm fun idx inside => ?_)
  rw [dims] at inside
  obtain ⟨front, ψ, rfl, inside', last⟩ := inside_split inside
  obtain ⟨β, φ, rfl, first, second⟩ := inside_split inside'
  have lenβ : β.length = ba.length :=
    first.length.trans (arrange_count fun x mem => p.low x (List.mem_append_left _ mem))
  have lenφ := second.length.trans (nonAxes_count (ba ++ ca) a.shape)
  have batch : (β ++ φ ++ ψ).take β.length = β := by rw [List.append_assoc, List.take_left]
  have free : ((β ++ φ ++ ψ).drop β.length).take φ.length = φ := by
    rw [List.append_assoc, List.drop_left, List.take_left]
  have free' : (β ++ φ ++ ψ).drop (β.length + φ.length) = ψ := by
    rw [← List.length_append, List.drop_left]
  rw [entries β φ ψ first second last, contraction, get?_tabulate inside, ← lenβ, ← lenφ, batch,
    free, free']

/-- Letters once each, and shared by the axes of a pair alone. -/
structure WellFormed (shape shape' ca cb ba bb : List Nat) (subA subB out : List Char) : Prop where
  parsed : parse (formula subA subB out) = some (subA, subB, out)
  rank : subA.length = shape.length
  rank' : subB.length = shape'.length
  distinct : subA.Nodup
  distinct' : subB.Nodup
  distinctOut : out.Nodup
  known : ∀ c ∈ out, c ∈ subA ++ subB
  shared : ∀ i j, i < shape.length → j < shape'.length →
    (subA[i]? = subB[j]? ↔ (i, j) ∈ ba.zip bb ++ ca.zip cb)

theorem lettersOf_get {axes : List Nat} {rank skip i : Nat} (low : i < rank) :
    (lettersOf axes rank skip)[i]? = some (label (number axes rank skip i)) := by
  simp [lettersOf, low]

theorem letters_shared (p : Paired shape shape' ca cb ba bb)
    (few : letterCount shape shape' ca cb ba bb ≤ 52)
    {i j : Nat} (low : i < shape.length) (low' : j < shape'.length) :
    ((lettersOf (ba ++ ca) shape.length 0)[i]? =
        (lettersOf (bb ++ cb) shape'.length (nonAxes (ba ++ ca) shape.length).length)[j]? ↔
      (i, j) ∈ ba.zip bb ++ ca.zip cb) := by
  have even := p.even
  have bound := @number_bound (ba ++ ca) shape.length 0 i low
  have bound' := @number_bound (bb ++ cb) shape'.length (nonAxes (ba ++ ca) shape.length).length j low'
  unfold letterCount at few
  rw [lettersOf_get low, lettersOf_get low', Option.some_inj, ← List.zip_append p.batches]
  constructor
  · intro same
    have same := label_inj (by omega) (by omega) same
    by_cases pair : j ∈ bb ++ cb
    · have here := List.idxOf_lt_length_iff.mpr pair
      rw [number_axes pair] at same
      by_cases pair' : i ∈ ba ++ ca
      · rw [number_axes pair'] at same
        refine List.mem_of_getElem? (List.getElem?_zip_eq_some.mpr ⟨List.getElem?_idxOf pair', ?_⟩)
        rw [same, List.getElem?_idxOf pair]
      · rw [number_others pair'] at same
        omega
    · rw [number_others pair] at same
      omega
  · intro pair
    obtain ⟨k, there⟩ := List.mem_iff_getElem?.mp pair
    obtain ⟨left, right⟩ := List.getElem?_zip_eq_some.mp there
    obtain ⟨here, rfl⟩ := List.getElem?_eq_some_iff.mp left
    obtain ⟨here', rfl⟩ := List.getElem?_eq_some_iff.mp right
    rw [number_axes (List.getElem_mem here), number_axes (List.getElem_mem here'),
      p.distinct.idxOf_getElem k here, p.distinct'.idxOf_getElem k here']

theorem wellFormed_ok (p : Paired shape shape' ca cb ba bb)
    (few : letterCount shape shape' ca cb ba bb ≤ 52)
    {subA subB out : List Char}
    (built : subscripts shape.length shape'.length ca cb ba bb = some (subA, subB, out)) :
    WellFormed shape shape' ca cb ba bb subA subB out := by
  have parsed := formula_parsed p few built
  have even := p.even
  have within := few
  rw [subscripts_ok p few] at built
  cases built
  unfold letterCount at within
  refine ⟨parsed, by simp [lettersOf], by simp [lettersOf], lettersOf_nodup (by omega),
    lettersOf_nodup (by omega), ?_, ?_, fun i j low low' => letters_shared p few low low'⟩
  · rw [List.length_append] at within
    exact (List.nodup_append.mp (out_nodup within)).1
  · exact fun c mem => (letters_split p c).mpr (List.mem_append_left _ mem)

theorem few_letters (p : Paired shape shape' ca cb ba bb) (rank : shape.length ≤ 16)
    (rank' : shape'.length ≤ 16) :
    letterCount shape shape' ca cb ba bb ≤ 52 := by
  have := p.rank
  have := p.rank'
  unfold letterCount
  omega

end dot

/-- The subscripts are well formed, and the axes of the result are the batch axes in the order of
    their list, then the others of `a` and of `b` in increasing order. -/
theorem dot_contracts (a b : NDArray α) (ca cb ba bb : List Nat) (rank : a.shape.length ≤ 16)
    (rank' : b.shape.length ≤ 16) (p : Paired a.shape b.shape ca cb ba bb) :
    (∃ subA subB out, subscripts a.shape.length b.shape.length ca cb ba bb = some (subA, subB, out) ∧
      WellFormed a.shape b.shape ca cb ba bb subA subB out) ∧
    ∃ r, einsumDot a b ca cb ba bb = some r ∧
      r.shape = arrange ba a.shape ++ arrange (nonAxes (ba ++ ca) a.shape.length) a.shape ++
        arrange (nonAxes (bb ++ cb) b.shape.length) b.shape ∧
      ∀ β φ ψ, Inside (arrange ba a.shape) β →
      Inside (arrange (nonAxes (ba ++ ca) a.shape.length) a.shape) φ →
        Inside (arrange (nonAxes (bb ++ cb) b.shape.length) b.shape) ψ →
        r.get? (β ++ φ ++ ψ) = some (products a b ca cb ba bb β φ ψ) := by
  have few := few_letters p rank rank'
  exact ⟨⟨_, _, _, subscripts_ok p few, wellFormed_ok p few (subscripts_ok p few)⟩, einsumDot_ok p few⟩

def grid : NDArray ℤ := ⟨[2, 3], [1, 2, 3, 4, 5, 6], rfl⟩

theorem grid_paired : Paired grid.shape grid.shape [] [] [1, 0] [1, 0] :=
  ⟨by decide, by decide, by decide, by decide, rfl, rfl, rfl, rfl⟩

theorem grid_contracts : einsumDot grid grid [1] [1] [0] [0] = some ⟨[2], [14, 77], rfl⟩ ∧
    ∃ r, einsumDot grid grid [1] [1] [0] [0] = some r ∧ r.shape = [2] := by
  obtain ⟨-, r, made, shape, -⟩ := dot_contracts grid grid [1] [1] [0] [0] (by decide) (by decide)
    ⟨by decide, by decide, by decide, by decide, rfl, rfl, rfl, rfl⟩
  exact ⟨by decide +kernel, r, made, shape⟩

/-- Batch axes that are given out of order stay out of order. -/
theorem batch_axes_unsorted : Paired grid.shape grid.shape [] [] [1, 0] [1, 0] ∧
    ¬ ∃ r, einsumDot grid grid [] [] [1, 0] [1, 0] = some r ∧ r.shape = arrange [0, 1] grid.shape := by
  refine ⟨grid_paired, ?_⟩
  rintro ⟨r, made, shape⟩
  have here : einsumDot grid grid [] [] [1, 0] [1, 0] = some ⟨[3, 2], [1, 16, 4, 25, 9, 36], rfl⟩ := by
    decide +kernel
  rw [here] at made
  cases made
  cases shape

end NxTinygrad.Contraction
