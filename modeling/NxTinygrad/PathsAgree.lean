import NxTinygrad.BothPaths

/- The eager operations and the compiled graphs of single operations agree. -/
namespace NxTinygrad.Eager
open IR Interpreter Lowering NDArray Reductions Validate

variable {α : Type} {K : Kernels α}

theorem allAxes_normalized (rank : Nat) :
    (allAxes rank).map (normalizeAxis · rank) = allAxes rank := by
  unfold allAxes
  split
  · rename_i zero
    rw [zero]
    rfl
  · rw [List.map_map]
    apply List.map_congr_left
    intro i _
    have low : ¬ (i : Int) < 0 := by omega
    simp [normalizeAxis, low]

theorem attrs_agree (rank : Nat) (shape : List Nat) (o : Op) :
    Backend.attrs rank shape o = o.attrs rank shape := by
  have optional (axes : Option (List Int)) : Backend.normalizeOptAxes axes rank =
      (axes.getD (allAxes rank)).map (normalizeAxis · rank) := by
    cases axes with
    | none => exact (allAxes_normalized rank).symm
    | some axes => rfl
  cases o with
  | gather axes => simp only [Backend.attrs, Op.attrs, optional]
  | indexed op axes => simp only [Backend.attrs, Op.attrs, optional]
  | _ => rfl

def StartArg.read (K : Kernels α) (ts : List (Buffer K)) : StartArg → Option Start
  | .integer n => some (.static n)
  | s => (startNumber K ts s).map .read

section starts
variable {ts : List (Buffer K)} {dims lengths strides shape : List Nat} {starts : List StartArg}

theorem resolve_static (S : Sem (Value α)) (dyn : List (Value α)) (ms : List Int) :
    resolveStarts S dyn [] (ms.map .static) = .ok (ms.map .static) := by
  induction ms with
  | nil => rfl
  | cons m rest ih =>
    simp only [List.map_cons, resolveStarts, resolveStart, ih, bind, Except.bind]

theorem startsOf_static (dims lengths : List Nat) (ms : List Int) :
    startsOf dims lengths (ms.map .static) = some ms := by
  induction ms generalizing dims lengths with
  | nil => simp [startsOf]
  | cons m rest ih => simp [startsOf, ih]

def clampAll (dims lengths : List Nat) (ns : List Int) : List Int :=
  List.zipWith (fun n (d : Nat × Nat) => clamp n d.1 d.2) ns (dims.zip lengths)

theorem clamped_static (dims lengths : List Nat) (ns : List Int) :
    Backend.clamped ns dims lengths = (clampAll dims lengths ns).map .static := by
  rw [clampAll, List.map_zipWith]
  rfl

theorem clamp_within {n : Int} {d l : Nat} (inside : 0 ≤ n ∧ n + l ≤ d) : clamp n d l = n := by
  unfold clamp
  omega

theorem starts_agree (ts : List (Buffer K)) (count : starts.length = dims.length)
    (count' : lengths.length = dims.length)
    (inside : InRange dims lengths starts) :
    (starts.mapM (StartArg.read K ts)).bind (startsOf dims lengths) =
      (starts.mapM (startNumber K ts)).map (clampAll dims lengths) := by
  induction starts generalizing dims lengths with
  | nil => simp [startsOf, clampAll]
  | cons s rest ih =>
    cases dims with
    | nil => simp at count
    | cons d ds =>
      cases lengths with
      | nil => simp at count'
      | cons l ls =>
        have step (c : Start) (n m : Int) (read : s.read K ts = some c)
            (number : startNumber K ts s = some n)
            (inside : InRange ds ls rest) (clamped : clamp n d l = m)
            (start : ∀ cs, startsOf (d :: ds) (l :: ls)
            (c :: cs) = (startsOf ds ls cs).map (m :: ·)) :
            ((s :: rest).mapM (StartArg.read K ts)).bind (startsOf (d :: ds) (l :: ls)) =
              ((s :: rest).mapM (startNumber K ts)).map (clampAll (d :: ds) (l :: ls)) := by
          have tail := ih (by simpa using count) (by simpa using count') inside
          have all (ns : List Int) :
              clampAll (d :: ds) (l :: ls) (n :: ns) = m :: clampAll ds ls ns := by
            rw [clampAll, List.zip_cons_cons, List.zipWith_cons_cons, clamped]
            rfl
          simp only [List.mapM_cons, read, number, Option.bind_eq_bind, Option.bind_some]
          cases reads : rest.mapM (StartArg.read K ts) <;>
            cases numbers : rest.mapM (startNumber K ts) <;>
            simp_all [pure]
        cases s with
        | integer n =>
          exact step (.static n) n n rfl rfl inside.2 (clamp_within inside.1) fun cs => by
            rw [startsOf]; rfl
        | constant dtype n =>
          exact step (.read n) n _ rfl rfl inside rfl fun cs => by rw [startsOf]
        | tensor k =>
          cases number : startNumber K ts (.tensor k) with
          | none => simp [List.mapM_cons, StartArg.read, number]
          | some n =>
            refine step (.read n) n _ ?_ number inside rfl fun cs => by rw [startsOf]
            simp [StartArg.read, number]

theorem toOption_orFault {β : Type} (x : Option β) : (orFault x).toOption = x := by cases x <;> rfl

theorem resolve_input (before : List (Value α)) (v : Value α) (dyn : List (Value α))
    (specs : List StartSpec) :
    (resolveStarts K.sem (before ++ v :: dyn) [] (.input before.length :: specs)).toOption =
      (item K.int v).bind fun n =>
        (resolveStarts K.sem (before ++ v :: dyn) [] specs).toOption.map (.read n :: ·) := by
  have found : (before ++ v :: dyn)[before.length]? = some v := by simp
  have number : K.sem.item v = item K.int v := rfl
  simp only [resolveStarts, resolveStart, found, Option.bind_some, number]
  cases item K.int v with
  | none => rfl
  | some n =>
    cases resolveStarts K.sem (before ++ v :: dyn) [] specs <;> rfl

theorem resolve_integer (S : Sem (Value α)) (dyn : List (Value α)) (n : Int)
    (specs : List StartSpec) :
    (resolveStarts S dyn [] (.static n :: specs)).toOption =
      (resolveStarts S dyn [] specs).toOption.map (.static n :: ·) := by
  simp only [resolveStarts, resolveStart, bind, Except.bind]
  cases resolveStarts S dyn [] specs <;> rfl

theorem apply_slice (v : Value α) (dyn : List (Value α)) (specs : List StartSpec)
    (lengths strides shape : List Nat)
    (dtype : Dtype) : (applyOp K.sem [] (.slice specs lengths strides)
    (v :: dyn) shape dtype).toOption =
      (resolveStarts K.sem dyn [] specs).toOption.bind fun cs =>
      applySlice K v cs lengths strides dtype := by
  simp only [applyOp, bind, Except.bind]
  cases resolveStarts K.sem dyn [] specs with
  | error e => rfl
  | ok cs => exact toOption_orFault _

theorem start_value {s : StartArg} (passed : s.Passed ts) (reach : Reachable ts s.operands)
    (operand : s.isInteger = false) (ref : Ref) : ∃ v,
      eval K.sem (.flow K.sem) 0 (fun pos => (ts.map Buffer.value)[pos]?)
      (startExpr ts ref s) = .ok v ∧
        item K.int v = startNumber K ts s := by
  cases s with
  | integer n => cases operand
  | constant dtype n =>
    obtain ⟨v, made, number⟩ := K.integer passed
    have here : K.sem.number (.int n) [] dtype = some v := made
    refine ⟨v, ?_, number⟩
    simp [startExpr, eval, encodeNumber, here, orFault]
  | tensor k =>
    obtain ⟨b, there, _⟩ := reach k (List.mem_singleton.mpr rfl)
    refine ⟨b.value, eval_operand there, ?_⟩
    simp [startNumber, there, (passed b there).1]

theorem slice_resolved (passed : ∀ s ∈ starts, s.Passed ts)
    (reach : Reachable ts (starts.flatMap StartArg.operands)) (ref : Ref) :
    ∃ dyn, evalOn ts (dynamicStarts (sliceExprs ts ref starts)) = .ok dyn ∧ ∀ before,
      (resolveStarts K.sem (before ++ dyn) []
      (sliceStarts before.length (sliceExprs ts ref starts))).toOption =
        starts.mapM (StartArg.read K ts) := by
  induction starts generalizing ref with
  | nil => exact ⟨[], evalList_nil, fun before => rfl⟩
  | cons s rest ih =>
    obtain ⟨dyn, ran, resolved⟩ := ih (fun s mem => passed s (List.mem_cons_of_mem _ mem))
      (fun k mem => reach k (by simp [mem])) (ref + 1)
    have input (operand : s.isInteger = false)
        (exprs : sliceExprs ts ref (s :: rest) =
          .inr (startExpr ts ref s) :: sliceExprs ts (ref + 1) rest)
        (read : s.read K ts = (startNumber K ts s).map .read) :
        ∃ dyn, evalOn ts (dynamicStarts (sliceExprs ts ref (s :: rest))) = .ok dyn ∧ ∀ before,
          (resolveStarts K.sem (before ++ dyn) []
            (sliceStarts before.length (sliceExprs ts ref (s :: rest)))).toOption =
              (s :: rest).mapM (StartArg.read K ts) := by
      obtain ⟨v, value, number⟩ := start_value (passed s (List.mem_cons_self ..))
        (fun k mem => reach k (by simp [mem])) operand ref
      refine ⟨v :: dyn, ?_, fun before => ?_⟩
      · rw [exprs]
        exact evalList_cons.mpr ⟨v, dyn, value, ran, rfl⟩
      · have tail := resolved (before ++ [v])
        rw [List.length_append, List.length_singleton, List.append_assoc,
          List.singleton_append] at tail
        rw [exprs, sliceStarts, resolve_input, tail, List.mapM_cons, read, number]
        cases startNumber K ts s with
        | none => rfl
        | some n => cases rest.mapM (StartArg.read K ts) <;> rfl
    cases s with
    | integer n =>
      refine ⟨dyn, ran, fun before => ?_⟩
      rw [sliceExprs, sliceStarts, resolve_integer, resolved, List.mapM_cons]
      cases rest.mapM (StartArg.read K ts) <;> rfl
    | constant dtype n => exact input rfl rfl rfl
    | tensor k => exact input rfl rfl rfl

end starts

section slice
variable {ts : List (Buffer K)} {dims lengths strides shape : List Nat} {starts : List StartArg}
  {ns : List Int}

theorem SliceOf.length_eq (sizes : SliceOf dims lengths strides shape) :
    lengths.length = dims.length ∧ strides.length = dims.length := by
  induction sizes with
  | nil => exact ⟨rfl, rfl⟩
  | cons _ _ _ ih => simp [ih]

theorem clamp_inside {d l : Nat} (n : Int) (fits : l ≤ d) :
    ∃ m : Nat, clamp n d l = m ∧ m + l ≤ d := by
  have low : 0 ≤ clamp n d l ∧ clamp n d l + l ≤ d := by
    unfold clamp
    omega
  exact ⟨(clamp n d l).toNat, by omega, by omega⟩

theorem slice_sizes (sizes : SliceOf dims lengths strides shape) (count : ns.length = dims.length) :
    (List.zipWith (fun d (s : Int × Nat × Nat) => ComplexOps.sliceWindow d s.1 s.2.1 s.2.2) dims
      ((clampAll dims lengths ns).zip (lengths.zip strides))).map Window.size = shape := by
  induction sizes generalizing ns with
  | nil => rfl
  | @cons d l s ds ls ss os fits _ _ ih =>
    cases ns with
    | nil => cases count
    | cons n ns =>
      obtain ⟨m, clamped, inside⟩ := clamp_inside n fits
      have tail := ih (by simpa using count)
      rw [clampAll] at tail ⊢
      simp only [List.zip_cons_cons, List.zipWith_cons_cons, List.map_cons, tail, clamped,
        ComplexOps.sliceWindow_eq inside]

theorem clampAll_length (count : ns.length = dims.length) (count' : lengths.length = dims.length) :
    (clampAll dims lengths ns).length = dims.length := by
  simp [clampAll, count, count']

theorem getItem_shape {t r : NDArray α} (sizes : SliceOf t.shape lengths strides shape)
    (count : ns.length = t.shape.length)
    (made : ComplexOps.getItem t ((clampAll t.shape lengths ns).zip (lengths.zip strides)) = some r)
      :
    r.shape = shape := by
  have len : ((clampAll t.shape lengths ns).zip (lengths.zip strides)).length = t.shape.length := by
    obtain ⟨count', strided⟩ := sizes.length_eq
    rw [List.length_zip, List.length_zip, clampAll_length count count', count', strided]
    omega
  unfold ComplexOps.getItem at made
  rw [len, if_pos le_rfl, List.drop_length, List.map_nil, List.append_nil] at made
  rw [look_shape made, slice_sizes sizes count]

theorem real_slice {t : Buffer K} {dtype : Dtype} (real : t.dtype.isComplex = false)
    (real' : dtype.isComplex = false) (cs : List Start) :
    applySlice K t.value cs lengths strides dtype = ((startsOf t.shape lengths cs).bind fun ns =>
      ComplexOps.getItem t.tensor (ns.zip (lengths.zip strides))).map fun r =>
        .real (r.map (K.cast dtype)) := by
  have dims : t.tensor.shape = t.shape := by rw [t.stored, storedShape, real]; rfl
  simp only [applySlice, real', Buffer.value, real, Value.real?, dims, Bool.false_eq_true, if_false,
    Option.bind_eq_bind, Option.bind_some]
  cases startsOf t.shape lengths cs with
  | none => rfl
  | some ns => cases h : ComplexOps.getItem t.tensor (ns.zip (lengths.zip strides)) <;> simp [h]

theorem all_integers (each : ∀ s ∈ starts, s.isInteger = true) :
    ∃ ns : List Int, starts = ns.map .integer := by
  induction starts with
  | nil => exact ⟨[], rfl⟩
  | cons s rest ih =>
    obtain ⟨ns, rfl⟩ := ih fun s mem => each s (List.mem_cons_of_mem _ mem)
    cases s with
    | integer n => exact ⟨n :: ns, rfl⟩
    | constant | tensor => cases each _ (List.mem_cons_self ..)

theorem integer_exprs (ts : List (Buffer K)) (ns : List Int) (k : Nat) (ref : Ref) :
    sliceStarts k (sliceExprs ts ref (ns.map .integer)) = ns.map .static ∧
      dynamicStarts (sliceExprs ts ref (ns.map .integer)) = [] := by
  induction ns generalizing ref with
  | nil => exact ⟨rfl, rfl⟩
  | cons n rest ih =>
    obtain ⟨specs, none⟩ := ih (ref + 1)
    exact ⟨by rw [List.map_cons, sliceExprs, sliceStarts, specs, List.map_cons], none⟩

theorem integer_numbers (ns : List Int) : (ns.map .integer).mapM (startNumber K ts) = some ns := by
  induction ns with
  | nil => rfl
  | cons n rest ih => simp [List.mapM_cons, startNumber, ih, pure]

theorem integer_clamped (count : ns.length = dims.length) (count' : lengths.length = dims.length)
    (inside : InRange dims lengths (ns.map .integer)) : clampAll dims lengths ns = ns := by
  induction ns generalizing dims lengths with
  | nil => simp [clampAll]
  | cons n rest ih =>
    cases dims with
    | nil => cases count
    | cons d ds =>
      cases lengths with
      | nil => cases count'
      | cons l ls =>
        have tail := ih (by simpa using count) (by simpa using count') inside.2
        rw [clampAll] at tail ⊢
        simp only [List.zip_cons_cons, List.zipWith_cons_cons, tail, clamp_within inside.1]

theorem some_dynamic (ts : List (Buffer K)) (ref : Ref)
    (other : ∃ s ∈ starts, s.isInteger = false) :
    dynamicStarts (sliceExprs ts ref starts) ≠ [] := by
  induction starts generalizing ref with
  | nil => simp at other
  | cons s rest ih =>
    cases s with
    | integer n =>
      refine ih (ref + 1) ?_
      simpa [StartArg.isInteger] using other
    | constant | tensor => exact List.cons_ne_nil _ _

end slice

def StartArg.put (K : Kernels α) (ts : List (Buffer K)) : StartArg → Option Start
  | .tensor k => (startNumber K ts (.tensor k)).map .read
  | s => (startNumber K ts s).map .static

def StartArg.isTensor : StartArg → Bool
  | .tensor _ => true
  | _ => false

section put
variable {ts : List (Buffer K)} {starts : List StartArg}

theorem apply_put (v part : Value α) (dyn : List (Value α)) (specs : List StartSpec)
    (shape : List Nat)
    (dtype : Dtype) : (applyOp K.sem [] (.putSlice specs) (v :: part :: dyn) shape dtype).toOption =
      (resolveStarts K.sem dyn [] specs).toOption.bind fun cs =>
      applyPutSlice K v part cs dtype := by
  simp only [applyOp, bind, Except.bind]
  cases resolveStarts K.sem dyn [] specs with
  | error e => rfl
  | ok cs => exact toOption_orFault _

theorem put_resolved (passed : ∀ s ∈ starts, s.Passed ts)
    (reach : Reachable ts (starts.flatMap StartArg.operands)) (k : Nat) (ref : Ref) :
    ∃ specs dyn, putSliceStarts k (putExprs ts ref starts) = .ok specs ∧
      evalOn ts (runtimeStarts (putExprs ts ref starts)) = .ok dyn ∧ ∀ before, before.length = k →
        (resolveStarts K.sem (before ++ dyn) [] specs).toOption =
        starts.mapM (StartArg.put K ts) := by
  induction starts generalizing k ref with
  | nil => exact ⟨[], [], rfl, evalList_nil, fun before _ => rfl⟩
  | cons s rest ih =>
    have tail (k : Nat) := ih (fun s mem => passed s (List.mem_cons_of_mem _ mem))
      (fun k mem => reach k (by simp [mem])) k (ref + 1)
    have static (n : Int) (found : classifyStart (startExpr ts ref s) = .ok (some (.int n)))
        (put : s.put K ts = some (.static n)) : ∃ specs dyn,
          putSliceStarts k (putExprs ts ref (s :: rest)) = .ok specs ∧
            evalOn ts (runtimeStarts (putExprs ts ref (s :: rest))) = .ok dyn ∧ ∀ before,
              before.length = k → (resolveStarts K.sem (before ++ dyn) [] specs).toOption =
                (s :: rest).mapM (StartArg.put K ts) := by
      obtain ⟨specs, dyn, made, ran, resolved⟩ := tail k
      refine ⟨.static n :: specs, dyn, ?_, ?_, fun before len => ?_⟩
      · simp only [putExprs, putSliceStarts, found, made, bind, Except.bind]
      · rw [putExprs, runtimeStarts_cons, classify_ok found]
        exact ran
      · rw [resolve_integer, resolved before len, List.mapM_cons, put]
        cases rest.mapM (StartArg.put K ts) <;> rfl
    cases s with
    | integer n => exact static n rfl rfl
    | constant dtype n => exact static n rfl rfl
    | tensor j =>
      obtain ⟨specs, dyn, made, ran, resolved⟩ := tail (k + 1)
      obtain ⟨v, value, number⟩ := start_value (passed _ (List.mem_cons_self ..))
        (fun i mem => reach i (by simp [mem])) rfl ref
      have found : classifyStart (startExpr ts ref (.tensor j)) = .ok none := rfl
      refine ⟨.input k :: specs, v :: dyn, ?_, ?_, fun before len => ?_⟩
      · simp only [putExprs, putSliceStarts, found, made, bind, Except.bind]
      · rw [putExprs, runtimeStarts_cons, classify_ok found]
        exact evalList_cons.mpr ⟨v, dyn, value, ran, rfl⟩
      · have later := resolved (before ++ [v]) (by rw [List.length_append, len]; rfl)
        rw [List.append_assoc, List.singleton_append] at later
        rw [← len, resolve_input, later, List.mapM_cons, StartArg.put, number]
        cases startNumber K ts (.tensor j) with
        | none => rfl
        | some n => cases rest.mapM (StartArg.put K ts) <;> rfl

theorem put_agree (ts : List (Buffer K)) (starts : List StartArg) :
    (∃ cs ns, starts.mapM (StartArg.put K ts) = some cs ∧ starts.mapM (startNumber K ts) = some ns ∧
      ∀ dims lengths, padConfig dims lengths cs = padConfig dims lengths (ns.map .static)) ∨
    starts.mapM (StartArg.put K ts) = none ∧ starts.mapM (startNumber K ts) = none := by
  induction starts with
  | nil => exact .inl ⟨[], [], rfl, rfl, fun dims lengths => rfl⟩
  | cons s rest ih =>
    have step (c : Int → Start) (put : s.put K ts = (startNumber K ts s).map c)
        (place : ∀ d l n, placed d l (c n) = placed d l (.static n)) :
        (∃ cs ns, (s :: rest).mapM (StartArg.put K ts) = some cs ∧
          (s :: rest).mapM (startNumber K ts) = some ns ∧
            ∀ dims lengths, padConfig dims lengths cs = padConfig dims lengths (ns.map .static)) ∨
        (s :: rest).mapM (StartArg.put K ts) = none ∧
        (s :: rest).mapM (startNumber K ts) = none := by
      simp only [List.mapM_cons, put]
      cases startNumber K ts s with
      | none => exact .inr ⟨rfl, rfl⟩
      | some n =>
        rcases ih with ⟨cs, ns, reads, numbers, same⟩ | ⟨reads, numbers⟩
        · refine .inl ⟨c n :: cs, n :: ns, by rw [reads]; rfl, by rw [numbers]; rfl,
            fun dims lengths => ?_⟩
          cases dims with
          | nil => rfl
          | cons d ds =>
            cases lengths with
            | nil => rfl
            | cons l ls => simp only [List.map_cons, padConfig, place, same]
        · exact .inr ⟨by rw [reads]; rfl, by rw [numbers]; rfl⟩
    cases s with
    | integer n => exact step .static rfl fun _ _ _ => rfl
    | constant dtype n => exact step .static rfl fun _ _ _ => rfl
    | tensor k => exact step .read rfl fun _ _ _ => rfl

theorem put_same (ts : List (Buffer K)) (v part : Value α) (dtype : Dtype) (starts : List StartArg) :
    ((starts.mapM (StartArg.put K ts)).bind fun cs => applyPutSlice K v part cs dtype) =
      (starts.mapM (startNumber K ts)).bind fun ns =>
      applyPutSlice K v part (ns.map .static) dtype := by
  rcases put_agree ts starts with ⟨cs, ns, reads, numbers, same⟩ | ⟨reads, numbers⟩
  · rw [reads, numbers]
    simp only [Option.bind_some, applyPutSlice, same]
  · rw [reads, numbers]
    rfl

variable {dims lengths : List Nat} {ns : List Int} {config : List (Int × Int)}

theorem pad_sizes (count : lengths.length = dims.length) (count' : ns.length = dims.length)
    (made : padConfig dims lengths (ns.map .static) = some config) :
    (List.zipWith (fun d (p : Int × Int) => Window.pad d p.1 p.2) lengths config).map Window.size
    = dims := by
  induction dims generalizing lengths ns config with
  | nil =>
    cases List.length_eq_zero_iff.mp count
    rfl
  | cons d ds ih =>
    cases lengths with
    | nil => cases count
    | cons l ls =>
      cases ns with
      | nil => cases count'
      | cons n ns =>
        obtain ⟨rest, tail, rfl⟩ := Option.map_eq_some_iff.mp made
        rw [List.zipWith_cons_cons, List.map_cons, ih (by simpa using count)
          (by simpa using count') tail]
        have size : ((l : Int) + placed d l (.static n) + (d - l - placed d l (.static n))).toNat =
            d := by
          omega
        rw [Window.pad, size]

theorem put_shape {t part : NDArray α} {dtype : Dtype} {w : Value α}
    (count : part.shape.length = t.shape.length) (count' : ns.length = t.shape.length)
    (made : applyPutSlice K (.real t) (.real part) (ns.map .static) dtype = some w) :
    (tensor w).shape = t.shape := by
  unfold applyPutSlice at made
  split at made
  · cases made
  · simp only [Value.real?, Option.bind_eq_bind, Option.bind_some, Option.bind_eq_some_iff,
      Option.some.injEq] at made
    obtain ⟨config, placed, padded, first, mask, second, r, chosen, rfl⟩ := made
    have sizes := pad_sizes count count' placed
    have both := whereElse_shape (mask.map K.nonzero) padded t
    have shape : padded.shape = t.shape := (look_shape first).trans sizes
    have shape' : (mask.map K.nonzero).shape = t.shape := (look_shape second).trans sizes
    rw [chosen, shape, shape', common_self, Option.bind_some, common_self] at both
    exact Option.some.inj both

end put

section calls
variable {ts : List (Buffer K)} {out : Spec}

theorem reachable {call : Call} (passed : Passed ts out call) (ranked : Ranked ts out call) :
    Reachable ts call.operands := by
  intro k mem
  have low := passed.1 k mem
  exact ⟨ts[k], List.getElem?_eq_getElem low, ranked.2 k mem _ (List.getElem?_eq_getElem low)⟩

theorem Reachable.tensors {ks : List Nat} (reach : Reachable ts ks) :
    ∃ inputs, List.Forall₂ (fun k u => ts[k]? = some u) ks inputs := by
  apply exists_forall₂
  intro k mem
  obtain ⟨b, there, _⟩ := reach k mem
  exact ⟨b, there⟩

theorem Reachable.leaves {ks : List Nat} {root : Expr} {starts : List StartArg}
    (reach : Reachable ts ks) : ∀ e ∈ ks.map (operand ts), LeafOf ts (table ts root starts) e := by
  intro e mem
  obtain ⟨k, here, rfl⟩ := List.mem_map.mp mem
  obtain ⟨b, there, rank⟩ := reach k here
  exact operand_leaf there rank

theorem over_tensors (call : Call) {ks : List Nat} (op : NodeOp) (reach : Reachable ts ks)
    (rank : out.1.length ≤ maxRank)
    (plan : (call.expr ts out).plan = some (ks.map (operand ts), op))
    (operands : ∀ {σ : Type} (s inner : σ), (call.expr ts out).operands s inner =
      (ks.map (operand ts)).map (s, ·)) :
    ∃ g, OneNode ts out call (ks.map (operand ts)) op g := by
  have leaves : ∀ e ∈ ks.map (operand ts), LeafOf ts (table ts (call.expr ts out) []) e :=
    reach.leaves
  refine one_node plan (root_here (by rw [expr_tag])) rank ?_ leaves
  intro σ s inner c mem
  rw [operands] at mem
  obtain ⟨e, here, rfl⟩ := List.mem_map.mp mem
  exact ⟨rfl, (leaves e here).toPlaced⟩

theorem on_dummies {ks : List Nat} {inputs : List (Buffer K)}
    (read : List.Forall₂ (fun k u => ts[k]? = some u) ks inputs) (seed : Nat) :
    ks.mapM (fun k => (ts.map fun t => dummy K t.spec seed)[k]?) =
      some (inputs.map fun b => dummy K b.spec seed) := by
  apply mapM_of_forall₂
  rw [List.forall₂_map_right_iff]
  refine read.imp ?_
  intro k u here
  simp [here]

theorem op_agrees (o : Op) (args : List Nat) (passed : Passed ts out (.op o args))
    (ranked : Ranked ts out (.op o args)) (resident : Resident ts (.op o args))
    (replay : Replays K ts out (.op o args)) :
    (eager K ts out (.op o args)).map (·.tensor) = compiled K ts out (.op o args) := by
  have reach : Reachable ts args := reachable passed ranked
  obtain ⟨inputs, read⟩ := reach.tensors
  have given : args.mapM (ts[·]?) = some inputs := mapM_of_forall₂ read
  have stored : Stored inputs := resident.stored (fun k mem => mem) given
  let rank := (inputs.head?.map (·.shape.length)).getD 0
  have first : (((args.map (operand ts)).head?.map (·.rank)).getD 0) = rank := by
    cases read with
    | nil => rfl
    | cons here _ => simp [rank, Expr.rank, operand_eq here, Expr.tag]
  have run (us : List (Buffer K)) (bs : List (Buffer K)) (given : args.mapM (us[·]?) = some bs)
      (same : (bs.head?.map (·.shape.length)).getD 0 = rank) : eager K us out (.op o args) =
      runNode K (.prim o.prim (o.attrs rank out.1)) out bs := by
    simp only [eager, given, Option.bind_eq_bind, Option.bind_some, same, attrs_agree]
  obtain ⟨g, node⟩ := over_tensors (.op o args) (.prim o.prim (o.attrs rank out.1)) reach
    ranked.1 (by
      have takes : o.takes (args.map (operand ts)).length = true := by
        rw [List.length_map]
        exact passed.2
      simp only [Call.expr, Expr.plan, takes, if_true, first]) (fun s inner => rfl)
  rw [run ts inputs given rfl]
  by_cases empty : args = []
  · subst empty
    cases read
    rw [compiled_free node (.inl (node.created rfl)) evalList_nil, runNode_tensor stored]
    simp only [applyOp, List.map_nil]
    cases made : K.sem.prim o.prim (o.attrs rank out.1) [] out.1 out.2 with
    | none => rfl
    | some v => simp [orFault, Except.toOption, Option.filter, K.created made]
  · refine compiled_captured node empty trivial read stored ?_
    intro r ran
    refine replay empty r ?_
    rw [run _ _ (on_dummies read 3), ran]
    cases inputs <;> rfl

theorem dummy_get {k : Nat} {t : Buffer K} (there : ts[k]? = some t) (seed : Nat) :
    (ts.map fun t => dummy K t.spec seed)[k]? = some (dummy K t.spec seed) := by
  rw [List.getElem?_map, there]
  rfl

theorem pad_agrees (a : Nat) (value : ScalarArg) (config : List (Int × Int × Nat))
    (passed : Passed ts out (.pad a value config)) (ranked : Ranked ts out (.pad a value config))
    (supported : Supported ts (.pad a value config)) (resident : Resident ts (.pad a value config))
    (replay : Replays K ts out (.pad a value config)) :
    (eager K ts out (.pad a value config)).map (·.tensor) =
    compiled K ts out (.pad a value config) := by
  obtain ⟨exact_value, whole⟩ := supported
  cases value with
  | tensor k => cases exact_value
  | constant dtype x =>
    have number : K.toNumber dtype (K.scalar dtype x) = some x := exact_value
    have reach : Reachable ts [a] := reachable passed ranked
    obtain ⟨t, there, _⟩ := reach a (List.mem_singleton.mpr rfl)
    have run (us : List (Buffer K)) (b : Buffer K) (there : us[a]? = some b) :
        eager K us out (.pad a (.constant dtype x) config) =
          runNode K (.prim .pad (padAttrs config x)) out [b] := by
      simp only [eager, there, scalarNumber, number, Backend.pad, whole, Option.bind_eq_bind,
        Option.bind_some, Bool.false_eq_true, if_false]
      rfl
    obtain ⟨g, node⟩ := over_tensors (.pad a (.constant dtype x) config)
      (.prim .pad (padAttrs config x)) reach ranked.1 rfl (fun s inner => rfl)
    rw [run ts t there]
    have stored : Stored [t] := resident.one (List.mem_cons_self ..) there
    refine compiled_captured node (List.cons_ne_nil a []) trivial (.cons there .nil) stored ?_
    intro r ran
    exact replay (List.cons_ne_nil a []) r ((run _ _ (dummy_get there 3)).trans ran)

theorem windowScatter_agrees (o : WindowScatterOp) (a source : Nat) (init : ScalarArg)
    (window strides : List Nat) (padding : List (Int × Int))
    (passed : Passed ts out (.windowScatter o a source init window strides padding))
    (ranked : Ranked ts out (.windowScatter o a source init window strides padding))
    (supported : Supported ts (.windowScatter o a source init window strides padding))
    (resident : Resident ts (.windowScatter o a source init window strides padding))
    (replay : Replays K ts out (.windowScatter o a source init window strides padding)) :
    (eager K ts out (.windowScatter o a source init window strides padding)).map (·.tensor) =
      compiled K ts out (.windowScatter o a source init window strides padding) := by
  cases init with
  | tensor k => cases supported
  | constant dtype x =>
    have number : K.toNumber dtype (K.scalar dtype x) = some x := supported
    let op : NodeOp := .prim (.windowScatter o) (windowScatterAttrs x window strides padding)
    have reach : Reachable ts [a, source] := reachable passed ranked
    obtain ⟨t, there, _⟩ := reach a (by simp)
    obtain ⟨s, there', _⟩ := reach source (by simp)
    have run (us : List (Buffer K)) (b c : Buffer K) (there : us[a]? = some b)
        (there' : us[source]? = some c) :
        eager K us out (.windowScatter o a source (.constant dtype x) window strides padding) =
          runNode K op out [b, c] := by
      simp only [eager, there, there', scalarNumber, number, Option.bind_eq_bind, Option.bind_some]
      rfl
    obtain ⟨g, node⟩ :=
      over_tensors (.windowScatter o a source (.constant dtype x) window strides padding) op reach
        ranked.1 rfl (fun s inner => rfl)
    rw [run ts t s there there']
    have stored : Stored [t, s] := resident.two (List.mem_cons_self ..)
      (List.mem_cons_of_mem _ (List.mem_cons_self ..)) there there'
    refine compiled_captured node (List.cons_ne_nil a [source]) trivial
      (.cons there (.cons there' .nil)) stored ?_
    intro r ran
    exact replay (List.cons_ne_nil a [source]) r
      ((run _ _ _ (dummy_get there 3) (dummy_get there' 3)).trans ran)

section slice
variable {a : Nat} {t : Buffer K} {lengths strides : List Nat}

theorem integer_slice (ns : List Int) (there : ts[a]? = some t)
    (passed : Passed ts out (.slice a (ns.map .integer) lengths strides))
    (ranked : Ranked ts out (.slice a (ns.map .integer) lengths strides))
    (inside : InRange t.shape lengths (ns.map .integer))
    (resident : Resident ts (.slice a (ns.map .integer) lengths strides))
    (replay : Replays K ts out (.slice a (ns.map .integer) lengths strides)) :
    (eager K ts out (.slice a (ns.map .integer) lengths strides)).map (·.tensor) =
      compiled K ts out (.slice a (ns.map .integer) lengths strides) := by
  let op : NodeOp := .slice (ns.map .static) lengths strides
  obtain ⟨dtype, sizes, count, _⟩ := passed.2 t there
  have clamped : Backend.clamped ns t.shape lengths = ns.map .static := by
    rw [clamped_static, integer_clamped (by simpa using count) sizes.length_eq.1 inside]
  have run (us : List (Buffer K)) (b : Buffer K) (there : us[a]? = some b)
      (same : b.shape = t.shape) :
      eager K us out (.slice a (ns.map .integer) lengths strides) = runNode K op out [b] := by
    simp only [eager, there, integer_numbers, Option.bind_eq_bind, Option.bind_some, same,
      clamped, op]
  obtain ⟨specs, none⟩ := integer_exprs ts ns 0 (ts.length + 1)
  have reach : Reachable ts [a] := fun k mem =>
    reachable passed ranked k (by rw [List.mem_singleton.mp mem]; exact List.mem_cons_self ..)
  obtain ⟨g, node⟩ := over_tensors (.slice a (ns.map .integer) lengths strides) op reach
    ranked.1 (by simp only [Call.expr, Expr.plan, specs, none, op, List.map_cons, List.map_nil])
    (fun s inner => by simp only [Call.expr, Expr.operands, none, List.map_cons, List.map_nil])
  have stored : Stored [t] := resident.one (List.mem_cons_self ..) there
  rw [run ts t there rfl]
  refine compiled_captured node (List.cons_ne_nil a []) ⟨t.spec, rfl, dtype.symm⟩
    (.cons there .nil) stored ?_
  intro r ran
  exact replay (List.cons_ne_nil _ _) r ((run _ _ (dummy_get there 3) rfl).trans ran)

theorem read_slice {starts : List StartArg} (there : ts[a]? = some t)
    (passed : Passed ts out (.slice a starts lengths strides))
    (ranked : Ranked ts out (.slice a starts lengths strides))
    (inside : InRange t.shape lengths starts) (resident : Resident ts (.slice a starts lengths strides))
    (real : t.dtype.isComplex = false) (other : ∃ s ∈ starts, s.isInteger = false) :
    (eager K ts out (.slice a starts lengths strides)).map (·.tensor) =
      compiled K ts out (.slice a starts lengths strides) := by
  let call : Call := .slice a starts lengths strides
  obtain ⟨dtype, sizes, count, each⟩ := passed.2 t there
  have real' : out.2.isComplex = false := by rw [dtype, real]
  have reach : Reachable ts (starts.flatMap StartArg.operands) := fun k mem =>
    reachable passed ranked k (List.mem_cons_of_mem _ mem)
  have first : LeafOf ts (table ts (call.expr ts out) starts) (operand ts a) :=
    operand_leaf there (ranked.2 a (List.mem_cons_self ..) t there)
  have leaves : ∀ e ∈ operand ts a :: dynamicStarts (sliceExprs ts (ts.length + 1) starts),
      LeafOf ts (table ts (call.expr ts out) starts) e := by
    intro e mem
    rcases List.mem_cons.mp mem with rfl | mem
    · exact first
    · exact start_leaf reach (dynamic_mem ts _ starts mem)
  have here : named (table ts (call.expr ts out) starts) (call.expr ts out).tag.ref =
      call.expr ts out :=
    root_here (by rw [expr_tag])
  obtain ⟨g, node⟩ : ∃ g,
      OneNode ts out call (operand ts a :: dynamicStarts (sliceExprs ts (ts.length + 1) starts))
      (.slice (sliceStarts 0 (sliceExprs ts (ts.length + 1) starts)) lengths strides) g := by
    apply one_node rfl here ranked.1 ?_ leaves
    intro σ s inner c mem
    rcases List.mem_cons.mp mem with rfl | mem
    · exact ⟨rfl, first.toPlaced⟩
    · obtain ⟨e, start, rfl⟩ := List.mem_map.mp mem
      exact ⟨rfl, (leaves e (List.mem_cons_of_mem _ start)).toPlaced⟩
  have free : Capture.eager g = true := by
    obtain ⟨id, ids, nodes, len, _⟩ := node.nodes
    have some_start := List.length_pos_iff.mpr (some_dynamic ts (ts.length + 1) other)
    have many : 1 < ids.length := by
      rw [len, List.length_cons]
      omega
    simp [Capture.eager, nodes, Capture.requiresEager, many]
  obtain ⟨dyn, ran, resolved⟩ := slice_resolved each reach (ts.length + 1)
  rw [compiled_free node (.inr free) (evalList_cons.mpr ⟨_, _, eval_operand there, ran, rfl⟩)]
  have agree := starts_agree ts count sizes.length_eq.1 inside
  have seen := resolved []
  rw [List.nil_append, List.length_nil] at seen
  -- the slice at clamped starts
  let cut := fun ns : List Int => (ComplexOps.getItem t.tensor (ns.zip (lengths.zip strides))).map
    fun r => Value.real (r.map (K.cast out.2))
  have graph : (starts.mapM (StartArg.read K ts)).bind
      (fun cs => applySlice K t.value cs lengths strides out.2) =
        (starts.mapM (startNumber K ts)).bind fun ns => cut (clampAll t.shape lengths ns) := by
    have parts : (fun cs => applySlice K t.value cs lengths strides out.2) =
        fun cs => (startsOf t.shape lengths cs).bind cut := by
      funext cs
      rw [real_slice real real' cs]
      cases startsOf t.shape lengths cs <;> rfl
    rw [parts, ← Option.bind_assoc, agree]
    cases starts.mapM (startNumber K ts) <;> rfl
  rw [apply_slice, seen, graph]
  simp only [eager, there, Option.bind_eq_bind, Option.bind_some]
  cases numbers : starts.mapM (startNumber K ts) with
  | none => rfl
  | some ns =>
    have len : ns.length = t.shape.length := by rw [(NDArray.mapM_get numbers).1, count]
    have stored : Stored [t] := resident.one (List.mem_cons_self ..) there
    simp only [Option.bind_some, runNode_tensor stored, List.map_cons, List.map_nil, apply_slice,
      clamped_static, resolve_static]
    have same : applySlice K t.value ((clampAll t.shape lengths ns).map .static) lengths
        strides out.2 =
        cut (clampAll t.shape lengths ns) := by
      rw [real_slice real real', startsOf_static]
      rfl
    simp only [Except.toOption, Option.bind_some, same]
    cases made : ComplexOps.getItem t.tensor
      ((clampAll t.shape lengths ns).zip (lengths.zip strides)) with
    | none => simp [cut, made]
    | some r =>
      have shape : r.shape = out.1 := by
        have dims : t.tensor.shape = t.shape := by rw [t.stored, storedShape, real]; rfl
        rw [← dims] at sizes len made
        exact getItem_shape sizes len made
      simp [cut, made, tensor, NDArray.map, shape, storedShape, real', Option.filter]

end slice

section put
variable {a p : Nat} {t part : Buffer K} {starts : List StartArg}

theorem leaf_strip {e : Expr} (leaf : e.isLeaf = true) : e.strip = e := by
  cases e with
  | parameter | constant => rfl
  | _ => cases leaf

theorem put_node {specs : List StartSpec} (passed : Passed ts out (.putSlice a starts p))
    (ranked : Ranked ts out (.putSlice a starts p))
    (made : putSliceStarts 0 (putExprs ts (ts.length + 1) starts) = .ok specs) :
    ∃ g, OneNode ts out (.putSlice a starts p)
      (operand ts a :: operand ts p :: runtimeStarts (putExprs ts (ts.length + 1) starts))
      (.putSlice specs) g := by
  let call : Call := .putSlice a starts p
  have reach : Reachable ts call.operands := reachable passed ranked
  have leaves : ∀ e ∈ operand ts a :: operand ts p :: putExprs ts (ts.length + 1) starts,
      LeafOf ts (table ts (call.expr ts out) starts) e := by
    intro e mem
    have operands : Reachable ts [a, p] := fun k mem => reach k (by
      rcases List.mem_cons.mp mem with rfl | mem
      · exact List.mem_cons_self ..
      · rw [List.mem_singleton.mp mem]
        exact List.mem_cons_of_mem _ (List.mem_cons_self ..))
    rcases List.mem_append.mp (show e ∈ [a, p].map (operand ts) ++ _ from mem) with mem | mem
    · exact operands.leaves e mem
    · exact start_leaf (fun k mem =>
        reach k (List.mem_cons_of_mem _ (List.mem_cons_of_mem _ mem))) mem
  have here : named (table ts (call.expr ts out) starts) (call.expr ts out).tag.ref =
      call.expr ts out :=
    root_here (by rw [expr_tag])
  apply one_node ?_ here ranked.1 ?_ ?_
  · simp only [call, Call.expr, Expr.plan, made]
  · intro σ s inner c mem
    have mem : c ∈ (operand ts a :: operand ts p :: putExprs ts (ts.length + 1) starts).map
        (s, ·) := mem
    obtain ⟨e, here, rfl⟩ := List.mem_map.mp mem
    exact ⟨rfl, (leaves e here).toPlaced⟩
  · intro e mem
    refine (List.mem_cons.mp mem).elim (fun same => leaves e (by simp [same])) fun mem => ?_
    refine (List.mem_cons.mp mem).elim (fun same => leaves e (by simp [same])) fun mem => ?_
    obtain ⟨e', here, rfl⟩ := List.mem_map.mp mem
    have leaf := leaves e'
      (List.mem_cons_of_mem _ (List.mem_cons_of_mem _ (List.mem_filter.mp here).1))
    rwa [leaf_strip leaf.leaf]

theorem no_tensors (ts : List (Buffer K)) (each : ∀ s ∈ starts, s.isTensor = false) :
    ∃ ns : List Int, (∀ us : List (Buffer K), starts.mapM (startNumber K us) = some ns) ∧
      ∀ ref, putSliceStarts 0 (putExprs ts ref starts) = .ok (ns.map .static) ∧
        runtimeStarts (putExprs ts ref starts) = [] := by
  induction starts with
  | nil => exact ⟨[], fun us => rfl, fun ref => ⟨rfl, rfl⟩⟩
  | cons s rest ih =>
    obtain ⟨ns, numbers, exprs⟩ := ih fun s mem => each s (List.mem_cons_of_mem _ mem)
    have constant (n : Int) (number : ∀ us : List (Buffer K), startNumber K us s = some n)
        (found : ∀ ref, classifyStart (startExpr ts ref s) = .ok (some (.int n))) :
        ∃ ns : List Int, (∀ us : List (Buffer K), (s :: rest).mapM (startNumber K us) = some ns) ∧
          ∀ ref, putSliceStarts 0 (putExprs ts ref (s :: rest)) = .ok (ns.map .static) ∧
            runtimeStarts (putExprs ts ref (s :: rest)) = [] := by
      refine ⟨n :: ns, fun us => ?_, fun ref => ?_⟩
      · simp [List.mapM_cons, number, numbers, pure]
      · obtain ⟨specs, none⟩ := exprs (ref + 1)
        constructor
        · simp only [putExprs, putSliceStarts, found, specs, bind, Except.bind, List.map_cons]
        · rw [putExprs, runtimeStarts_cons, classify_ok (found ref)]
          exact none
    cases s with
    | integer n => exact constant n (fun us => rfl) fun ref => rfl
    | constant dtype n => exact constant n (fun us => rfl) fun ref => rfl
    | tensor k => cases each _ (List.mem_cons_self ..)

theorem some_runtime (ts : List (Buffer K)) (ref : Ref) (other : ∃ s ∈ starts, s.isTensor = true) :
    runtimeStarts (putExprs ts ref starts) ≠ [] := by
  induction starts generalizing ref with
  | nil => simp at other
  | cons s rest ih =>
    cases s with
    | integer n | constant dtype n =>
      rw [putExprs, runtimeStarts_cons]
      refine ih (ref + 1) ?_
      simpa [StartArg.isTensor] using other
    | tensor k => exact List.cons_ne_nil _ _

theorem put_stored {ns : List Int} {w : Value α}
    (real : out.2.isComplex = false → t.dtype.isComplex = false ∧ part.dtype.isComplex = false)
    (shape : out.1 = t.shape) (count : part.shape.length = t.shape.length)
    (count' : ns.length = t.shape.length)
    (made : applyPutSlice K t.value part.value (ns.map .static) out.2 = some w) :
    (tensor w).shape = storedShape out.1 out.2 := by
  cases complex : out.2.isComplex with
  | true => simp [applyPutSlice, complex] at made
  | false =>
    obtain ⟨plain, plain'⟩ := real complex
    have dims : t.tensor.shape = t.shape := by rw [t.stored, storedShape, plain]; rfl
    have dims' : part.tensor.shape = part.shape := by rw [part.stored, storedShape, plain']; rfl
    simp only [Buffer.value, plain, plain', Bool.false_eq_true, if_false] at made
    rw [put_shape (by rw [dims, dims', count]) (by rw [dims, count']) made, dims, storedShape,
      complex, shape]
    rfl

theorem put_run (there : ts[a]? = some t) (there' : ts[p]? = some part) :
    eager K ts out (.putSlice a starts p) = (starts.mapM (startNumber K ts)).bind fun ns =>
      runNode K (.putSlice (ns.map .static)) out [t, part] := by
  simp only [eager, there, there', Option.bind_eq_bind, Option.bind_some]

theorem putSlice_agrees (passed : Passed ts out (.putSlice a starts p))
    (ranked : Ranked ts out (.putSlice a starts p)) (resident : Resident ts (.putSlice a starts p))
    (replay : Replays K ts out (.putSlice a starts p)) :
    (eager K ts out (.putSlice a starts p)).map (·.tensor) =
    compiled K ts out (.putSlice a starts p) := by
  have reach := reachable passed ranked
  obtain ⟨t, there, _⟩ := reach a (List.mem_cons_self ..)
  obtain ⟨part, there', _⟩ := reach p (List.mem_cons_of_mem _ (List.mem_cons_self ..))
  obtain ⟨shape, real, count, count', each⟩ := passed.2 t part there there'
  have stored : Stored [t, part] := resident.two (List.mem_cons_self ..)
    (List.mem_cons_of_mem _ (List.mem_cons_self ..)) there there'
  rw [put_run there there']
  by_cases constant : ∀ s ∈ starts, s.isTensor = false
  · obtain ⟨ns, numbers, exprs⟩ := no_tensors ts constant
    obtain ⟨specs, none⟩ := exprs (ts.length + 1)
    obtain ⟨g, node⟩ := put_node passed ranked specs
    rw [none] at node
    rw [numbers, Option.bind_some]
    have node : OneNode ts out (.putSlice a starts p) ([a, p].map (operand ts))
        (.putSlice (ns.map .static)) g := node
    refine compiled_captured node (List.cons_ne_nil a [p])
      ⟨t.spec, part.spec, rfl, ?_⟩ (.cons there (.cons there' .nil)) stored ?_
    · cases complex : out.2.isComplex with
      | true => exact .inl rfl
      | false => exact .inr (real complex)
    · intro r ran
      refine replay (List.cons_ne_nil _ _) r ?_
      rw [put_run (dummy_get there 3) (dummy_get there' 3), numbers, Option.bind_some]
      exact ran
  · obtain ⟨specs, dyn, made, ran, resolved⟩ := put_resolved each
      (fun k mem => reach k (List.mem_cons_of_mem _ (List.mem_cons_of_mem _ mem))) 0 (ts.length + 1)
    obtain ⟨g, node⟩ := put_node passed ranked made
    have other : ∃ s ∈ starts, s.isTensor = true := by
      by_contra none
      exact constant fun s mem => by simpa using fun is => none ⟨s, mem, is⟩
    have free : Capture.eager g = true := by
      obtain ⟨id, ids, nodes, len, _⟩ := node.nodes
      have some_start := List.length_pos_iff.mpr (some_runtime ts (ts.length + 1) other)
      have many : 2 < ids.length := by
        rw [len, List.length_cons, List.length_cons]
        omega
      simp [Capture.eager, nodes, Capture.requiresEager, many]
    have ran' : evalOn ts (operand ts a :: operand ts p ::
        runtimeStarts (putExprs ts (ts.length + 1) starts)) = .ok (t.value :: part.value :: dyn) :=
      evalList_cons.mpr ⟨_, _, eval_operand there,
        evalList_cons.mpr ⟨_, _, eval_operand there', ran, rfl⟩, rfl⟩
    have seen := resolved [] rfl
    rw [List.nil_append] at seen
    rw [compiled_free node (.inr free) ran', apply_put, seen, put_same ts]
    cases numbers : starts.mapM (startNumber K ts) with
    | none => rfl
    | some ns =>
      have len : ns.length = t.shape.length := by rw [(NDArray.mapM_get numbers).1, count']
      have own : (applyOp K.sem [] (.putSlice (ns.map .static))
          [t.value, part.value] out.1 out.2).toOption =
          applyPutSlice K t.value part.value (ns.map .static) out.2 := by
            rw [apply_put, resolve_static]; rfl
      simp only [Option.bind_some, runNode_tensor stored, List.map_cons, List.map_nil, own]
      cases put : applyPutSlice K t.value part.value (ns.map .static) out.2 with
      | none => rfl
      | some w =>
        have kept := put_stored real shape count len put
        simp [kept, Option.filter]

end put

end calls

/-- The eager operation and the compiled graph of this operation give the same, or both raise, if no operand
    is a scalar that comes with the request. -/
theorem paths_agree {ts : List (Buffer K)} {out : Spec} {call : Call} (passed : Passed ts out call)
    (ranked : Ranked ts out call) (supported : Supported ts call) (resident : Resident ts call)
    (replay : Replays K ts out call) :
    (eager K ts out call).map (·.tensor) = compiled K ts out call := by
  cases call with
  | op o args => exact op_agrees o args passed ranked resident replay
  | slice a starts lengths strides =>
    obtain ⟨t, there, _⟩ := reachable passed ranked a (List.mem_cons_self ..)
    obtain ⟨inside, complex⟩ := supported t there
    by_cases integers : ∀ s ∈ starts, s.isInteger = true
    · obtain ⟨ns, rfl⟩ := all_integers integers
      exact integer_slice ns there passed ranked inside resident replay
    · have other : ∃ s ∈ starts, s.isInteger = false := by
        by_contra none
        exact integers fun s mem => by simpa using fun other => none ⟨s, mem, other⟩
      cases real : t.dtype.isComplex with
      | true => exact absurd (complex real) integers
      | false => exact read_slice there passed ranked inside resident real other
  | putSlice a starts part => exact putSlice_agrees passed ranked resident replay
  | pad a value config => exact pad_agrees a value config passed ranked supported resident replay
  | windowScatter o a source init window strides padding =>
    exact windowScatter_agrees o a source init window strides padding passed ranked supported
      resident replay

def wholeNumbers : Kernels Int where
  of _ _ := True
  cast _ x := x
  zero := 0
  timesZero _ := 0
  plusOne x := x + 1
  nonzero x := x != 0
  int := some
  scalar _ x := x.int?.toList
  toNumber _ data := match data with
    | [x] => some (.int x)
    | _ => none
  isNan _ := false
  isInf _ := false
  counter _ k := k
  number json shape _ := match json with
    | .int n => if size : [n].length = shape.prod then some (.real ⟨shape, [n], size⟩) else none
    | _ => none
  literal _ _ _ := none
  prim _ _ _ _ _ := none
  folded _ _ _ _ _ := none
  cast_of _ _ := trivial
  counter_of _ _ := trivial
  prim_of _ _ _ := trivial
  folded_of _ _ _ := trivial
  lazy _ _ _ _ _ _ _ _ _ := rfl
  created made := by cases made
  integer {n _} _ := ⟨.real ⟨[], [n], rfl⟩, rfl, rfl⟩

def rowAndStart : List (Buffer wholeNumbers) :=
  [⟨[4], .f32, ⟨[4], [1, 2, 3, 4], rfl⟩, rfl, fun _ _ => trivial, true⟩,
    ⟨[], .s32, ⟨[], [7], rfl⟩, rfl, fun _ _ => trivial, false⟩]

/-- The row may come with the request; the start is in the registry. -/
def beyond : Call := .slice 0 [.tensor 1] [2] [1]

theorem beyond_resident : Resident rowAndStart beyond := by
  intro k _ t there
  have each : Stored rowAndStart := by simp [Stored, rowAndStart, Buffer.constant]
  exact each t (List.mem_of_getElem? there)

theorem beyond_agrees : Passed rowAndStart ([2], .f32) beyond ∧
    Ranked rowAndStart ([2], .f32) beyond ∧
    Supported rowAndStart beyond ∧ Resident rowAndStart beyond ∧
    Replays wholeNumbers rowAndStart ([2], .f32) beyond ∧
      (eager wholeNumbers rowAndStart ([2], .f32) beyond).map (·.tensor) =
        compiled wholeNumbers rowAndStart ([2], .f32) beyond := by
  have passed : Passed rowAndStart ([2], .f32) beyond := by
    refine ⟨by decide, ?_⟩
    intro t there
    cases there
    refine ⟨rfl, .cons (by decide) (by decide) .nil, rfl, ?_⟩
    intro s mem
    rw [List.mem_singleton.mp mem]
    intro b there
    cases there
    exact ⟨rfl, rfl⟩
  have ranked : Ranked rowAndStart ([2], .f32) beyond := by
    refine ⟨by decide, ?_⟩
    intro k mem t there
    have small : ∀ t ∈ rowAndStart, t.shape.length ≤ maxRank := by
      simp [rowAndStart, maxRank]
    exact small t (List.mem_of_getElem? there)
  have supported : Supported rowAndStart beyond := by
    intro t there
    cases there
    exact ⟨trivial, fun complex => by cases complex⟩
  have replay : Replays wholeNumbers rowAndStart ([2], .f32) beyond := fun _ _ _ => rfl
  exact ⟨passed, ranked, supported, beyond_resident, replay,
    paths_agree passed ranked supported beyond_resident replay⟩

end NxTinygrad.Eager
