import Mathlib.Algebra.Order.Ring.Int
import Mathlib.Data.List.Basic
import Mathlib.Logic.Function.Basic

/- Straight-line programs over numbered variables: every instruction reads some
   variables, computes, and writes some. `miss` is the error for a variable that has
   no value. -/
namespace StraightLine
variable {V E : Type}

abbrev Env (V : Type) := Nat → Option V

structure Instr (V E : Type) where
  reads : List Nat
  writes : List Nat
  run : List V → Except E (List V)

def fetch (miss : Nat → E) (env : Env V) : List Nat → Except E (List V)
  | [] => .ok []
  | id :: rest => match env id with
    | none => .error (miss id)
    | some v => match fetch miss env rest with
      | .error e => .error e
      | .ok vs => .ok (v :: vs)

def assign (env : Env V) : List Nat → List V → Env V
  | id :: ids, v :: vs => assign (Function.update env id (some v)) ids vs
  | _, _ => env

def exec (miss : Nat → E) (i : Instr V E) (env : Env V) : Except E (Env V) :=
  match fetch miss env i.reads with
  | .error e => .error e
  | .ok vs => match i.run vs with
    | .error e => .error e
    | .ok outs => .ok (assign env i.writes outs)

def execAll (miss : Nat → E) : List (Instr V E) → Env V → Except E (Env V)
  | [], env => .ok env
  | i :: rest, env => match exec miss i env with
    | .error e => .error e
    | .ok env => execAll miss rest env

def AgreeOn (ids : Nat → Prop) (env env' : Env V) : Prop := ∀ id, ids id → env id = env' id

def Writes (is : List (Instr V E)) (id : Nat) : Prop := ∃ i ∈ is, id ∈ i.writes

variable {miss : Nat → E} {env env' : Env V} {ids : Nat → Prop}

theorem fetch_agree (agree : AgreeOn ids env env') {reads : List Nat}
    (sub : ∀ id ∈ reads, ids id) : fetch miss env reads = fetch miss env' reads := by
  induction reads with
  | nil => rfl
  | cons id rest ih =>
    have tail := ih fun x mem => sub x (List.mem_cons_of_mem _ mem)
    simp only [fetch, agree id (sub id (List.mem_cons_self ..)), tail]

theorem fetch_ok_iff {reads : List Nat} {vs : List V} :
    fetch miss env reads = .ok vs ↔ reads.map env = vs.map some := by
  induction reads generalizing vs with
  | nil => cases vs <;> simp [fetch]
  | cons id rest ih =>
    simp only [fetch]
    cases value : env id with
    | none => cases vs <;> simp [value]
    | some v =>
      cases tail : fetch miss env rest with
      | error e =>
        simp only [reduceCtorEq, false_iff]
        cases vs with
        | nil => simp
        | cons w ws =>
          intro same
          simp only [List.map_cons, List.cons.injEq] at same
          rw [ih.mpr same.2] at tail
          cases tail
      | ok ws =>
        have rest_eq := ih.mp tail
        cases vs with
        | nil => simp
        | cons w ws' =>
          simp only [Except.ok.injEq, List.cons.injEq, List.map_cons, value, Option.some.injEq,
            rest_eq]
          constructor
          · rintro ⟨rfl, rfl⟩
            exact ⟨rfl, rfl⟩
          · rintro ⟨rfl, same⟩
            exact ⟨rfl, List.map_injective_iff.mpr (fun _ _ => Option.some.inj) same⟩

theorem fetch_present {reads : List Nat} (present : ∀ id ∈ reads, (env id).isSome) :
    ∃ vs, fetch miss env reads = .ok vs := by
  induction reads with
  | nil => exact ⟨[], rfl⟩
  | cons id rest ih =>
    obtain ⟨v, value⟩ := Option.isSome_iff_exists.mp (present id (List.mem_cons_self ..))
    obtain ⟨vs, tail⟩ := ih fun x mem => present x (List.mem_cons_of_mem _ mem)
    exact ⟨v :: vs, by simp [fetch, value, tail]⟩

theorem fetch_length {reads : List Nat} {vs : List V} (h : fetch miss env reads = .ok vs) :
    vs.length = reads.length := by
  have same := congrArg List.length (fetch_ok_iff.mp h)
  simpa using same.symm

theorem fetch_getElem {reads : List Nat} {vs : List V} (h : fetch miss env reads = .ok vs) {k : Nat}
    {v : V} (at_k : vs[k]? = some v) : ∃ id, reads[k]? = some id ∧ env id = some v := by
  have same := congrArg (fun l => l[k]?) (fetch_ok_iff.mp h)
  simp only [List.getElem?_map, at_k, Option.map_some] at same
  obtain ⟨id, at_id, value⟩ := Option.map_eq_some_iff.mp same
  exact ⟨id, at_id, value⟩

theorem assign_other {writes : List Nat} {vs : List V} {id : Nat} (other : id ∉ writes) :
    assign env writes vs id = env id := by
  induction writes generalizing env vs with
  | nil => simp [assign]
  | cons x rest ih =>
    cases vs with
    | nil => rfl
    | cons v vs =>
      simp only [assign]
      rw [ih (fun mem => other (List.mem_cons_of_mem _ mem))]
      exact Function.update_of_ne (fun same => other (by simp [same])) _ _

theorem assign_agree (agree : AgreeOn ids env env') {writes : List Nat} {vs : List V} :
    AgreeOn ids (assign env writes vs) (assign env' writes vs) := by
  induction writes generalizing env env' vs with
  | nil => simpa [assign] using agree
  | cons x rest ih =>
    cases vs with
    | nil => exact agree
    | cons v vs =>
      apply ih
      intro id mem
      by_cases same : id = x
      · simp [same]
      · simp only [Function.update_of_ne same, agree id mem]

theorem assign_written {writes : List Nat} {vs : List V} (len : vs.length = writes.length) {id : Nat}
    (mem : id ∈ writes) : assign env writes vs id = assign env' writes vs id := by
  induction writes generalizing env env' vs with
  | nil => cases mem
  | cons x rest ih =>
    cases vs with
    | nil => simp at len
    | cons v vs =>
      simp only [assign]
      by_cases later : id ∈ rest
      · exact ih (by simpa using len) later
      · have same : id = x := (List.mem_cons.mp mem).resolve_right later
        rw [assign_other later, assign_other later]
        simp [same]

theorem assign_filled {writes : List Nat} {vs : List V} (enough : writes.length ≤ vs.length)
    {id : Nat} (mem : id ∈ writes) : (assign env writes vs id).isSome := by
  induction writes generalizing env vs with
  | nil => cases mem
  | cons x rest ih =>
    cases vs with
    | nil => simp at enough
    | cons v vs =>
      simp only [assign]
      by_cases later : id ∈ rest
      · exact ih (by simpa using enough) later
      · rw [assign_other later, (List.mem_cons.mp mem).resolve_right later]
        simp

theorem assign_present {writes : List Nat} {vs : List V} (len : vs.length = writes.length)
    {id : Nat} (mem : id ∈ writes) : (assign env writes vs id).isSome :=
  assign_filled len.ge mem

theorem assign_keeps {writes : List Nat} {vs : List V} {id : Nat} (there : (env id).isSome) :
    (assign env writes vs id).isSome := by
  induction writes generalizing env vs with
  | nil => simpa [assign] using there
  | cons x rest ih =>
    cases vs with
    | nil => exact there
    | cons v vs =>
      apply ih
      by_cases same : id = x
      · simp [same]
      · simpa only [Function.update_of_ne same] using there

theorem assign_getElem {writes : List Nat} {vs : List V} (distinct : writes.Nodup) {k id : Nat}
    {v : V} (at_id : writes[k]? = some id) (at_v : vs[k]? = some v) :
    assign env writes vs id = some v := by
  induction writes generalizing env vs k with
  | nil => simp at at_id
  | cons x rest ih =>
    obtain ⟨fresh, distinct⟩ := List.nodup_cons.mp distinct
    cases vs with
    | nil => simp at at_v
    | cons w vs =>
      simp only [assign]
      cases k with
      | zero =>
        simp only [List.getElem?_cons_zero, Option.some.injEq] at at_id at_v
        subst at_id at_v
        rw [assign_other fresh]
        simp
      | succ k => exact ih distinct (by simpa using at_id) (by simpa using at_v)

theorem assign_forall {holds : Nat → V → Prop} {writes : List Nat} {vs : List V}
    (old : ∀ id v, env id = some v → holds id v)
    (new : ∀ pair ∈ writes.zip vs, holds pair.1 pair.2) {id : Nat} {v : V}
    (value : assign env writes vs id = some v) : holds id v := by
  induction writes generalizing env vs with
  | nil => exact old id v (by simpa [assign] using value)
  | cons x rest ih =>
    cases vs with
    | nil => exact old id v (by simpa [assign] using value)
    | cons w vs =>
      refine ih ?_ (fun pair mem => new pair (List.mem_cons_of_mem _ mem)) value
      intro y u at_y
      by_cases same : y = x
      · subst same
        simp only [Function.update_self, Option.some.injEq] at at_y
        exact at_y ▸ new (y, w) (List.mem_cons_self ..)
      · exact old y u (by simpa only [Function.update_of_ne same] using at_y)

theorem assign_fetched {source : Env V} {reads : List Nat} {vs : List V}
    (fetched : fetch miss source reads = .ok vs) {id : Nat} (mem : id ∈ reads) :
    assign env reads vs id = source id := by
  induction reads generalizing env vs with
  | nil => cases mem
  | cons x rest ih =>
    have same := fetch_ok_iff.mp fetched
    cases vs with
    | nil => simp at same
    | cons v vs =>
      simp only [List.map_cons, List.cons.injEq] at same
      simp only [assign]
      by_cases later : id ∈ rest
      · exact ih (fetch_ok_iff.mpr same.2) later
      · rw [assign_other later, (List.mem_cons.mp mem).resolve_right later, same.1]
        simp

def Full (i : Instr V E) : Prop := ∀ vs outs, vs.length = i.reads.length → i.run vs = .ok outs →
  outs.length = i.writes.length

theorem exec_ok {i : Instr V E} {out : Env V} : exec miss i env = .ok out ↔
    ∃ vs outs, fetch miss env i.reads = .ok vs ∧ i.run vs = .ok outs ∧
      assign env i.writes outs = out := by
  unfold exec
  constructor
  · intro h
    split at h
    · cases h
    · rename_i vs fetched
      split at h
      · cases h
      · rename_i outs ran
        cases h
        exact ⟨vs, outs, fetched, ran, rfl⟩
  · rintro ⟨vs, outs, fetched, ran, rfl⟩
    simp only [fetched, ran]

theorem execAll_append {front back : List (Instr V E)} :
    execAll miss (front ++ back) env = match execAll miss front env with
      | .error e => .error e
      | .ok env => execAll miss back env := by
  induction front generalizing env with
  | nil => rfl
  | cons i rest ih =>
    simp only [List.cons_append, execAll]
    cases exec miss i env with
    | error e => rfl
    | ok env => exact ih

theorem execAll_cons_ok {i : Instr V E} {rest : List (Instr V E)} {out : Env V} :
    execAll miss (i :: rest) env = .ok out ↔
      ∃ mid, exec miss i env = .ok mid ∧ execAll miss rest mid = .ok out := by
  simp only [execAll]
  cases exec miss i env <;> simp

theorem execAll_append_ok {front back : List (Instr V E)} {out : Env V} :
    execAll miss (front ++ back) env = .ok out ↔
      ∃ mid, execAll miss front env = .ok mid ∧ execAll miss back mid = .ok out := by
  rw [execAll_append]
  cases execAll miss front env <;> simp

theorem exec_other {i : Instr V E} {out : Env V} (h : exec miss i env = .ok out) {id : Nat}
    (other : id ∉ i.writes) : out id = env id := by
  obtain ⟨_, outs, _, _, rfl⟩ := exec_ok.mp h
  exact assign_other other

theorem execAll_other {is : List (Instr V E)} {out : Env V} (h : execAll miss is env = .ok out)
    {id : Nat} (other : ¬ Writes is id) : out id = env id := by
  induction is generalizing env with
  | nil =>
    cases h
    rfl
  | cons i rest ih =>
    obtain ⟨mid, first, tail⟩ := execAll_cons_ok.mp h
    rw [ih tail fun ⟨j, mem, writes⟩ => other ⟨j, List.mem_cons_of_mem _ mem, writes⟩]
    exact exec_other first fun mem => other ⟨i, List.mem_cons_self .., mem⟩

theorem exec_agree {i : Instr V E} {out : Env V} (full : Full i) (agree : AgreeOn ids env env')
    (sub : ∀ id ∈ i.reads, ids id) (h : exec miss i env = .ok out) :
    ∃ out', exec miss i env' = .ok out' ∧
      AgreeOn (fun id => ids id ∨ id ∈ i.writes) out out' := by
  obtain ⟨vs, outs, fetched, ran, rfl⟩ := exec_ok.mp h
  refine ⟨assign env' i.writes outs, ?_, ?_⟩
  · exact exec_ok.mpr ⟨vs, outs, by rw [← fetch_agree agree sub, fetched], ran, rfl⟩
  · rintro id (old | new)
    · exact assign_agree agree id old
    · exact assign_written (full vs outs (fetch_length fetched) ran) new

/-- `Closed ids is`: every read is of `ids` or of something written before. -/
def Closed : (Nat → Prop) → List (Instr V E) → Prop
  | _, [] => True
  | ids, i :: rest => (∀ id ∈ i.reads, ids id) ∧ Closed (fun id => ids id ∨ id ∈ i.writes) rest

theorem closed_mono {ids' : Nat → Prop} {is : List (Instr V E)} (sub : ∀ id, ids id → ids' id)
    (closed : Closed ids is) : Closed ids' is := by
  induction is generalizing ids ids' with
  | nil => trivial
  | cons i rest ih =>
    constructor
    · intro id read
      exact sub id (closed.1 id read)
    · refine ih ?_ closed.2
      rintro id (old | new)
      · exact Or.inl (sub id old)
      · exact Or.inr new

theorem execAll_agree {is : List (Instr V E)} {out : Env V} (full : ∀ i ∈ is, Full i)
    (agree : AgreeOn ids env env') (closed : Closed ids is) (h : execAll miss is env = .ok out) :
    ∃ out', execAll miss is env' = .ok out' ∧
      AgreeOn (fun id => ids id ∨ Writes is id) out out' := by
  induction is generalizing env env' ids with
  | nil =>
    cases h
    refine ⟨env', rfl, ?_⟩
    rintro id (old | ⟨i, mem, _⟩)
    · exact agree id old
    · cases mem
  | cons i rest ih =>
    obtain ⟨mid, first, tail⟩ := execAll_cons_ok.mp h
    obtain ⟨mid', first', agree'⟩ := exec_agree (full i (List.mem_cons_self ..)) agree closed.1 first
    obtain ⟨out', tail', final⟩ :=
      ih (fun j mem => full j (List.mem_cons_of_mem _ mem)) agree' closed.2 tail
    refine ⟨out', execAll_cons_ok.mpr ⟨mid', first', tail'⟩, ?_⟩
    rintro id (old | ⟨j, mem, writes⟩)
    · exact final id (Or.inl (Or.inl old))
    · rcases List.mem_cons.mp mem with rfl | later
      · exact final id (Or.inl (Or.inr writes))
      · exact final id (Or.inr ⟨j, later, writes⟩)

theorem closed_of_subset {is : List (Instr V E)} (sub : ∀ i ∈ is, ∀ id ∈ i.reads, ids id) :
    Closed ids is := by
  induction is generalizing ids with
  | nil => trivial
  | cons i rest ih =>
    exact ⟨sub i (List.mem_cons_self ..),
      ih fun j mem id read => Or.inl (sub j (List.mem_cons_of_mem _ mem) id read)⟩

theorem execAll_present {is : List (Instr V E)} {out : Env V} (full : ∀ i ∈ is, Full i)
    (h : execAll miss is env = .ok out) {id : Nat} (there : (env id).isSome ∨ Writes is id) :
    (out id).isSome := by
  induction is generalizing env with
  | nil =>
    cases h
    rcases there with there | ⟨i, mem, _⟩
    · exact there
    · cases mem
  | cons i rest ih =>
    obtain ⟨mid, first, tail⟩ := execAll_cons_ok.mp h
    obtain ⟨vs, outs, fetched, ran, rfl⟩ := exec_ok.mp first
    apply ih (fun j mem => full j (List.mem_cons_of_mem _ mem)) tail
    rcases there with there | ⟨j, mem, writes⟩
    · exact Or.inl (assign_keeps there)
    · rcases List.mem_cons.mp mem with rfl | later
      · exact Or.inl (assign_present
          (full j (List.mem_cons_self ..) vs outs (fetch_length fetched) ran) writes)
      · exact Or.inr ⟨j, later, writes⟩

theorem execAll_found {is : List (Instr V E)} {raised : E → Prop} (full : ∀ i ∈ is, Full i)
    (raises : ∀ i ∈ is, ∀ vs e, i.run vs = .error e → raised e) (closed : Closed ids is)
    (present : ∀ id, ids id → (env id).isSome) {e : E} (h : execAll miss is env = .error e) :
    raised e := by
  induction is generalizing env ids with
  | nil => cases h
  | cons i rest ih =>
    obtain ⟨vs, fetched⟩ : ∃ vs, fetch miss env i.reads = .ok vs :=
      fetch_present fun id mem => present id (closed.1 id mem)
    simp only [execAll, exec, fetched] at h
    cases ran : i.run vs with
    | error e' =>
      simp only [ran, Except.error.injEq] at h
      exact h ▸ raises i (List.mem_cons_self ..) vs e' ran
    | ok outs =>
      simp only [ran] at h
      refine ih (fun j mem => full j (List.mem_cons_of_mem _ mem))
        (fun j mem => raises j (List.mem_cons_of_mem _ mem)) closed.2 ?_ h
      rintro id (old | new)
      · exact assign_keeps (present id old)
      · exact assign_present (full i (List.mem_cons_self ..) vs outs (fetch_length fetched) ran) new

theorem lookup_of_mem {β : Type} {entries : List (Nat × β)} (distinct : (entries.map Prod.fst).Nodup)
    {id : Nat} {d : β} (mem : (id, d) ∈ entries) : entries.lookup id = some d := by
  induction entries with
  | nil => cases mem
  | cons entry rest ih =>
    obtain ⟨k, x⟩ := entry
    obtain ⟨fresh, distinct⟩ := List.nodup_cons.mp distinct
    rcases List.mem_cons.mp mem with same | later
    · cases same
      simp
    · have ne : id ≠ k := by
        intro same
        subst same
        exact fresh (List.mem_map.mpr ⟨(id, d), later, rfl⟩)
      simp only [List.lookup_cons]
      split
      · rename_i eq
        exact absurd (by simpa using eq) ne
      · exact ih distinct later

def Le (env env' : Env V) : Prop := ∀ id v, env id = some v → env' id = some v

theorem Le.refl (env : Env V) : Le env env := fun _ _ value => value

theorem Le.trans {env₁ env₂ env₃ : Env V} (first : Le env₁ env₂) (second : Le env₂ env₃) :
    Le env₁ env₃ :=
  fun id v value => second id v (first id v value)

theorem le_update {x : Nat} (unset : env x = none) (v : V) :
    Le env (Function.update env x (some v)) := by
  intro id w value
  refine (Function.update_of_ne ?_ _ _).trans value
  rintro rfl
  rw [unset] at value
  cases value

theorem le_assign {writes : List Nat} {vs : List V} (unset : ∀ id ∈ writes, env id = none) :
    Le env (assign env writes vs) := by
  intro id v value
  refine (assign_other fun mem => ?_).trans value
  rw [unset id mem] at value
  cases value

theorem fetch_le (le : Le env env') {reads : List Nat} {vs : List V}
    (fetched : fetch miss env reads = .ok vs) : fetch miss env' reads = .ok vs := by
  rw [fetch_ok_iff] at fetched ⊢
  induction reads generalizing vs with
  | nil => simpa using fetched
  | cons id rest ih =>
    cases vs with
    | nil => simp at fetched
    | cons v vs =>
      simp only [List.map_cons, List.cons.injEq] at fetched ⊢
      exact ⟨le id v fetched.1, ih fetched.2⟩

theorem assign_update {writes : List Nat} {vs : List V} {x : Nat}
    (unset : assign env writes vs x = none) (u : Option V) :
    assign (Function.update env x u) writes vs = Function.update (assign env writes vs) x u := by
  induction writes generalizing env vs with
  | nil => simp [assign]
  | cons id rest ih =>
    cases vs with
    | nil => rfl
    | cons v vs =>
      have apart : id ≠ x := by
        rintro rfl
        have set : (assign (Function.update env id (some v)) rest vs id).isSome :=
          assign_keeps (by simp)
        rw [assign] at unset
        simp [unset] at set
      simp only [assign]
      rw [Function.update_comm apart.symm]
      exact ih unset

theorem execAll_unset {is : List (Instr V E)} {out : Env V} (h : execAll miss is env = .ok out)
    {x : Nat} (unset : out x = none) : env x = none := by
  induction is generalizing env with
  | nil =>
    cases h
    exact unset
  | cons i rest ih =>
    obtain ⟨mid, first, tail⟩ := execAll_cons_ok.mp h
    obtain ⟨_, outs, _, _, rfl⟩ := exec_ok.mp first
    by_contra set
    have kept : (assign env i.writes outs x).isSome :=
      assign_keeps (Option.ne_none_iff_isSome.mp set)
    simp [ih tail] at kept

theorem execAll_update {is : List (Instr V E)} {out : Env V} (h : execAll miss is env = .ok out)
    {x : Nat} (unset : out x = none) (v : V) :
    execAll miss is (Function.update env x (some v)) = .ok (Function.update out x (some v)) := by
  induction is generalizing env with
  | nil =>
    cases h
    rfl
  | cons i rest ih =>
    have before := execAll_unset h unset
    obtain ⟨mid, first, tail⟩ := execAll_cons_ok.mp h
    obtain ⟨vs, outs, fetched, ran, rfl⟩ := exec_ok.mp first
    refine execAll_cons_ok.mpr ⟨_, exec_ok.mpr ⟨vs, outs, ?_, ran, rfl⟩, ?_⟩
    · exact fetch_le (le_update before v) fetched
    · rw [assign_update (execAll_unset tail unset)]
      exact ih tail

section Related
variable {W : Type} {R : V → W → Prop} {envW : Env W}

def Related (R : V → W → Prop) (ids : Nat → Prop) (env : Env V) (envW : Env W) : Prop :=
  ∀ id, ids id → Option.Rel R (env id) (envW id)

theorem related_mono {S : V → W → Prop} {ids' : Nat → Prop} (rel : Related R ids env envW)
    (sub : ∀ id, ids' id → ids id)
    (imp : ∀ id v w, ids' id → env id = some v → R v w → S v w) : Related S ids' env envW := by
  intro id mem
  have here := rel id (sub id mem)
  have imp := imp id
  generalize env id = x at here imp
  generalize envW id = y at here
  cases here with
  | none => exact Option.Rel.none
  | some r => exact Option.Rel.some (imp _ _ mem rfl r)

theorem fetch_related (miss : Nat → E) {missW : Nat → E} {reads : List Nat} {ws : List W}
    (rel : Related R (· ∈ reads) env envW) (h : fetch missW envW reads = .ok ws) :
    ∃ vs, fetch miss env reads = .ok vs ∧ List.Forall₂ R vs ws := by
  induction reads generalizing ws with
  | nil =>
    cases h
    exact ⟨[], rfl, List.Forall₂.nil⟩
  | cons id rest ih =>
    have here := rel id (List.mem_cons_self ..)
    have rel_rest : Related R (· ∈ rest) env envW := fun x mem => rel x (List.mem_cons_of_mem _ mem)
    simp only [fetch] at h ⊢
    cases value : envW id with
    | none => simp [value] at h
    | some w =>
      simp only [value] at h here
      cases fetched : fetch missW envW rest with
      | error e => simp [fetched] at h
      | ok rest_ws =>
        simp only [fetched, Except.ok.injEq] at h
        subst h
        obtain ⟨vs, ok, all⟩ := ih rel_rest fetched
        cases value' : env id with
        | none =>
          rw [value'] at here
          cases here
        | some v =>
          rw [value'] at here
          cases here with
          | some r => exact ⟨v :: vs, by simp [ok], List.Forall₂.cons r all⟩

theorem assign_related (writes : List Nat) {vs : List V} {ws : List W}
    (rel : Related R ids env envW) (values : List.Forall₂ R vs ws) :
    Related R ids (assign env writes vs) (assign envW writes ws) := by
  induction writes generalizing env envW vs ws with
  | nil => simpa [assign] using rel
  | cons x rest ih =>
    cases values with
    | nil => simpa [assign] using rel
    | cons here tail =>
      simp only [assign]
      refine ih ?_ tail
      intro id mem
      by_cases same : id = x
      · subst same
        simpa using Option.Rel.some here
      · simpa only [Function.update_of_ne same] using rel id mem

end Related

end StraightLine
