import NxTinygrad.Eval
import NxTinygrad.Lowered

/- Which parameters an expression may mention, and why its value does not depend on where in an
   id space it is met. -/
namespace NxTinygrad.Lowering
open IR Interpreter

/-- In one id space, the expression behind each reference and the scope of each parameter: the
    block to whose default it belongs, or the id space itself. -/
structure Scopes where
  table : Ref → Expr
  home : Ref → Option Ref

/-- Expressions of the scope `s`: every reference stands for one expression and every parameter
    belongs to the scope it is mentioned in. -/
inductive Scoped : Scopes → Option Ref → Expr → Prop where
  | mk {scopes s e} (subScopes : List Expr → Scopes) :
      (e.isTuple = false → scopes.table e.tag.ref = e) →
      (∀ t pos, e = .parameter t pos → scopes.home t.ref = s) →
      (∀ c ∈ e.operands s (some e.tag.ref), Scoped scopes c.1 c.2) →
      (∀ sub ∈ e.subs, ∀ x ∈ sub, Scoped (subScopes sub) none x) → Scoped scopes s e

namespace Scoped
variable {scopes : Scopes} {s : Option Ref} {e : Expr}

theorem table (inside : Scoped scopes s e) (kind : e.isTuple = false) :
    scopes.table e.tag.ref = e := by
  cases inside with
  | mk _ named _ _ _ => exact named kind

theorem home {t : Tag} {pos : Nat} (inside : Scoped scopes s (.parameter t pos)) :
    scopes.home t.ref = s := by
  cases inside with
  | mk _ _ owned _ _ => exact owned t pos rfl

theorem operand (inside : Scoped scopes s e) {c : Option Ref × Expr}
    (mem : c ∈ e.operands s (some e.tag.ref)) : Scoped scopes c.1 c.2 := by
  cases inside with
  | mk _ _ _ operands _ => exact operands c mem

theorem sub (inside : Scoped scopes s e) : ∃ subScopes : List Expr → Scopes,
    ∀ sub ∈ e.subs, ∀ x ∈ sub, Scoped (subScopes sub) none x := by
  cases inside with
  | mk subScopes _ _ _ subs => exact ⟨subScopes, subs⟩

theorem inputs {t : Tag} {inputs : List Expr} {default : Expr}
    (inside : Scoped scopes s (.block t inputs default)) : ∀ e ∈ inputs, Scoped scopes s e :=
  fun _ mem => inside.operand (List.mem_cons_of_mem _ (List.mem_map_of_mem mem))

theorem default {t : Tag} {inputs : List Expr} {default : Expr}
    (inside : Scoped scopes s (.block t inputs default)) : Scoped scopes (some t.ref) default :=
  inside.operand (List.mem_cons_self ..)

theorem tuple {es : List Expr} (inside : Scoped scopes s (.tuple es)) :
    ∀ e ∈ es, Scoped scopes s e :=
  fun _ mem => inside.operand (List.mem_map_of_mem mem)

theorem clauses {t : Tag} {clauses : List (Expr × Expr)} {default : Expr}
    (inside : Scoped scopes s (.cond t clauses default)) :
    Scoped scopes s default ∧ ∀ c ∈ clauses, Scoped scopes s c.1 ∧ Scoped scopes s c.2 := by
  have each (c : Expr × Expr) (mem : c ∈ clauses) (x : Expr) (side : x = c.1 ∨ x = c.2) :
      Scoped scopes s x := by
    refine inside.operand (c := (s, x)) (List.mem_cons_of_mem _ (List.mem_flatMap.mpr ⟨c, mem, ?_⟩))
    rcases side with rfl | rfl <;> simp
  exact ⟨inside.operand (List.mem_cons_self ..),
    fun c mem => ⟨each c mem _ (.inl rfl), each c mem _ (.inr rfl)⟩⟩

theorem strip (inside : Scoped scopes s e) : Scoped scopes s e.strip :=
  strip_of (fun _ _ outer => outer.operand (List.mem_singleton.mpr rfl)) inside

theorem plan {args : List Expr} {op : NodeOp} (inside : Scoped scopes s e)
    (plan : e.plan = some (args, op)) : ∀ a ∈ args, Scoped scopes s a := by
  intro a mem
  obtain ⟨x, operand, rfl | rfl⟩ := plan_operand s (some e.tag.ref) plan a mem
  · exact inside.operand operand
  · exact (inside.operand operand : Scoped scopes s x).strip

theorem fold {a acc body : Expr} {op : FoldOp} (inside : Scoped scopes s e)
    (fold : e.fold = some (a, acc, op, body)) :
    (∀ x ∈ [a, acc], Scoped scopes s x) ∧ ∃ subScopes, ∀ x ∈ [body], Scoped subScopes none x := by
  obtain ⟨subScopes, subs⟩ := inside.sub
  obtain ⟨operands, sub⟩ := fold_operand s (some e.tag.ref) fold
  exact ⟨fun x mem => inside.operand (operands x mem), _, subs _ sub⟩

end Scoped

section
variable {V : Type} {S : Sem V} {K : Strategy V} {fuel : Nat} {ρ ρ' : Nat → Option V}

/-- Two assignments under which an expression means the same, as a tensor and as a tuple. -/
def Same (S : Sem V) (K : Strategy V) (fuel : Nat) (ρ ρ' : Nat → Option V) (e : Expr) : Prop :=
  eval S K fuel ρ e = eval S K fuel ρ' e ∧ evalTuple S K fuel ρ e = evalTuple S K fuel ρ' e

theorem evalList_same (es : List Expr) (same : ∀ e ∈ es, Same S K fuel ρ ρ' e) :
    evalList S K fuel ρ es = evalList S K fuel ρ' es := by
  induction es with
  | nil => simp [evalList]
  | cons e rest ih =>
    simp only [evalList, (same e (List.mem_cons_self ..)).1,
      ih fun e mem => same e (List.mem_cons_of_mem _ mem)]

theorem evalClauses_same {t : Tag} {clauses : List (Expr × Expr)}
    {d d' : Except EvalError (List V)} (last : d = d')
    (same : ∀ c ∈ clauses, Same S K fuel ρ ρ' c.1 ∧ Same S K fuel ρ ρ' c.2) :
    evalClauses S K fuel ρ t clauses d = evalClauses S K fuel ρ' t clauses d' := by
  induction clauses with
  | nil => simpa [evalClauses] using last
  | cons c rest ih =>
    obtain ⟨pred, expr⟩ := same c (List.mem_cons_self ..)
    simp only [evalClauses, pred.1, expr.1, ih fun c mem => same c (List.mem_cons_of_mem _ mem)]

theorem evalTupleClauses_same {tags : List Tag} {clauses : List (Expr × Expr)}
    {d d' : Except EvalError (List V)} (last : d = d')
    (same : ∀ c ∈ clauses, Same S K fuel ρ ρ' c.1 ∧ Same S K fuel ρ ρ' c.2) :
    evalTupleClauses S K fuel ρ tags clauses d = evalTupleClauses S K fuel ρ' tags clauses d' := by
  induction clauses with
  | nil => simpa [evalTupleClauses] using last
  | cons c rest ih =>
    obtain ⟨pred, expr⟩ := same c (List.mem_cons_self ..)
    have tail := ih fun c mem => same c (List.mem_cons_of_mem _ mem)
    obtain ⟨p, x⟩ := c
    cases x with
    | tuple es =>
      have elems : evalList S K fuel ρ es = evalList S K fuel ρ' es := by
        simpa only [evalTuple] using expr.2
      simp only [evalTupleClauses, pred.1, elems, tail]
    | _ => simp [evalTupleClauses]

theorem evalDynamic_same (starts : List (Int ⊕ Expr))
    (same : ∀ e ∈ dynamicStarts starts, Same S K fuel ρ ρ' e) :
    evalDynamic S K fuel ρ starts = evalDynamic S K fuel ρ' starts := by
  induction starts with
  | nil => simp [evalDynamic]
  | cons s rest ih =>
    cases s with
    | inl n =>
      simp only [evalDynamic, ih fun e mem => same e (by simpa [dynamicStarts] using mem)]
    | inr e =>
      have tail := ih fun e mem => same e (by
        rw [dynamicStarts, List.filterMap_cons]
        exact List.mem_cons_of_mem _ mem)
      simp only [evalDynamic, (same e (by simp [dynamicStarts])).1, tail]

theorem evalStarts_same (starts : List Expr) (same : ∀ e ∈ starts, Same S K fuel ρ ρ' e) :
    evalStarts S K fuel ρ starts = evalStarts S K fuel ρ' starts := by
  induction starts with
  | nil => simp [evalStarts]
  | cons e rest ih =>
    simp only [evalStarts, (same e (List.mem_cons_self ..)).1,
      ih fun e mem => same e (List.mem_cons_of_mem _ mem)]

theorem Scoped.same {scopes : Scopes} {s s' : Option Ref} {e : Expr} (inside : Scoped scopes s e)
    (inside' : Scoped scopes s' e) (apart : s ≠ s') : Same S K fuel ρ ρ' e := by
  induction inside with
  | @mk scopes s e subScopes named owned operands _ ih _ =>
    have ops {c : Expr} (mem : (s, c) ∈ e.operands s (some e.tag.ref))
        (mem' : (s', c) ∈ e.operands s' (some e.tag.ref)) : Same S K fuel ρ ρ' c :=
      ih _ mem (inside'.operand mem') apart
    cases e with
    | parameter t pos => exact absurd ((owned t pos rfl).symm.trans inside'.home) apart
    | constant t number => exact ⟨by simp only [eval], by simp only [evalTuple]⟩
    | tensor t literal => exact ⟨by simp only [eval], by simp only [evalTuple]⟩
    | metadata t inner =>
      obtain ⟨one, all⟩ := ops (c := inner) (by simp [Expr.operands]) (by simp [Expr.operands])
      exact ⟨by simp only [eval, one], by simp only [evalTuple, all]⟩
    | tuple es =>
      have all := evalList_same es fun e mem =>
        ops (by simpa [Expr.operands] using mem) (by simpa [Expr.operands] using mem)
      exact ⟨by simp only [eval], by simp only [evalTuple, all]⟩
    | elem t src k =>
      obtain ⟨_, all⟩ := ops (c := src) (by simp [Expr.operands]) (by simp [Expr.operands])
      exact ⟨by simp only [eval, all], by simp only [evalTuple]⟩
    | block t inputs default =>
      have args := evalList_same inputs fun e mem =>
        ops (by simp [Expr.operands, mem]) (by simp [Expr.operands, mem])
      cases default with
      | tuple outputs => exact ⟨by simp only [eval, args], by simp only [evalTuple, args]⟩
      | _ => exact ⟨by simp only [eval, args], by simp only [evalTuple]⟩
    | cond t clauses default =>
      obtain ⟨one, all⟩ := ops (c := default) (by simp [Expr.operands]) (by simp [Expr.operands])
      have each : ∀ c ∈ clauses, Same S K fuel ρ ρ' c.1 ∧ Same S K fuel ρ ρ' c.2 := by
        intro c mem
        have inner (x : Expr) (side : x = c.1 ∨ x = c.2) {σ : Type} (a b : σ) :
            (a, x) ∈ (Expr.cond t clauses default).operands a b := by
          refine List.mem_cons_of_mem _ (List.mem_flatMap.mpr ⟨c, mem, ?_⟩)
          rcases side with rfl | rfl <;> simp
        exact ⟨ops (inner _ (.inl rfl) _ _) (inner _ (.inl rfl) _ _),
          ops (inner _ (.inr rfl) _ _) (inner _ (.inr rfl) _ _)⟩
      have value : eval S K fuel ρ (.cond t clauses default) =
          eval S K fuel ρ' (.cond t clauses default) := by
        simp only [eval, evalClauses_same (t := t) (congrArg only one) each]
      refine ⟨value, ?_⟩
      cases default with
      | tuple elems =>
        simp only [evalTuple] at all
        simp only [evalTuple, evalTupleClauses_same all each]
      | _ => simp only [evalTuple]
    | loop t init test body =>
      have state := evalList_same init fun e mem =>
        ops (by simp [Expr.operands, mem]) (by simp [Expr.operands, mem])
      exact ⟨by simp only [eval], by simp only [evalTuple, state]⟩
    | op t o args =>
      have vs := evalList_same args fun e mem =>
        ops (by simp [Expr.operands, mem]) (by simp [Expr.operands, mem])
      exact ⟨by simp only [eval, vs], by simp only [evalTuple]⟩
    | reduce t a acc axes keepAxes body =>
      have first := ops (c := a) (by simp [Expr.operands]) (by simp [Expr.operands])
      have second := ops (c := acc) (by simp [Expr.operands]) (by simp [Expr.operands])
      exact ⟨by simp only [eval, first.1, second.1], by simp only [evalTuple]⟩
    | windowReduce t a acc window strides padding dilations body =>
      have first := ops (c := a) (by simp [Expr.operands]) (by simp [Expr.operands])
      have second := ops (c := acc) (by simp [Expr.operands]) (by simp [Expr.operands])
      exact ⟨by simp only [eval, first.1, second.1], by simp only [evalTuple]⟩
    | slice t a starts lengths strides =>
      have first := ops (c := a) (by simp [Expr.operands]) (by simp [Expr.operands])
      have ss := evalDynamic_same starts
        fun e mem => ops (by simp [Expr.operands, mem]) (by simp [Expr.operands, mem])
      exact ⟨by simp only [eval, first.1, ss], by simp only [evalTuple]⟩
    | putSlice t a starts part =>
      have first := ops (c := a) (by simp [Expr.operands]) (by simp [Expr.operands])
      have second := ops (c := part) (by simp [Expr.operands]) (by simp [Expr.operands])
      have ss := evalStarts_same starts
        fun e mem => ops (by simp [Expr.operands, mem]) (by simp [Expr.operands, mem])
      exact ⟨by simp only [eval, first.1, second.1, ss], by simp only [evalTuple]⟩
    | pad t a value config =>
      have first := ops (c := a) (by simp [Expr.operands]) (by simp [Expr.operands])
      exact ⟨by simp only [eval, first.1], by simp only [evalTuple]⟩
    | windowScatter t o a source init window strides padding =>
      have first := ops (c := a) (by simp [Expr.operands]) (by simp [Expr.operands])
      have second := ops (c := source) (by simp [Expr.operands]) (by simp [Expr.operands])
      exact ⟨by simp only [eval, first.1, second.1], by simp only [evalTuple]⟩
    | other t name => exact ⟨by simp only [eval], by simp only [evalTuple]⟩

/-- The values of the parameters of a scope: those the id space is evaluated with, or those of
    the inputs of the block. -/
inductive EnvOf (S : Sem V) (K : Strategy V) (fuel : Nat) (scopes : Scopes) (params : List V) :
    Option Ref → (Nat → Option V) → Prop where
  | root : EnvOf S K fuel scopes params none (fun pos => params[pos]?)
  | block {s ρ t inputs default args} : EnvOf S K fuel scopes params s ρ →
      Scoped scopes s (.block t inputs default) → evalList S K fuel ρ inputs = .ok args →
      EnvOf S K fuel scopes params (some t.ref) (fun pos => args[pos]?)

theorem EnvOf.unique {scopes : Scopes} {params : List V} {s : Option Ref}
    (env : EnvOf S K fuel scopes params s ρ) (env' : EnvOf S K fuel scopes params s ρ') :
    ρ = ρ' := by
  induction env generalizing ρ' with
  | root => cases env' with | root => rfl
  | @block s₁ ρ₁ t inputs default args outer here ran ih =>
    generalize named : some t.ref = name at env'
    cases env' with
    | root => cases named
    | @block s₂ ρ₂ u inputs' default' args' outer' there ran' =>
      have refs : t.ref = u.ref := Option.some.inj named
      have expr : Expr.block t inputs default = .block u inputs' default' :=
        (here.table rfl).symm.trans ((congrArg scopes.table refs).trans (there.table rfl))
      cases expr
      have args_eq : (Except.ok args : Except EvalError (List V)) = .ok args' := by
        rw [← ran, ← ran']
        by_cases same : s₁ = s₂
        · rw [ih (same ▸ outer')]
        · exact evalList_same inputs fun e mem => (here.inputs e mem).same (there.inputs e mem) same
      cases args_eq
      rfl

theorem EnvOf.same {scopes : Scopes} {params : List V} {s s' : Option Ref} {e : Expr}
    (env : EnvOf S K fuel scopes params s ρ) (env' : EnvOf S K fuel scopes params s' ρ')
    (inside : Scoped scopes s e) (inside' : Scoped scopes s' e) : Same S K fuel ρ ρ' e := by
  by_cases same : s = s'
  · subst same
    rw [env.unique env']
    exact ⟨rfl, rfl⟩
  · exact inside.same inside' same

end

end NxTinygrad.Lowering
