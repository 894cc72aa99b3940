import Mathlib.Algebra.Order.Ring.Int
import Mathlib.Data.List.Basic

/- JSON values as the worker sees them after `json.loads`: Python objects, with
   Python's notions of `isinstance`, equality, hashing and attribute access. -/
namespace NxTinygrad

/-- `float m e` is the finite float `m * 2 ^ e`; `nonFinite` an infinity or NaN. -/
inductive Json where
  | null
  | bool (b : Bool)
  | int (n : Int)
  | float (m e : Int)
  | nonFinite
  | str (s : String)
  | arr (items : List Json)
  | obj (fields : List (String × Json))
  deriving Repr

namespace Json

/-- `isinstance(x, int)`: True and False are the integers 1 and 0. -/
def int? : Json → Option Int
  | .bool b => some (if b then 1 else 0)
  | .int n => some n
  | _ => none

def nat? (j : Json) : Option Nat := j.int?.bind fun n => if 0 ≤ n then some n.toNat else none

def number? : Json → Option Int
  | .float m e =>
      if 0 ≤ e then some (m * 2 ^ e.toNat)
      else if m % 2 ^ (-e).toNat = 0 then some (m / 2 ^ (-e).toNat) else none
  | j => j.int?

def items? : Json → Option (List Json)
  | .arr items => some items
  | _ => none

def str? : Json → Option String
  | .str s => some s
  | _ => none

def isObj : Json → Bool
  | .obj _ => true
  | _ => false

def field? (j : Json) (key : String) : Option Json :=
  match j with
  | .obj fields => fields.lookup key
  | _ => none

mutual
def depth : Json → Nat
  | .arr items => depthItems items + 1
  | .obj fields => depthFields fields + 1
  | _ => 0

def depthItems : List Json → Nat
  | [] => 0
  | j :: rest => max j.depth (depthItems rest)

def depthFields : List (String × Json) → Nat
  | [] => 0
  | (_, j) :: rest => max j.depth (depthFields rest)
end

theorem depth_le_items {j : Json} {items : List Json} (h : j ∈ items) :
    j.depth ≤ depthItems items := by
  induction items with
  | nil => cases h
  | cons x rest ih =>
    simp only [depthItems]
    rcases List.mem_cons.mp h with rfl | mem
    · exact Nat.le_max_left _ _
    · exact Nat.le_trans (ih mem) (Nat.le_max_right _ _)

theorem depth_items_lt {j x : Json} {items : List Json} (h : j.items? = some items)
    (mem : x ∈ items) : x.depth < j.depth := by
  cases j with
  | arr items' =>
    cases h
    have le := depth_le_items mem
    simp only [depth]
    omega
  | _ => cases h

theorem depth_le_fields {key : String} {j : Json} {fields : List (String × Json)}
    (h : fields.lookup key = some j) : j.depth ≤ depthFields fields := by
  induction fields with
  | nil => cases h
  | cons entry rest ih =>
    obtain ⟨k, x⟩ := entry
    simp only [depthFields]
    by_cases same : key == k
    · simp only [List.lookup_cons, same] at h
      cases h
      exact Nat.le_max_left _ _
    · simp only [List.lookup_cons, same] at h
      exact Nat.le_trans (ih h) (Nat.le_max_right _ _)

theorem depth_field_lt {j x : Json} {key : String} (h : j.field? key = some x) :
    x.depth < j.depth := by
  cases j with
  | obj fields =>
    have le := depth_le_fields h
    simp only [depth]
    omega
  | _ => cases h

end Json

inductive Violation where
  | notObject
  | version (found : Json)
  | notList (key : String)
  | tooManyNodes (limit : Nat)
  | invalidId (entity : String)
  | duplicateId (id : Nat) (entity : String)
  | inputIndex
  | invalidShape (entity : String)
  | unsupportedDtype (entity : String) (found : Json)
  | inputIndicesNotUnique
  | valueAndData
  | dataIndexRange (found : Json)
  | blobSize (expected actual : Nat)
  | unsupportedOp (found : Json)
  | nodeInputsNotList
  | undefinedRef (ref : Json)
  | attrsNotObject
  | whileWithoutOutputs
  | noOutputs
  | undefinedOutput (ref : Json)
  | outputShape
  | outputDtype
  | subNotObject
  | subNotList (key : String)
  | subNoOutputs
  deriving Repr

/-- The exceptions that can come out of `validate`. -/
inductive PyError where
  | graphValidation (v : Violation)
  | attributeError
  | typeError
  | keyError
  | recursionError
  deriving Repr

def check (cond : Bool) (v : Violation) : Except PyError Unit :=
  if cond then .ok () else .error (.graphValidation v)

@[simp] theorem check_ok {cond : Bool} {v : Violation} {u : Unit} :
    check cond v = .ok u ↔ cond = true := by
  unfold check
  split <;> simp_all

def forEach {α : Type} (f : α → Except PyError Unit) : List α → Except PyError Unit
  | [] => .ok ()
  | x :: rest => (f x).bind fun _ => forEach f rest

theorem bind_ok {α β : Type} {x : Except PyError α} {f : α → Except PyError β} {b : β} :
    x.bind f = .ok b ↔ ∃ a, x = .ok a ∧ f a = .ok b := by
  cases x with
  | error e => simp [Except.bind]
  | ok a => simp [Except.bind]

theorem forEach_ok {α : Type} {f : α → Except PyError Unit} {items : List α} :
    forEach f items = .ok () ↔ ∀ x ∈ items, f x = .ok () := by
  induction items with
  | nil => simp [forEach]
  | cons x rest ih =>
    rw [forEach, bind_ok, List.forall_mem_cons, ← ih]
    exact ⟨fun ⟨_, first, others⟩ => ⟨first, others⟩, fun ⟨first, others⟩ => ⟨(), first, others⟩⟩

theorem bind_error {α β : Type} {x : Except PyError α} {f : α → Except PyError β} {e : PyError}
    (h : x.bind f = .error e) : x = .error e ∨ ∃ a, x = .ok a ∧ f a = .error e := by
  cases x with
  | error e' => exact Or.inl (by simpa [Except.bind] using h)
  | ok a => exact Or.inr ⟨a, rfl, h⟩

def getAttr (j : Json) (key : String) : Except PyError Json :=
  match j with
  | .obj fields => .ok ((fields.lookup key).getD .null)
  | _ => .error .attributeError

def getItem (j : Json) (key : String) : Except PyError Json :=
  match j.field? key with
  | some x => .ok x
  | none => .error .keyError

/-- `x in names` for a set or dictionary of strings: `x` has to be hashable. -/
def isIn (names : List String) : Json → Except PyError Bool
  | .arr _ | .obj _ => .error .typeError
  | .str s => .ok (names.contains s)
  | _ => .ok false

def isDefined (ids : List Nat) : Json → Except PyError Bool
  | .arr _ | .obj _ => .error .typeError
  | j => .ok ((j.number?).any fun n => 0 ≤ n && ids.contains n.toNat)

end NxTinygrad
