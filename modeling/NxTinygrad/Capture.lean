import NxTinygrad.Validate

/- What executable.py hands to TinyJit, and the classifiers that decide it. -/
namespace NxTinygrad.Capture
open IR

/-- The number of inputs before the dynamic starts, `_DYN_FIRST`. -/
def dynFirst : NodeOp → Option Nat
  | .slice _ _ _ => some 1
  | .putSlice _ => some 2
  | .prim _ _ => none

def requiresEager : Node → Bool
  | .loop _ _ _ _ => true
  | .op _ (.slice _ _ _) inputs _ _ => decide (1 < inputs.length)
  | .op _ (.putSlice _) inputs _ _ => decide (2 < inputs.length)
  | _ => false

def dynStartCount : Node → Nat
  | .op _ op inputs _ _ => ((dynFirst op).map fun first => inputs.length - first).getD 0
  | _ => 0

mutual
def subRequiresEager : SubGraph → Bool
  | .mk _ _ nodes _ => nodesRequireEager nodes

def nodesRequireEager : List Node → Bool
  | [] => false
  | .loop _ _ _ _ :: _ => true
  | .fold _ _ fn _ _ _ :: rest =>
      subRequiresEager fn || fn.nodes.any (fun n => dynStartCount n != 0) || nodesRequireEager rest
  | .op _ _ _ _ _ :: rest => nodesRequireEager rest
end

def nodeJitSafe (node : Node) : Bool :=
  !requiresEager node &&
    match node with
    | .fold _ _ fn _ _ _ =>
        !subRequiresEager fn && !fn.nodes.any (fun n => dynStartCount n != 0)
    | _ => true

structure Use where
  id : Nat
  hi : Nat
  deriving DecidableEq, Repr

def Node.id : Node → Nat
  | .op id _ _ _ _ => id
  | .fold id _ _ _ _ _ => id
  | .loop _ _ _ outputs => (outputs.map (·.id)).headD 0

/-- `shapes` after the nodes of `_symbolic_while_plan`; a while has no shape of its own. -/
def shapeTable (body : SubGraph) : Option (List (Nat × List Nat)) :=
  let known := (body.inputs.map (fun i => (i.id, i.shape)) ++
    body.constants.map fun c => (c.id, c.shape)).reverse
  body.nodes.foldlM (fun table node => match node with
    | .op id _ _ shape _ => some ((id, shape) :: table)
    | .fold id _ _ _ shape _ => some ((id, shape) :: table)
    | .loop _ _ _ _ => none) known

def rewriteStarts (dims spans : List Nat) (dyn : List Nat) :
    Nat → List StartSpec → List Use → Option (List StartSpec × List Use)
  | _, [], uses => some ([], uses)
  | axis, .static n :: rest, uses => do
      let (starts, uses) ← rewriteStarts dims spans dyn (axis + 1) rest uses
      some (.static n :: starts, uses)
  | axis, .input k :: rest, uses => do
      let dim ← dims[axis]?
      let span ← spans[axis]?
      if dim ≤ span then
        let (starts, uses) ← rewriteStarts dims spans dyn (axis + 1) rest uses
        some (.static 0 :: starts, uses)
      else
        let startId ← dyn[k]?
        let (starts, after) ← rewriteStarts dims spans dyn (axis + 1) rest
          (uses ++ [⟨startId, dim - span⟩])
        some (.symbolic uses.length :: starts, after)
  | _, .symbolic _ :: _, _ => none

/-- The loop body of `_symbolic_while_plan` for one node. -/
def rewriteNode (shapes : List (Nat × List Nat)) (node : Node) (uses : List Use) :
    Option (Node × List Use) :=
  if dynStartCount node = 0 then some (node, uses)
  else match node with
    | .op id (.slice starts lengths strides) inputs shape dtype => do
        let dims ← inputs[0]?.bind fun i => shapes.lookup i
        let (starts, uses) ← rewriteStarts dims lengths (inputs.drop 1) 0 starts uses
        some (.op id (.slice starts lengths strides) inputs shape dtype, uses)
    | .op id (.putSlice starts) inputs shape dtype => do
        let dims ← inputs[0]?.bind fun i => shapes.lookup i
        let spans ← inputs[1]?.bind fun i => shapes.lookup i
        let (starts, uses) ← rewriteStarts dims spans (inputs.drop 2) 0 starts uses
        some (.op id (.putSlice starts) inputs shape dtype, uses)
    | _ => some (node, uses)

def rewriteNodes (shapes : List (Nat × List Nat)) :
    List Node → List Use → Option (List Node × List Use)
  | [], uses => some ([], uses)
  | node :: rest, uses => do
      let (node, uses) ← rewriteNode shapes node uses
      let (rest, uses) ← rewriteNodes shapes rest uses
      some (node :: rest, uses)

/-- The reversed pass: the nodes some of `needed` depends on, and all ids they need. -/
def ancestors : List Node → List Nat → List Node × List Nat
  | [], needed => ([], needed)
  | node :: rest, needed =>
      let (kept, needed) := ancestors rest needed
      if Node.id node ∈ needed then (node :: kept, needed ++ node.inputs) else (kept, needed)

structure Plan where
  symBody : SubGraph
  uses : List Use
  ancNodes : List Node
  ancConsts : List Constant

def symbolicWhilePlan (body : SubGraph) : Option Plan := do
  let shapes ← shapeTable body
  let (nodes, uses) ← rewriteNodes shapes body.nodes []
  let (ancNodes, needed) := ancestors body.nodes (uses.map (·.id))
  some ⟨.mk body.inputs body.constants nodes body.outputs, uses, ancNodes,
    body.constants.filter fun c => c.id ∈ needed⟩

inductive Group where
  | jit (nodes : List Node)
  | eager (node : Node)

def flush (current : List Node) : List Group :=
  if current.isEmpty then [] else [.jit current]

def planGroups : List Node → List Node → List Group
  | [], current => flush current
  | node :: rest, current =>
      if nodeJitSafe node then planGroups rest (current ++ [node])
      else flush current ++ .eager node :: planGroups rest []

def readsStart (starts : List StartSpec) (first : Nat) (inputs : List Nat) : Bool :=
  starts.any fun
    | .input k => decide (first + k < inputs.length)
    | _ => false

mutual
/-- Evaluating the node reads a runtime scalar: a while reads its condition, a dynamic
    slice its starts, and a fold whatever its function reads, at any depth. -/
def readsScalar : Node → Bool
  | .loop _ _ _ _ => true
  | .fold _ _ fn _ _ _ => subReadsScalar fn
  | .op _ (.slice starts _ _) inputs _ _ => readsStart starts 1 inputs
  | .op _ (.putSlice starts) inputs _ _ => readsStart starts 2 inputs
  | .op _ (.prim _ _) _ _ _ => false

def subReadsScalar : SubGraph → Bool
  | .mk _ _ nodes _ => nodesReadScalar nodes

def nodesReadScalar : List Node → Bool
  | [] => false
  | node :: rest => readsScalar node || nodesReadScalar rest
end

mutual
def loopBodies : Node → List SubGraph
  | .loop _ cond body _ => body :: (subLoopBodies cond ++ subLoopBodies body)
  | .fold _ _ fn _ _ _ => subLoopBodies fn
  | .op _ _ _ _ _ => []

def subLoopBodies : SubGraph → List SubGraph
  | .mk _ _ nodes _ => nodesLoopBodies nodes

def nodesLoopBodies : List Node → List SubGraph
  | [] => []
  | node :: rest => loopBodies node ++ nodesLoopBodies rest
end

/-- The node list of the step `_make_while_step` hands to TinyJit, if it makes one. -/
def stepSite (body : SubGraph) : Option (List Node) :=
  if subRequiresEager body then none else (symbolicWhilePlan body).map fun p => p.symBody.nodes

def Group.site : Group → Option (List Node)
  | .jit nodes => some nodes
  | .eager _ => none

def eager (g : Graph) : Bool := g.nodes.any requiresEager

def wholeGraphSite (g : Graph) : List (List Node) :=
  if g.inputs.isEmpty || eager g then [] else [g.nodes]

def segmentSites (g : Graph) : List (List Node) :=
  if eager g then (planGroups g.nodes []).filterMap Group.site else []

def captureSites (g : Graph) : List (List Node) :=
  wholeGraphSite g ++ segmentSites g ++ (nodesLoopBodies g.nodes).filterMap stepSite

theorem rewriteStarts_reads {dims spans dyn : List Nat} {axis : Nat} {starts new : List StartSpec}
    {uses after : List Use} (h : rewriteStarts dims spans dyn axis starts uses = some (new, after)) :
    ∀ k, StartSpec.input k ∉ new := by
  induction starts generalizing axis uses new after with
  | nil =>
    simp only [rewriteStarts, Option.some.injEq, Prod.mk.injEq] at h
    obtain ⟨rfl, _⟩ := h
    simp
  | cons spec rest ih =>
    intro k
    cases spec with
    | static n =>
      simp only [rewriteStarts, Option.bind_eq_bind, Option.bind_eq_some_iff] at h
      obtain ⟨⟨starts, uses'⟩, tail, same⟩ := h
      simp only [Option.some.injEq, Prod.mk.injEq] at same
      obtain ⟨rfl, _⟩ := same
      simpa using ih tail k
    | input j =>
      simp only [rewriteStarts, Option.bind_eq_bind, Option.bind_eq_some_iff] at h
      obtain ⟨dim, _, span, _, h⟩ := h
      split at h
      · obtain ⟨⟨starts, uses'⟩, tail, same⟩ := Option.bind_eq_some_iff.mp h
        simp only [Option.some.injEq, Prod.mk.injEq] at same
        obtain ⟨rfl, _⟩ := same
        simpa using ih tail k
      · obtain ⟨startId, _, h⟩ := Option.bind_eq_some_iff.mp h
        obtain ⟨⟨starts, uses'⟩, tail, same⟩ := Option.bind_eq_some_iff.mp h
        simp only [Option.some.injEq, Prod.mk.injEq] at same
        obtain ⟨rfl, _⟩ := same
        simpa using ih tail k
    | symbolic j => simp [rewriteStarts] at h

theorem readsStart_of_no_input {starts : List StartSpec} {first : Nat} {inputs : List Nat}
    (h : ∀ k, StartSpec.input k ∉ starts) : readsStart starts first inputs = false := by
  simp only [readsStart, List.any_eq_false]
  intro spec mem
  cases spec with
  | input k => exact absurd mem (h k)
  | _ => simp

theorem readsStart_of_short {starts : List StartSpec} {first : Nat} {inputs : List Nat}
    (h : inputs.length - first = 0) : readsStart starts first inputs = false := by
  simp only [readsStart, List.any_eq_false]
  intro spec _
  cases spec with
  | input k =>
    simp only [decide_eq_true_eq]
    omega
  | _ => simp

theorem readsScalar_of_no_dyn {id : Nat} {op : NodeOp} {inputs shape : List Nat} {dtype : Dtype}
    (h : dynStartCount (.op id op inputs shape dtype) = 0) :
    readsScalar (.op id op inputs shape dtype) = false := by
  cases op with
  | prim op attrs => rfl
  | slice starts lengths strides => exact readsStart_of_short h
  | putSlice starts => exact readsStart_of_short h

theorem rewriteNode_op_reads {shapes : List (Nat × List Nat)} {id : Nat} {op : NodeOp}
    {inputs shape : List Nat} {dtype : Dtype} {new : Node} {uses after : List Use}
    (h : rewriteNode shapes (.op id op inputs shape dtype) uses = some (new, after)) :
    readsScalar new = false := by
  unfold rewriteNode at h
  split at h
  · rename_i none
    simp only [Option.some.injEq, Prod.mk.injEq] at h
    obtain ⟨rfl, _⟩ := h
    exact readsScalar_of_no_dyn none
  · rename_i some_dyn
    cases op with
    | prim op attrs => exact absurd rfl some_dyn
    | slice starts lengths strides =>
      simp only [Option.bind_eq_bind, Option.bind_eq_some_iff] at h
      obtain ⟨dims, _, ⟨starts', uses'⟩, tail, same⟩ := h
      simp only [Option.some.injEq, Prod.mk.injEq] at same
      obtain ⟨rfl, _⟩ := same
      exact readsStart_of_no_input (rewriteStarts_reads tail)
    | putSlice starts =>
      simp only [Option.bind_eq_bind, Option.bind_eq_some_iff] at h
      obtain ⟨dims, _, spans, _, ⟨starts', uses'⟩, tail, same⟩ := h
      simp only [Option.some.injEq, Prod.mk.injEq] at same
      obtain ⟨rfl, _⟩ := same
      exact readsStart_of_no_input (rewriteStarts_reads tail)

mutual
theorem subReads_of_safe {fn : SubGraph} (sub : subRequiresEager fn = false)
    (dyn : fn.nodes.any (fun n => dynStartCount n != 0) = false) : subReadsScalar fn = false := by
  cases fn with
  | mk inputs constants nodes outputs => exact nodesRead_of_safe nodes sub dyn

theorem nodesRead_of_safe : (nodes : List Node) → (sub : nodesRequireEager nodes = false) →
    (dyn : nodes.any (fun n => dynStartCount n != 0) = false) → nodesReadScalar nodes = false
  | [], _, _ => rfl
  | .loop _ _ _ _ :: _, sub, _ => by simp [nodesRequireEager] at sub
  | .fold _ _ fn _ _ _ :: rest, sub, dyn => by
      simp only [nodesRequireEager, Bool.or_eq_false_iff] at sub
      simp only [List.any_cons, Bool.or_eq_false_iff] at dyn
      simp only [nodesReadScalar, readsScalar, Bool.or_eq_false_iff]
      exact ⟨subReads_of_safe sub.1.1 sub.1.2, nodesRead_of_safe rest sub.2 dyn.2⟩
  | .op id op inputs shape dtype :: rest, sub, dyn => by
      simp only [nodesRequireEager] at sub
      simp only [List.any_cons, Bool.or_eq_false_iff, bne_eq_false_iff_eq] at dyn
      simp only [nodesReadScalar, Bool.or_eq_false_iff]
      exact ⟨readsScalar_of_no_dyn dyn.1, nodesRead_of_safe rest sub dyn.2⟩
end

theorem rewriteNodes_reads {shapes : List (Nat × List Nat)} {nodes new : List Node}
    {uses after : List Use} (safe : nodesRequireEager nodes = false)
    (h : rewriteNodes shapes nodes uses = some (new, after)) : nodesReadScalar new = false := by
  induction nodes generalizing uses new after with
  | nil =>
    simp only [rewriteNodes, Option.some.injEq, Prod.mk.injEq] at h
    obtain ⟨rfl, _⟩ := h
    rfl
  | cons node rest ih =>
    simp only [rewriteNodes, Option.bind_eq_bind, Option.bind_eq_some_iff] at h
    obtain ⟨⟨node', uses'⟩, first, ⟨rest', uses''⟩, tail, same⟩ := h
    simp only [Option.some.injEq, Prod.mk.injEq] at same
    obtain ⟨rfl, _⟩ := same
    simp only [nodesReadScalar, Bool.or_eq_false_iff]
    cases node with
    | loop inputs cond body outputs => simp [nodesRequireEager] at safe
    | op id op inputs shape dtype =>
      simp only [nodesRequireEager] at safe
      exact ⟨rewriteNode_op_reads first, ih safe tail⟩
    | fold id op fn inputs shape dtype =>
      simp only [nodesRequireEager, Bool.or_eq_false_iff] at safe
      simp only [rewriteNode, dynStartCount, if_true, Option.some.injEq, Prod.mk.injEq] at first
      obtain ⟨rfl, _⟩ := first
      exact ⟨subReads_of_safe safe.1.1 safe.1.2, ih safe.2 tail⟩

theorem stepSite_reads {body : SubGraph} {site : List Node} (h : stepSite body = some site) :
    nodesReadScalar site = false := by
  unfold stepSite at h
  split at h
  · cases h
  · rename_i safe
    obtain ⟨plan, planned, rfl⟩ := Option.map_eq_some_iff.mp h
    simp only [symbolicWhilePlan, Option.bind_eq_bind, Option.bind_eq_some_iff] at planned
    obtain ⟨shapes, _, ⟨nodes, uses⟩, rewritten, same⟩ := planned
    obtain rfl := Option.some.inj same
    cases body with
    | mk inputs constants old outputs =>
      have safe : nodesRequireEager old = false := by simpa [subRequiresEager] using safe
      exact rewriteNodes_reads safe rewritten

theorem readsScalar_of_jitSafe {node : Node} (h : nodeJitSafe node = true) :
    readsScalar node = false := by
  cases node with
  | loop inputs cond body outputs => simp [nodeJitSafe, requiresEager] at h
  | fold id op fn inputs shape dtype =>
    simp only [nodeJitSafe, Bool.and_eq_true, Bool.not_eq_true'] at h
    exact subReads_of_safe h.2.1 h.2.2
  | op id op inputs shape dtype =>
    apply readsScalar_of_no_dyn
    cases op with
    | prim op attrs => rfl
    | slice starts lengths strides =>
      simp only [nodeJitSafe, requiresEager, Bool.and_true, Bool.not_eq_true',
        decide_eq_false_iff_not] at h
      simp only [dynStartCount, dynFirst, Option.map_some, Option.getD_some]
      omega
    | putSlice starts =>
      simp only [nodeJitSafe, requiresEager, Bool.and_true, Bool.not_eq_true',
        decide_eq_false_iff_not] at h
      simp only [dynStartCount, dynFirst, Option.map_some, Option.getD_some]
      omega

theorem nodesReadScalar_false {nodes : List Node} :
    nodesReadScalar nodes = false ↔ ∀ n ∈ nodes, readsScalar n = false := by
  induction nodes with
  | nil => simp [nodesReadScalar]
  | cons n rest ih => simp [nodesReadScalar, ih]

theorem planGroups_jit_safe {nodes current : List Node} {site : List Node}
    (safe : ∀ n ∈ current, nodeJitSafe n = true) (h : .jit site ∈ planGroups nodes current) :
    ∀ n ∈ site, nodeJitSafe n = true := by
  have flushed : .jit site ∈ flush current → ∀ n ∈ site, nodeJitSafe n = true := by
    intro mem
    unfold flush at mem
    split at mem
    · cases mem
    · cases List.mem_singleton.mp mem
      exact safe
  induction nodes generalizing current with
  | nil => exact flushed h
  | cons node rest ih =>
    simp only [planGroups] at h
    split at h
    · rename_i jit
      have safe' : ∀ n ∈ current ++ [node], nodeJitSafe n = true := by
        intro n mem
        rcases List.mem_append.mp mem with old | new
        · exact safe n old
        · rw [List.mem_singleton.mp new]
          exact jit
      refine ih safe' h ?_
      intro mem
      unfold flush at mem
      split at mem
      · cases mem
      · cases List.mem_singleton.mp mem
        exact safe'
    · rcases List.mem_append.mp h with old | mem
      · exact flushed old
      · rcases List.mem_cons.mp mem with eq | later
        · cases eq
        · exact ih (by simp) later (by simp [flush])

theorem segment_reads {g : Graph} {site : List Node} (h : site ∈ segmentSites g) :
    nodesReadScalar site = false := by
  unfold segmentSites at h
  split at h
  · obtain ⟨group, mem, same⟩ := List.mem_filterMap.mp h
    cases group with
    | eager node => cases same
    | jit nodes =>
      cases same
      have safe := planGroups_jit_safe (by simp) mem
      exact nodesReadScalar_false.mpr fun n here => readsScalar_of_jitSafe (safe n here)
  · cases h

/-- What a reduce or window_reduce function evaluates. -/
def foldFnReads : Node → Bool
  | .fold _ _ fn _ _ _ => subReadsScalar fn
  | _ => false

theorem readsScalar_of_not_eager {node : Node} (h : requiresEager node = false) :
    readsScalar node = foldFnReads node := by
  cases node with
  | loop inputs cond body outputs => simp [requiresEager] at h
  | fold id op fn inputs shape dtype => rfl
  | op id op inputs shape dtype =>
    apply readsScalar_of_jitSafe
    simp [nodeJitSafe, h]

theorem wholeGraph_reads {g : Graph} : (∀ site ∈ wholeGraphSite g, nodesReadScalar site = false) ↔
    g.inputs = [] ∨ (∃ n ∈ g.nodes, requiresEager n = true) ∨
      ∀ n ∈ g.nodes, foldFnReads n = false := by
  unfold wholeGraphSite
  by_cases none : g.inputs = []
  · simp [none]
  · cases ran : eager g with
    | true =>
      have some_eager : ∃ n ∈ g.nodes, requiresEager n = true := List.any_eq_true.mp ran
      simp [some_eager]
    | false =>
      have all : ∀ n ∈ g.nodes, requiresEager n = false := by
        simpa [eager] using ran
      have not_eager : ¬ ∃ n ∈ g.nodes, requiresEager n = true := by
        rintro ⟨n, mem, yes⟩
        rw [all n mem] at yes
        cases yes
      have single : ∀ site, site ∈ (if g.inputs.isEmpty || false then [] else [g.nodes]) ↔
          site = g.nodes := by
        intro site
        simp [none]
      simp only [single, forall_eq, none, not_eager, false_or, nodesReadScalar_false]
      constructor
      · intro reads n mem
        rw [← readsScalar_of_not_eager (all n mem)]
        exact reads n mem
      · intro reads n mem
        rw [readsScalar_of_not_eager (all n mem)]
        exact reads n mem

/-- No function handed to TinyJit evaluates a scalar read. -/
def CapturesSound (g : Graph) : Prop := ∀ site ∈ captureSites g, nodesReadScalar site = false

theorem captures_sound_iff (g : Graph) : CapturesSound g ↔
    g.inputs = [] ∨ (∃ n ∈ g.nodes, requiresEager n = true) ∨
      ∀ n ∈ g.nodes, foldFnReads n = false := by
  rw [← wholeGraph_reads]
  constructor
  · intro sound site mem
    exact sound site (by simp [captureSites, mem])
  · intro whole site mem
    simp only [captureSites, List.mem_append] at mem
    rcases mem with (here | segment) | step
    · exact whole site here
    · exact segment_reads segment
    · obtain ⟨body, _, made⟩ := List.mem_filterMap.mp step
      exact stepSite_reads made

def countdownReduce : Graph where
  inputs := [⟨0, 0, [2], .f32⟩, ⟨1, 1, [], .f32⟩]
  constants := []
  nodes := [.fold 2 (.reduce [0] false)
    (.mk [⟨0, 0, [], .f32⟩, ⟨1, 1, [], .f32⟩] []
      [.loop [0, 1]
        (.mk [⟨0, 0, [], .f32⟩, ⟨1, 1, [], .f32⟩] [] [] [⟨1, [], .f32⟩])
        (.mk [⟨0, 0, [], .f32⟩, ⟨1, 1, [], .f32⟩] []
          [.op 2 (.prim (.binary .add) []) [0, 1] [] .f32,
            .op 3 (.prim (.binary .subtract) []) [1, 1] [] .f32]
          [⟨2, [], .f32⟩, ⟨3, [], .f32⟩])
        [⟨2, [], .f32⟩, ⟨3, [], .f32⟩]]
      [⟨2, [], .f32⟩])
    [0, 1] [] .f32]
  outputs := [⟨2, [], .f32⟩]
  blobs := []

theorem countdown_captured : ¬ ∀ g : Graph,
    Validate.validate g.toWire g.blobs Validate.maxNodes = .ok () → CapturesSound g := by
  intro claim
  have accepted : Validate.validate countdownReduce.toWire countdownReduce.blobs
      Validate.maxNodes = .ok () := by rfl
  have sound := claim countdownReduce accepted
  exact absurd (sound countdownReduce.nodes (List.mem_cons_self ..)) (by decide)

end NxTinygrad.Capture
