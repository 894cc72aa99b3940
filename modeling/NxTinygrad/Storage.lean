import NxTinygrad.Commands
import NxTinygrad.Sessions
import NxTinygrad.Transfer

/- The tensors of a worker under all its callers: the handler of main.py in its loop, with the bytes that
   `upload` takes and `download` gives, and the requests that backend.ex makes of it. -/
namespace NxTinygrad.Storage
open BigEndian Protocol Ieee
open IR (Dtype)
open Requests (Request)
open MainLoop (Setting Raised Outcome)
open Commands (Handler Calls Reply)

/-- The handler, whose worker holds the items of the tensors; the dtype and the shape of each tensor; and
    what else it keeps. -/
structure Shelf (τ : Type) where
  handler : Handler Bytes
  tensors : Nat → Dtype × List Nat
  rest : τ

/-- The JSON library, `repr` and `str`, what numpy makes of NaNs and tinygrad of a scalar that it takes for
    a constant, what the operations do that the commands call, and how else requests are answered. -/
structure World (τ : Type) where
  loads : Bytes → Option Json
  dumps : Json → Option Bytes
  repr : Json → String
  str : Json → String
  traceback : Raised → Json
  unhashable : Json → Raised
  P : (F : Format) → Propagation F
  constant : Dtype → List Bytes → List Bytes
  folds : Bool
  calls : String → Json → List Bytes → Shelf τ → Calls Bytes
  made : String → Json → List Bytes → Shelf τ → List (Dtype × List Nat)
  told : String → Json → List Bytes → Shelf τ → Reply → Outcome
  rest : String → Json → List Bytes → Shelf τ → τ

variable {τ : Type} (W : World τ)

def dim? : Json → Option Nat
  | .int n => if 0 ≤ n then some n.toNat else none
  | _ => none

def dims (shape : List Nat) : Json := .arr (shape.map fun (d : Nat) => .int d)

def received (shape : List Nat) (dtype : Dtype) (blobs : List Bytes) : Option Transfer.Buffer := do
  let blob ← blobs.head?
  let flat ← Transfer.frombuffer blob (Transfer.numpyDtype dtype)
  let arr ← flat.reshape shape
  some ⟨Transfer.wireTensor arr dtype, shape, dtype, arr.nbytes⟩

def sent (P : (F : Format) → Propagation F) (buf : Transfer.Buffer) : Option Bytes := do
  let arr ← Transfer.wireNumpy P buf.tensor buf.dtype
  some arr.tobytes

theorem uploadDownload_eq {P : (F : Format) → Propagation F} {r : Transfer.TensorRegistry}
    {dtype : Dtype} {shape : List Nat} {blob : Bytes} :
    Transfer.uploadDownload P r dtype shape blob = (received shape dtype [blob]).bind (sent P) := by
  have put : Transfer.cmdUpload r shape dtype [blob] = (received shape dtype [blob]).map r.put := by
    simp only [Transfer.cmdUpload, received, List.head?_cons, Option.bind_eq_bind, Option.bind_some]
    cases Transfer.frombuffer blob (Transfer.numpyDtype dtype) with
    | none => rfl
    | some flat => cases made : flat.reshape shape <;> simp [made]
  rw [Transfer.uploadDownload, put]
  cases received shape dtype [blob] with
  | none => rfl
  | some buf =>
    simp only [Option.map_some, Option.bind_eq_bind, Option.bind_some, Transfer.cmdDownload,
      Transfer.TensorRegistry.get, Transfer.TensorRegistry.put, List.lookup_cons_self]
    rfl

def World.kept (buf : Transfer.Buffer) : Transfer.Buffer :=
  if buf.tensor.shape = [] then
    let items := W.constant (Transfer.numpyDtype buf.dtype) buf.tensor.items
    { buf with tensor := { buf.tensor with items := items } }
  else buf

/-- The buffer of an upload that numpy takes, with known dimensions. -/
def World.uploads (args : Json) (blobs : List Bytes) : Option Transfer.Buffer := do
  let shape ← ((← args.field? "shape").items?).bind (List.mapM dim?)
  let name ← (← args.field? "dtype").str?
  let dtype ← Dtype.ofName? name
  (received shape dtype blobs).map W.kept

def Shelf.buffer (s : Shelf τ) (id : Nat) : Option Transfer.Buffer := do
  let items ← (← s.handler.content id)
  let b := s.handler.buffers id
  let shape ← b.shape.mapM dim?
  let dtype ← b.dtype.str?.bind Dtype.ofName?
  some ⟨⟨(s.tensors id).1, (s.tensors id).2, items⟩, shape, dtype, b.nbytes⟩

def World.downloads (args : Json) (s : Shelf τ) : Option (Nat × Bytes) := do
  let id ← (← args.field? "id") |> Commands.key?
  let data ← (← s.buffer id) |> sent W.P
  some (id, data)

def World.callsOf (name : String) (args : Json) (blobs : List Bytes) (s : Shelf τ) : Calls Bytes :=
  let o := W.calls name args blobs s
  if name = "upload" then
    match W.uploads args blobs with
    | some buf => { o with arrays := [(buf.tensor.items, buf.nbytes)] }
    | none => o
  else if name = "download" then { o with raises := o.raises && (W.downloads args s).isNone }
  else o

def World.tensorsOf (name : String) (args : Json) (blobs : List Bytes) (s : Shelf τ) :
    List (Dtype × List Nat) :=
  if name = "upload" then
    match W.uploads args blobs with
    | some buf => [(buf.tensor.dtype, buf.tensor.shape)]
    | none => W.made name args blobs s
  else W.made name args blobs s

def World.result (name : String) (args : Json) (blobs : List Bytes) (s : Shelf τ)
    (h : Handler Bytes) : Outcome :=
  if name = "upload" then
    .returned (.obj [("id", .int s.handler.worker.nextId),
      ("shape", .arr (((args.field? "shape").bind Commands.iterate).getD [])),
      ("dtype", (args.field? "dtype").getD .null)]) []
  else if name = "download" then
    match W.downloads args s with
    | some (id, data) =>
        let buf := s.handler.buffers id
        .returned (.obj [("shape", .arr buf.shape), ("dtype", buf.dtype)]) [data]
    | none => W.told name args blobs s .ok
  else if name = "release" then
    let removed := s.handler.worker.registry.length - h.worker.registry.length
    .returned (.obj [("released", .int removed)]) []
  else W.told name args blobs s .ok

def World.stale (id : Json) : Raised :=
  ⟨"StaleReference", "buffer " ++ W.str id ++ " is not resident in this worker generation",
    .obj [("buffer_id", id)]⟩

def World.error (name : String) (args : Json) (blobs : List Bytes) (s : Shelf τ)
    (point : Commands.Point) : Outcome :=
  if name = "upload" && blobs.isEmpty then
    .raised ⟨"ProtocolError", "upload requires a tensor blob", .obj []⟩
  else if name = "download" then
    match (args.field? "id").map fun j => (j, (Commands.key? j).bind s.handler.content) with
    | some (j, none) => .raised (W.stale j)
    | _ => W.told name args blobs s (.raised point)
  else if name = "release" then
    match point, Commands.releaseIds args with
    | .id k, some ids => .raised (W.unhashable ((ids[k]?).getD .null))
    | _, _ => W.told name args blobs s (.raised point)
  else W.told name args blobs s (.raised point)

def World.answer (name : String) (args : Json) (blobs : List Bytes) (s : Shelf τ) (h : Handler Bytes) :
    Reply → Outcome
  | .ok => W.result name args blobs s h
  | .raised point => W.error name args blobs s point

def World.setting : Setting (Shelf τ) where
  loads := W.loads
  dumps := W.dumps
  repr := W.repr
  traceback := W.traceback
  run name args blobs s :=
    let o := W.callsOf name args blobs s
    match (Commands.dispatch.lookup name).bind (Commands.run W.folds s.handler args blobs o) with
    | none => (W.told name args blobs s (.raised .early), s)
    | some (h, reply) =>
        let tensors := W.tensorsOf name args blobs s
        (W.answer name args blobs s h reply,
          ⟨h, Commands.extend s.tensors s.handler.worker.nextId tensors, W.rest name args blobs s⟩)

def Shelf.empty (tensors : Nat → Dtype × List Nat) (rest : τ) : Shelf τ := ⟨.fresh Bytes, tensors, rest⟩

def fromBinary (shape : List Nat) (dtype : Dtype) (binary : Bytes) (timeout : Nat) : Request :=
  ⟨"upload", .obj [("shape", dims shape), ("dtype", .str dtype.name)], [binary], timeout⟩

def toBinary (handle : Nat) (timeout : Nat) : Request :=
  ⟨"download", .obj [("id", .int handle)], [], timeout⟩

def Releases (r : Request) (id : Nat) : Prop :=
  r.command = "release" ∧ ∃ ids, Commands.releaseIds (if MainLoop.falsy r.args then .obj [] else r.args) =
    some ids ∧ ∃ j ∈ ids, Commands.key? j = some id

/-- tinygrad gives back the scalar, if this is a scalar. -/
def World.Survives (shape : List Nat) (dtype : Dtype) (blob : Bytes) : Prop :=
  shape = [] → Transfer.componentDtype dtype = none →
    W.constant (Transfer.numpyDtype dtype) [blob] = [blob]

variable {W} {s s' : Shelf τ} {name : String} {args : Json} {blobs : List Bytes}

theorem buffer_there {id : Nat} {b : Transfer.Buffer} (there : s.buffer id = some b) :
    ∃ t items, s.handler.worker.registry.lookup id = some t ∧
      t.cell.value s.handler.worker.store.heap = some items := by
  simp only [Shelf.buffer, Option.bind_eq_bind, Option.bind_eq_some_iff] at there
  obtain ⟨content, found, items, rfl, _⟩ := there
  obtain ⟨t, listed, value⟩ := Option.map_eq_some_iff.mp found
  exact ⟨t, items, listed, value⟩

theorem buffer_same {id : Nat} (content : s'.handler.content id = s.handler.content id)
    (buffers : s'.handler.buffers id = s.handler.buffers id) (tensors : s'.tensors id = s.tensors id) :
    s'.buffer id = s.buffer id := by
  simp only [Shelf.buffer, content, buffers, tensors]

theorem lookup_filter {α : Type} {entries : List (Nat × α)} {keep : Nat → Bool} {id : Nat}
    (kept : keep id = true) : (entries.filter fun e => keep e.1).lookup id = entries.lookup id := by
  induction entries with
  | nil => rfl
  | cons e entries ih =>
    by_cases stays : keep e.1 = true
    · rw [List.filter_cons_of_pos (p := fun e : Nat × α => keep e.1) stays, List.lookup_cons,
        List.lookup_cons, ih]
    · have other : (id == e.1) = false := by
        apply beq_eq_false_iff_ne.mpr
        rintro rfl
        exact stays kept
      rw [List.filter_cons_of_neg (p := fun e : Nat × α => keep e.1) stays, ih, List.lookup_cons, other]

theorem popAll_keeps {α : Type} {entries entries' : List (Nat × α)} {reply : Reply} {ids : List Json}
    (ended : Commands.popAll entries 0 ids = (entries', reply)) {id : Nat}
    (apart : ∀ j ∈ ids, Commands.key? j ≠ some id) : entries'.lookup id = entries.lookup id := by
  obtain ⟨n, removed, _⟩ := Commands.popAll_spec ended
  subst removed
  have kept : (!((ids.take n).filterMap Commands.key?).contains id) = true := ?_
  · exact @lookup_filter _ _ (fun key => !((ids.take n).filterMap Commands.key?).contains key) _ kept
  simp only [Bool.not_eq_true', List.contains_eq_mem, decide_eq_false_iff_not]
  intro mem
  obtain ⟨j, there, key⟩ := List.mem_filterMap.mp mem
  exact apart j (List.mem_of_mem_take there) key

theorem release_content {h h' : Handler Bytes} {reply : Reply}
    (ended : Commands.cmdRelease h args = some (h', reply)) {id : Nat}
    (apart : ∀ ids, Commands.releaseIds args = some ids → ∀ j ∈ ids, Commands.key? j ≠ some id) :
    h'.content id = h.content id := by
  unfold Commands.cmdRelease at ended
  split at ended
  · cases ended
    rfl
  · rename_i ids named
    cases ended
    have found := popAll_keeps
      (show Commands.popAll h.worker.registry 0 ids = (_, _) from rfl) (apart ids named)
    simp only [Handler.content, found]

theorem dispatch_release {name : String} (found : Commands.dispatch.lookup name = some .release) :
    name = "release" := by
  obtain ⟨front, back, split, _⟩ := List.lookup_eq_some_iff.mp found
  have mem : (name, Commands.Command.release) ∈ Commands.dispatch := by simp [split]
  simpa [Commands.dispatch] using mem

theorem run_keeps (inv : Immutable.Inv s.handler.worker) :
    Immutable.Inv (W.setting.run name args blobs s).2.handler.worker ∧
      ∀ id b, s.buffer id = some b →
        (name = "release" → ∀ ids, Commands.releaseIds args = some ids →
          ∀ j ∈ ids, Commands.key? j ≠ some id) →
        (W.setting.run name args blobs s).2.buffer id = some b := by
  simp only [World.setting]
  split
  · exact ⟨inv, fun id b there _ => there⟩
  · rename_i h reply ran
    obtain ⟨command, named, ran⟩ := Option.bind_eq_some_iff.mp ran
    have inv' : Immutable.Inv h.worker := by
      rcases Commands.run_moves ran with same | ⟨a, moved⟩
      · exact same ▸ inv
      · exact Immutable.inv_step inv moved
    refine ⟨inv', fun id b there apart => ?_⟩
    obtain ⟨t, items, listed, value⟩ := buffer_there there
    obtain ⟨_, made, _⟩ := Immutable.download_value inv listed
    have young := inv.young id _ made
    rw [← there]
    refine buffer_same ?_ (Commands.run_buffers ran young) (Commands.extend_old young)
    by_cases release : command = .release
    · subst release
      exact release_content ran (apart (dispatch_release named))
    · have grown := (Commands.run_adds release ran).grown
      obtain ⟨found, same⟩ := Immutable.grown_value inv inv' grown listed
      simp only [Handler.content, found, listed, Option.map_some, same]

section runs
variable {generation : Nat} {device : String}

theorem answer_keeps (inv : Immutable.Inv s.handler.worker) (r : Request) :
    Immutable.Inv (Sessions.answer W.setting generation device r s).2.handler.worker ∧
      ∀ id b, s.buffer id = some b → ¬ Releases r id →
        (Sessions.answer W.setting generation device r s).2.buffer id = some b := by
  have same : Immutable.Inv s.handler.worker ∧ ∀ id b, s.buffer id = some b → ¬ Releases r id →
      s.buffer id = some b := ⟨inv, fun _ _ there _ => there⟩
  unfold Sessions.answer
  split
  · split
    · exact same
    · obtain ⟨later, kept⟩ := @run_keeps _ W s r.command
        (if MainLoop.falsy r.args then .obj [] else r.args) r.blobs inv
      have stays : ∀ id b, s.buffer id = some b → ¬ Releases r id → (W.setting.run r.command
          (if MainLoop.falsy r.args then .obj [] else r.args) r.blobs s).2.buffer id = some b :=
        fun id b there held => kept id b there fun release ids named j mem key =>
          held ⟨release, ids, named, j, mem, key⟩
      split
      · rename_i result out next returned
        rw [returned] at later stays
        exact ⟨later, stays⟩
      · rename_i e next raised
        rw [raised] at later stays
        exact ⟨later, stays⟩
  · exact same

theorem after_keeps (inv : Immutable.Inv s.handler.worker) (rs : List Request) :
    Immutable.Inv (Sessions.after W.setting generation device s rs).handler.worker ∧
      ∀ id b, s.buffer id = some b → (∀ r ∈ rs, ¬ Releases r id) →
        (Sessions.after W.setting generation device s rs).buffer id = some b := by
  induction rs generalizing s with
  | nil => exact ⟨inv, fun _ _ there _ => there⟩
  | cons r rs ih =>
    obtain ⟨first, kept⟩ := @answer_keeps _ W s generation device inv r
    obtain ⟨later, stays⟩ := ih first
    refine ⟨later, fun id b there unreleased => ?_⟩
    obtain ⟨this, others⟩ := List.forall_mem_cons.mp unreleased
    exact stays id b (kept id b there this) others

theorem dims_read (shape : List Nat) :
    (shape.map fun (d : Nat) => Json.int d).mapM dim? = some shape := by
  induction shape with
  | nil => rfl
  | cons d shape ih =>
    have back : dim? (.int d) = some d := by simp [dim?]
    rw [List.map_cons, List.mapM_cons, back, ih]
    rfl

theorem received_eq {dtype : Dtype} {shape : List Nat} {blob : Bytes}
    (size : blob.length = shape.prod * dtype.itemsize) : received shape dtype [blob] =
      some ⟨Transfer.wireTensor ⟨Transfer.numpyDtype dtype, shape,
        Transfer.runs dtype.itemsize shape.prod blob⟩ dtype, shape, dtype,
        shape.prod * (Transfer.numpyDtype dtype).itemsize⟩ := by
  have width := Transfer.numpy_itemsize dtype
  have sized : 0 < (Transfer.numpyDtype dtype).itemsize := width ▸ Transfer.itemsize_pos dtype
  have flat := Transfer.frombuffer_ok sized (width ▸ size)
  have count : shape.prod = (Transfer.runs dtype.itemsize shape.prod blob).length :=
    (Transfer.runs_length _ _ _).symm
  rw [width] at flat
  simp only [received, List.head?_cons, flat, Transfer.Ndarray.reshape, if_pos count,
    Option.bind_eq_bind, Option.bind_some]
  rfl

theorem kept_received {dtype : Dtype} {shape : List Nat} {blob : Bytes} {buf : Transfer.Buffer}
    (size : blob.length = shape.prod * dtype.itemsize) (survives : W.Survives shape dtype blob)
    (made : received shape dtype [blob] = some buf) : W.kept buf = buf := by
  cases made.symm.trans (received_eq size)
  unfold World.kept
  split
  · rename_i scalar
    dsimp only at scalar ⊢
    cases kind : Transfer.componentDtype dtype with
    | some pair =>
      simp [Transfer.wireTensor, kind, Transfer.Tensor.ofNumpy, Transfer.stack] at scalar
    | none =>
      have shape_items (arr : Transfer.Ndarray) : (Transfer.wireTensor arr dtype).shape = arr.shape ∧
          (Transfer.wireTensor arr dtype).items = arr.items := by
        simp only [Transfer.wireTensor, kind]
        split <;> exact ⟨rfl, rfl⟩
      obtain ⟨sameShape, sameItems⟩ := shape_items
        ⟨Transfer.numpyDtype dtype, shape, Transfer.runs dtype.itemsize shape.prod blob⟩
      obtain rfl : shape = [] := sameShape.symm.trans scalar
      have whole : blob.take dtype.itemsize = blob :=
        List.take_of_length_le (by simp [size])
      have items : Transfer.runs dtype.itemsize ([] : List Nat).prod blob = [blob] := by
        simp [Transfer.runs, whole]
      rw [items] at sameItems ⊢
      dsimp only at sameItems
      have constant := survives rfl kind
      rw [← sameItems] at constant
      rw [constant]
  · rfl

theorem uploads_fromBinary {dtype : Dtype} {shape : List Nat} {blob : Bytes} {buf : Transfer.Buffer}
    (size : blob.length = shape.prod * dtype.itemsize) (survives : W.Survives shape dtype blob)
    (made : received shape dtype [blob] = some buf) :
    W.uploads (.obj [("shape", dims shape), ("dtype", .str dtype.name)]) [blob] = some buf := by
  have other : ("dtype" == "shape") = false := by decide
  have known : Dtype.ofName? dtype.name = some dtype := IR.dtype_ofName dtype
  have kept := kept_received size survives made
  have read := dims_read shape
  simp only [World.uploads, Json.field?, List.lookup_cons, beq_self_eq_true, other, Json.str?, known,
    dims, Json.items?, Option.bind_eq_bind, Option.bind_some, read, made, Option.map_some, kept]

def added (h : Handler Bytes) (shape : List Nat) (dtype : Dtype) (buf : Transfer.Buffer) :
    Handler Bytes :=
  { h with
    worker := { h.worker with store := (h.worker.store.alloc buf.tensor.items).2 }.put
      (.buffer h.worker.store.next) buf.tensor.items
    buffers := Commands.extend h.buffers h.worker.nextId
      [⟨shape.map fun (d : Nat) => .int d, .str dtype.name, buf.nbytes⟩] }

theorem cmdUpload_adds {h : Handler Bytes} {shape : List Nat} {dtype : Dtype} {blob : Bytes}
    {buf : Transfer.Buffer} {o : Calls Bytes} (shaped : args.field? "shape" = some (dims shape))
    (typed : args.field? "dtype" = some (.str dtype.name))
    (arrays : o.arrays = [(buf.tensor.items, buf.nbytes)]) :
    Commands.cmdUpload W.folds h args [blob] o = some (added h shape dtype buf, .ok) := by
  simp only [Commands.cmdUpload, shaped, typed, arrays, dims, Commands.iterate, Immutable.step,
    Option.bind_some, Option.map_some]
  rfl

theorem run_upload {shape : List Nat} {dtype : Dtype} {blob : Bytes} {buf : Transfer.Buffer}
    (shaped : args.field? "shape" = some (dims shape))
    (typed : args.field? "dtype" = some (.str dtype.name)) (taken : W.uploads args [blob] = some buf) :
    W.setting.run "upload" args [blob] s =
      (.returned (.obj [("id", .int s.handler.worker.nextId), ("shape", dims shape),
        ("dtype", .str dtype.name)]) [], ⟨added s.handler shape dtype buf,
          Commands.extend s.tensors s.handler.worker.nextId [(buf.tensor.dtype, buf.tensor.shape)],
          W.rest "upload" args [blob] s⟩) := by
  have found : Commands.dispatch.lookup "upload" = some .upload := by decide
  have ran : Commands.run W.folds s.handler args [blob] (W.callsOf "upload" args [blob] s) .upload =
      some (added s.handler shape dtype buf, .ok) :=
    cmdUpload_adds shaped typed (by simp only [World.callsOf, if_true, taken])
  have tensors : W.tensorsOf "upload" args [blob] s = [(buf.tensor.dtype, buf.tensor.shape)] := by
    simp only [World.tensorsOf, if_true, taken]
  simp only [World.setting, found, Option.bind_some, ran, tensors, World.answer, World.result,
    if_true, shaped, typed, dims, Commands.iterate, Option.getD_some]

theorem extend_new {α : Type} (old : Nat → α) (id : Nat) (x : α) :
    Commands.extend old id [x] id = x := by
  simp [Commands.extend]

theorem upload_answer {shape : List Nat} {dtype : Dtype} {blob : Bytes} {timeout : Nat}
    {buf : Transfer.Buffer} (size : blob.length = shape.prod * dtype.itemsize)
    (survives : W.Survives shape dtype blob) (made : received shape dtype [blob] = some buf) :
    ∃ s', Sessions.answer W.setting generation device (fromBinary shape dtype blob timeout) s =
        (.ok (.obj [("id", .int s.handler.worker.nextId), ("shape", dims shape),
          ("dtype", .str dtype.name)]) [], s') ∧
      s'.buffer s.handler.worker.nextId = some buf := by
  have same : buf.shape = shape ∧ buf.dtype = dtype := by
    cases made.symm.trans (received_eq size)
    exact ⟨rfl, rfl⟩
  have other : ("dtype" == "shape") = false := by decide
  have ran := @run_upload _ W s (.obj [("shape", dims shape), ("dtype", .str dtype.name)])
    shape dtype blob buf rfl (by simp [Json.field?, List.lookup_cons, other])
    (uploads_fromBinary size survives made)
  have known : MainLoop.commands.contains "upload" = true := by decide
  have stop : ("upload" = "shutdown") = False := by decide
  refine ⟨⟨added s.handler shape dtype buf,
    Commands.extend s.tensors s.handler.worker.nextId [(buf.tensor.dtype, buf.tensor.shape)],
    W.rest "upload" (.obj [("shape", dims shape), ("dtype", .str dtype.name)]) [blob] s⟩, ?_, ?_⟩
  · simp only [Sessions.answer, fromBinary, MainLoop.falsy, known, stop, if_true, Bool.false_eq_true,
      if_false, ran]
  · have content : (added s.handler shape dtype buf).content s.handler.worker.nextId =
        some (some buf.tensor.items) := by
      simp only [Handler.content, added, Immutable.Worker.put, List.lookup_cons_self, Option.map_some]
      exact congrArg some (Buffers.alloc_holds s.handler.worker.store buf.tensor.items).value
    have typed : Dtype.ofName? dtype.name = some dtype := IR.dtype_ofName dtype
    have buffers : (added s.handler shape dtype buf).buffers s.handler.worker.nextId =
        ⟨shape.map fun (d : Nat) => .int d, .str dtype.name, buf.nbytes⟩ := extend_new _ _ _
    simp only [Shelf.buffer, content, buffers, extend_new, dims_read, Json.str?, typed,
      Option.bind_eq_bind, Option.bind_some]
    rw [← same.1, ← same.2]

theorem mapM_dims {items : List Json} {shape : List Nat} (read : items.mapM dim? = some shape) :
    items = shape.map fun (d : Nat) => .int d := by
  induction items generalizing shape with
  | nil =>
    cases read
    rfl
  | cons j items ih =>
    rw [List.mapM_cons] at read
    obtain ⟨d, here, read⟩ := Option.bind_eq_some_iff.mp read
    obtain ⟨rest, tail, read⟩ := Option.bind_eq_some_iff.mp read
    cases read
    rw [List.map_cons, ← ih tail]
    cases j with
    | int n =>
      simp only [dim?, Option.ite_none_right_eq_some, Option.some.injEq] at here
      have number : n = d := by omega
      rw [number]
    | _ => cases here

theorem buffer_json {id : Nat} {b : Transfer.Buffer} (there : s.buffer id = some b) :
    .arr (s.handler.buffers id).shape = dims b.shape ∧
      (s.handler.buffers id).dtype = .str b.dtype.name := by
  simp only [Shelf.buffer, Option.bind_eq_bind, Option.bind_eq_some_iff, Option.some.injEq] at there
  obtain ⟨_, _, items, _, shape, read, dtype, ⟨name, text, known⟩, rfl⟩ := there
  refine ⟨congrArg Json.arr (mapM_dims read), ?_⟩
  have named : dtype.name = name := by simpa using List.find?_some known
  cases type : (s.handler.buffers id).dtype with
  | str other =>
    rw [type] at text
    cases text
    exact congrArg Json.str named.symm
  | _ =>
    rw [type] at text
    cases text

theorem download_answer {id timeout : Nat} {b : Transfer.Buffer} {data : Bytes}
    (there : s.buffer id = some b) (got : sent W.P b = some data) :
    (Sessions.answer W.setting generation device (toBinary id timeout) s).1 =
      .ok (.obj [("shape", dims b.shape), ("dtype", .str b.dtype.name)]) [data] := by
  have key : Commands.key? (.int (id : Int)) = some id := by
    simp [Commands.key?, Json.number?, Json.int?]
  obtain ⟨t, items, listed, value⟩ := buffer_there there
  have field : (Json.obj [("id", .int (id : Int))]).field? "id" = some (.int id) := rfl
  have downloads : W.downloads (.obj [("id", .int id)]) s = some (id, data) := by
    simp only [World.downloads, field, key, there, got, Option.bind_eq_bind, Option.bind_some]
  have found : Commands.dispatch.lookup "download" = some .download := by decide
  have other : ("download" = "upload") = False := by decide
  have fine : (W.callsOf "download" (.obj [("id", .int id)]) [] s).raises = false := by
    simp only [World.callsOf, other, if_false, if_true, downloads, Option.isNone_some, Bool.and_false]
  have ran : ∃ h, Commands.run W.folds s.handler (.obj [("id", .int id)]) []
      (W.callsOf "download" (.obj [("id", .int id)]) [] s) .download = some (h, .ok) := by
    simp only [Commands.run, Commands.cmdDownload, field, key, fine, listed, Immutable.step, value,
      Option.bind_some, Option.isNone_some, Bool.or_self, Bool.false_eq_true, if_false, Option.map_some]
    exact ⟨_, rfl⟩
  obtain ⟨h, ran⟩ := ran
  have known : MainLoop.commands.contains "download" = true := by decide
  have stop : ("download" = "shutdown") = False := by decide
  simp only [Sessions.answer, toBinary, MainLoop.falsy, known, stop, if_true, Bool.false_eq_true,
    if_false, World.setting, found, Option.bind_some, ran, World.answer, World.result, other, downloads,
    (buffer_json there).1, (buffer_json there).2]

end runs

theorem uploadDownload_total {P : (F : Format) → Propagation F} {dtype : Dtype} {shape : List Nat}
    {blob : Bytes} (size : blob.length = shape.prod * dtype.itemsize) :
    ∃ data, Transfer.uploadDownload P ⟨[], 1⟩ dtype shape blob = some data ∧
      (Transfer.componentDtype dtype = none → data = blob) := by
  cases kind : Transfer.componentDtype dtype with
  | none => exact ⟨blob, Transfer.real_trip size kind, fun _ => rfl⟩
  | some pair => exact ⟨_, Transfer.complex_trip size kind, nofun⟩

theorem take_between {asked : List Request} {a b : Nat} {r : Request} (there : asked[a]? = some r)
    (later : a < b) : ∃ between, asked.take b = asked.take a ++ r :: between ∧
      ∀ r' ∈ between, ∃ k, a < k ∧ k < b ∧ asked[k]? = some r' := by
  have bound := (List.getElem?_eq_some_iff.mp there).1
  refine ⟨(asked.take b).drop (a + 1), ?_, ?_⟩
  · have here : (asked.take b)[a]? = some r := by
      rw [List.getElem?_take, if_pos later, there]
    obtain ⟨inRange, value⟩ := List.getElem?_eq_some_iff.mp here
    have front : asked.take a = (asked.take b).take a := by
      rw [List.take_take, Nat.min_eq_left (Nat.le_of_lt later)]
    rw [front, ← value, ← List.drop_eq_getElem_cons inRange, List.take_append_drop]
  · intro r' mem
    obtain ⟨i, at_i⟩ := List.mem_iff_getElem?.mp mem
    rw [List.getElem?_drop, List.getElem?_take] at at_i
    split at at_i
    · rename_i below
      exact ⟨a + 1 + i, by omega, below, at_i⟩
    · cases at_i

/-- Whoever uploads a tensor and whoever downloads it, and whatever all the others ask for in between but
    its release: if the download is answered at all, then with the shape, the type and the bytes of the
    upload. -/
theorem download_returns {jsonText : Json → Bytes} {parse : Bytes → Option Json} {generation : Nat}
    {device : String} {tensors : Nat → Dtype × List Nat} {rest : τ} {t : Sessions.Session (Shelf τ)}
    (back : ∀ msg text, W.dumps msg = some text → parse text = some msg)
    (run : Runs.Run (Sessions.step W.setting jsonText parse) (Sessions.Sends W.setting jsonText)
      (Sessions.init generation device (.empty tensors rest)) t)
    {a b id timeout timeout' : Nat} {shape : List Nat} {dtype : Dtype} {blob : Bytes}
    (size : blob.length = shape.prod * dtype.itemsize) (survives : W.Survives shape dtype blob)
    (uploads : t.asked[a]? = some (fromBinary shape dtype blob timeout))
    (downloads : t.asked[b]? = some (toBinary id timeout')) (later : a < b)
    {result : Json} {out : List Bytes} (handed : (a, .ok result out) ∈ t.client.outcomes)
    (handle : result.field? "id" = some (.int id))
    (unreleased : ∀ k r, a < k → k < b → t.asked[k]? = some r → ¬ Releases r id)
    {o : Requests.Outcome} (told : (b, o) ∈ t.client.outcomes) :
    Sessions.Lost generation device o ∨ ∃ data,
      o = .ok (.obj [("shape", dims shape), ("dtype", .str dtype.name)]) [data] ∧
      Transfer.uploadDownload W.P ⟨[], 1⟩ dtype shape blob = some data ∧
      (Transfer.componentDtype dtype = none → data = blob) := by
  obtain ⟨_, answers⟩ := Sessions.served_in_order back run
  obtain ⟨data, trip, real⟩ := uploadDownload_total (P := W.P) size
  -- the buffers when the upload comes
  let first := Sessions.after W.setting generation device (.empty tensors rest) (t.asked.take a)
  have inv : Immutable.Inv first.handler.worker :=
    (after_keeps (s := .empty tensors rest) (Immutable.inv_fresh Bytes) _).1
  have made := received_eq size
  rw [uploadDownload_eq, made, Option.bind_some] at trip
  obtain ⟨second, uploaded, held⟩ := @upload_answer _ W first generation device _ _ _ timeout _ size
    survives made
  have named : id = first.handler.worker.nextId := by
    obtain ⟨r, there, cases⟩ := answers a _ handed
    cases uploads.symm.trans there
    rcases cases with ⟨_, same⟩ | lost
    · rw [uploaded] at same
      cases same
      simp only [Json.field?, List.lookup_cons, beq_self_eq_true, Option.some.injEq, Json.int.injEq,
        Nat.cast_inj] at handle
      exact handle.symm
    · exact lost.elim
  -- the requests between the two
  obtain ⟨between, asked, inside⟩ := take_between uploads later
  have stays : ∀ r ∈ between, ¬ Releases r id := by
    intro r mem
    obtain ⟨k, above, below, there⟩ := inside r mem
    exact unreleased k r above below there
  have inv' : Immutable.Inv second.handler.worker := by
    have next := (@answer_keeps _ W _ generation device inv
      (fromBinary shape dtype blob timeout)).1
    rwa [uploaded] at next
  have kept := (@after_keeps _ W second generation device inv' between).2 id _ (named ▸ held) stays
  have state : Sessions.after W.setting generation device (.empty tensors rest) (t.asked.take b) =
      Sessions.after W.setting generation device second between := by
    rw [asked]
    simp only [Sessions.after, List.foldl_append, List.foldl_cons]
    exact congrArg (fun x => List.foldl _ x between) (congrArg Prod.snd uploaded)
  obtain ⟨r, there, cases⟩ := answers b o told
  cases downloads.symm.trans there
  rcases cases with ⟨_, same⟩ | lost
  · refine Or.inr ⟨data, ?_, ?_, real⟩
    · rw [state] at same
      rw [same, download_answer kept trip]
    · rw [uploadDownload_eq, made, Option.bind_some, trip]
  · exact Or.inl lost

/-! Two bytes: an upload, a negation, and a download of what was uploaded. -/

def two : Request := fromBinary [2] .u8 [1, 2] 5000

def negate : Request :=
  ⟨"run_node", .obj [("op", .str "negate"), ("shape", dims [2]), ("dtype", .str "u8"),
    ("inputs", .arr [.obj [("kind", .str "handle"), ("id", .int 1)]])], [], 5000⟩

def fetch : Request := toBinary 1 5000

def writeRequest (msg : Json) : Bytes :=
  match msg with
  | .obj (("command", .str "upload") :: _) => [0]
  | .obj (("command", .str "run_node") :: _) => [1]
  | _ => [2]

def readRequest (text : Bytes) : Option Json :=
  match text with
  | [0] => some (Sessions.message two)
  | [1] => some (Sessions.message negate)
  | [2] => some (Sessions.message fetch)
  | _ => none

def handed (id : Int) : Json := .obj [("id", .int id), ("shape", .arr [.int 2]), ("dtype", .str "u8")]

def downloaded : Json := .obj [("shape", .arr [.int 2]), ("dtype", .str "u8")]

def writeResponse (msg : Json) : Option Bytes :=
  match msg with
  | .obj [("ok", .bool true), ("result", .obj [("id", .int 1), ("shape", .arr [.int 2]),
      ("dtype", .str "u8")])] => some [0]
  | .obj [("ok", .bool true), ("result", .obj [("id", .int 2), ("shape", .arr [.int 2]),
      ("dtype", .str "u8")])] => some [1]
  | .obj [("ok", .bool true), ("result", .obj [("shape", .arr [.int 2]), ("dtype", .str "u8")])] =>
      some [2]
  | _ => none

def readResponse (text : Bytes) : Option Json :=
  match text with
  | [0] => some (MainLoop.okMeta (handed 1))
  | [1] => some (MainLoop.okMeta (handed 2))
  | [2] => some (MainLoop.okMeta downloaded)
  | _ => none

theorem response_read (msg : Json) (text : Bytes) (written : writeResponse msg = some text) :
    readResponse text = some msg := by
  unfold writeResponse at written
  split at written <;> cases written <;> rfl

/-- The worker computes the negation into a new buffer. -/
def negates : World Unit where
  loads := readRequest
  dumps := writeResponse
  repr _ := ""
  str _ := ""
  traceback _ := .null
  unhashable _ := ⟨"TypeError", "", .obj []⟩
  P := Transfer.firstNan
  constant _ items := items
  folds := false
  calls _ _ _ _ := ⟨[], false, [], none, [[[255], [254]]], .buffer 1, .same, [2], some 2, ⟨[], []⟩, [], []⟩
  made _ _ _ _ := [(.u8, [2])]
  told _ _ _ _ reply := match reply with
    | .ok => .returned (handed 2) []
    | .raised _ => .raised ⟨"ValueError", "", .obj []⟩
  rest _ _ _ _ := ()

theorem two_sendable : Sessions.Sendable negates.setting writeRequest two :=
  ⟨⟨by decide, by decide, by decide⟩, rfl⟩

theorem negate_sendable : Sessions.Sendable negates.setting writeRequest negate :=
  ⟨⟨by decide, by decide, by decide⟩, rfl⟩

theorem fetch_sendable : Sessions.Sendable negates.setting writeRequest fetch :=
  ⟨⟨by decide, by decide, by decide⟩, rfl⟩

abbrev step (s : Sessions.Session (Shelf Unit)) (a : Sessions.Label) :
    Option (Sessions.Session (Shelf Unit)) :=
  Sessions.step negates.setting writeRequest readResponse s a

def start : Sessions.Session (Shelf Unit) :=
  Sessions.init 1 "CPU" (.empty (fun _ => (.u8, [])) ())

def calls : List Sessions.Label :=
  [.inside (.call two), .inside (.call negate), .inside (.call fetch)]

def rounds : List Sessions.Label :=
  [.inside .receive, .inside .receive, .inside .receive, .work, .work, .work, .deliver,
    .inside .receive, .deliver, .inside .receive, .deliver, .inside .receive]

theorem call_run {s : Sessions.Session (Shelf Unit)} {r : Request}
    (sendable : Sessions.Sendable negates.setting writeRequest r) (few : s.client.calls ≤ 2)
    (ready : (step s (.inside (.call r))).isSome = true) :
    ∃ s', step s (.inside (.call r)) = some s' ∧
      Runs.Run step (Sessions.Sends negates.setting writeRequest) s s' := by
  obtain ⟨s', called⟩ := Option.isSome_iff_exists.mp ready
  have sends : Sessions.Sends negates.setting writeRequest s (.inside (.call r)) :=
    ⟨sendable, by omega⟩
  exact ⟨s', called, .next (.refl _) sends called⟩

theorem two_bytes_return : ∃ t : Sessions.Session (Shelf Unit), t.asked = [two, negate, fetch] ∧
    t.client.outcomes = [(0, .ok (handed 1) []), (1, .ok (handed 2) []), (2, .ok downloaded [[1, 2]])] ∧
      (Sessions.Lost 1 "CPU" (.ok downloaded [[1, 2]]) ∨ ∃ data,
        Requests.Outcome.ok downloaded [[1, 2]] =
          .ok (.obj [("shape", dims [2]), ("dtype", .str Dtype.u8.name)]) [data] ∧
        Transfer.uploadDownload negates.P ⟨[], 1⟩ .u8 [2] [1, 2] = some data ∧
        (Transfer.componentDtype .u8 = none → data = [1, 2])) := by
  obtain ⟨one, first, run⟩ := call_run (s := start) two_sendable (by decide) rfl
  obtain ⟨both, second, run'⟩ := call_run (s := one) negate_sendable
    (by cases first; decide) (by cases first; rfl)
  obtain ⟨all, third, run''⟩ := call_run (s := both) fetch_sendable
    (by cases first; cases second; decide) (by cases first; cases second; rfl)
  have path : Runs.follow step start (calls ++ rounds) = Runs.follow step all rounds := by
    simp only [calls, List.cons_append, List.nil_append, Runs.follow, first, second, third,
      Option.bind_some]
  have ends : (Runs.follow step start (calls ++ rounds)).map (fun t => (t.asked, t.client.outcomes)) =
      some ([two, negate, fetch],
        [(0, .ok (handed 1) []), (1, .ok (handed 2) []), (2, .ok downloaded [[1, 2]])]) := rfl
  rw [path] at ends
  obtain ⟨t, done, same⟩ := Option.map_eq_some_iff.mp ends
  obtain ⟨asked, outcomes⟩ := Prod.mk.injEq .. ▸ same
  have whole : Runs.Run step (Sessions.Sends negates.setting writeRequest) start t := by
    refine Runs.run_trans run (Runs.run_trans run' (Runs.run_trans run''
      (Runs.guarded_of_follow ?_ done)))
    intro a mem s
    simp only [rounds, List.mem_cons, List.not_mem_nil, or_false] at mem
    rcases mem with rfl | rfl | rfl | rfl | rfl | rfl | rfl | rfl | rfl | rfl | rfl | rfl <;> trivial
  refine ⟨t, asked, outcomes, ?_⟩
  have uploads : t.asked[0]? = some (fromBinary [2] .u8 [1, 2] 5000) := by
    rw [asked]
    rfl
  have downloads : t.asked[2]? = some (toBinary 1 5000) := by
    rw [asked]
    rfl
  have first_told : (0, .ok (handed 1) []) ∈ t.client.outcomes := by
    rw [outcomes]
    exact List.mem_cons_self
  have last_told : (2, .ok downloaded [[1, 2]]) ∈ t.client.outcomes := by
    rw [outcomes]
    exact List.mem_cons_of_mem _ (List.mem_cons_of_mem _ List.mem_cons_self)
  have unreleased : ∀ k r, 0 < k → k < 2 → t.asked[k]? = some r → ¬ Releases r 1 := by
    intro k r above below there released
    obtain rfl : k = 1 := by omega
    rw [asked] at there
    cases there
    exact absurd released.1 (by decide)
  exact download_returns response_read whole rfl (fun _ _ => rfl) uploads downloads (by decide)
    first_told rfl unreleased last_told

end NxTinygrad.Storage
