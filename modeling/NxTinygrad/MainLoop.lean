import Mathlib.Data.List.Forall2
import NxTinygrad.Framing

/- The read-dispatch-write loop of main.py. What the command handlers do is a parameter: they
   return a result with any number of blobs, or raise. -/
namespace NxTinygrad.MainLoop
open BigEndian Protocol Framing

structure Raised where
  klass : String
  message : String
  details : Json

inductive Outcome where
  | returned (result : Json) (blobs : List Bytes)
  | raised (exc : Raised)

/-- `json.loads`, `json.dumps` (which may raise), `repr`, the traceback entry of an error, and
    the handlers over their state. -/
structure Setting (σ : Type) where
  loads : Bytes → Option Json
  dumps : Json → Option Bytes
  repr : Json → String
  traceback : Raised → Json
  run : String → Json → List Bytes → σ → Outcome × σ

def commands : List String :=
  ["hello", "device_info", "compile", "execute", "run_node", "upload", "download", "release",
    "release_executable", "stats", "synchronize", "shutdown"]

def falsy : Json → Bool
  | .null | .bool false | .int 0 | .str "" | .arr [] | .obj [] => true
  | .float m _ => m = 0
  | _ => false

def commandOf (msg : Json) : Json := (msg.field? "command").getD .null

def argsOf (msg : Json) : Json :=
  let args := (msg.field? "args").getD .null
  if falsy args then .obj [] else args

def hashable : Json → Bool
  | .arr _ | .obj _ => false
  | _ => true

def isShutdown (msg : Json) : Bool :=
  match commandOf msg with
  | .str name => name = "shutdown"
  | _ => false

variable {σ : Type} (S : Setting σ)

def Setting.error (e : Raised) : Json :=
  .obj [("ok", .bool false), ("error", .obj [("class", .str e.klass), ("message", .str e.message),
    ("details", e.details), ("python_traceback", S.traceback e)])]

def okMeta (result : Json) : Json := .obj [("ok", .bool true), ("result", result)]

def Setting.unknown (command : Json) : Json :=
  S.error ⟨"ProtocolError", "unknown command: " ++ S.repr command, .obj [("command", command)]⟩

/-- `handle`, once the command has been looked up: the response and the state after it. -/
def Setting.respond (msg : Json) (blobs : List Bytes) (s : σ) : Json × List Bytes × σ :=
  match commandOf msg with
  | .str name =>
      if commands.contains name then
        if name = "shutdown" then (okMeta (.obj []), [], s)
        else match S.run name (argsOf msg) blobs s with
          | (.returned result out, s) => (okMeta result, out, s)
          | (.raised e, s) => (S.error e, [], s)
      else (S.unknown (.str name), [], s)
  | command => (S.unknown command, [], s)

inductive Crash where
  | typeError
  | notSerializable
  | structError
  deriving DecidableEq, Repr

inductive Step (σ : Type) where
  | answered (response : Bytes) (stop : Bool) (s : σ)
  | undecodable
  | crashed (c : Crash)

/-- `encode_frame` and `write_packet`, whose length prefix has four bytes. -/
def Setting.send (reqId : Nat) (msg : Json) (blobs : List Bytes) : Except Crash Bytes :=
  match S.dumps msg with
  | none => .error .notSerializable
  | some text => match encodeFrame (fun _ => text) reqId msg blobs with
    | .error _ => .error .structError
    | .ok frame => if frame.length < 256 ^ 4 then .ok frame else .error .structError

def Setting.work (payload : Bytes) (s : σ) : Step σ :=
  match decodeFrame S.loads payload with
  | .error _ => .undecodable
  | .ok (reqId, msg, blobs) =>
      -- the lookup of the command is outside the try block
      if hashable (commandOf msg) then
        let (response, out, s) := S.respond msg blobs s
        match S.send reqId response out with
        | .error c => .crashed c
        | .ok frame => .answered frame (isShutdown msg) s
      else .crashed .typeError

inductive Status where
  | waiting
  | stopped
  | exited
  | crashed (c : Crash)
  deriving DecidableEq, Repr

/-- The frames written for some frames read, and what became of the process. -/
def Setting.serve : List Bytes → σ → List Bytes × Status
  | [], _ => ([], .waiting)
  | p :: rest, s => match S.work p s with
    | .answered response stop s =>
        if stop then ([response], .stopped)
        else
          let (responses, status) := serve rest s
          (response :: responses, status)
    | .undecodable => ([], .exited)
    | .crashed c => ([], .crashed c)

/-- The requests up to the first shutdown command, and whether there is one. -/
def requests (loads : Bytes → Option Json) : List Bytes → List Bytes × Bool
  | [] => ([], false)
  | p :: rest => match decodeFrame loads p with
    | .error _ => ([], false)
    | .ok (_, msg, _) =>
        if isShutdown msg then ([p], true)
        else
          let (more, stop) := requests loads rest
          (p :: more, stop)

/-- The client, whose JSON parser is `parse`, reads the response under the request's id. -/
def Answers (parse loads : Bytes → Option Json) (request response : Bytes) : Prop :=
  ∃ reqId msg blobs msg' blobs', decodeFrame loads request = .ok (reqId, msg, blobs) ∧
    decode parse response = .ok (reqId, msg', blobs')

/-- Each request up to the first shutdown is answered once, in order, and the process ends
    only by a shutdown. -/
def Setting.WellServed (parse : Bytes → Option Json) (frames : List Bytes) (s : σ) : Prop :=
  List.Forall₂ (Answers parse S.loads) (requests S.loads frames).1 (S.serve frames s).1 ∧
    (S.serve frames s).2 = if (requests S.loads frames).2 then .stopped else .waiting

/-- The command is hashable, and the response has a JSON text that the client can read and
    fits its frame, the frame its packet. -/
def Setting.Answerable (parse : Bytes → Option Json) (msg : Json) (blobs : List Bytes) (s : σ) : Prop :=
  hashable (commandOf msg) = true ∧ ∃ text, S.dumps (S.respond msg blobs s).1 = some text ∧
    (parse text).isSome ∧ text.length < 2 ^ 32 ∧ (S.respond msg blobs s).2.1.length < 2 ^ 16 ∧
    (∀ b ∈ (S.respond msg blobs s).2.1, b.length < 2 ^ 64) ∧
    headerSize + (S.respond msg blobs s).2.1.length * 8 + text.length +
      (S.respond msg blobs s).2.1.flatten.length < 2 ^ 32

/-- Every request of the run is answerable in the state it finds. -/
def Setting.Calm (parse : Bytes → Option Json) : List Bytes → σ → Prop
  | [], _ => True
  | p :: rest, s => ∀ reqId msg blobs, decodeFrame S.loads p = .ok (reqId, msg, blobs) →
      S.Answerable parse msg blobs s ∧
        (isShutdown msg = false → Calm parse rest (S.respond msg blobs s).2.2)

theorem pack_of_fits {w n : Nat} (fits : n < 256 ^ w) : pack w n = .ok (toBytes w n) :=
  pack_ok.mpr ⟨fits, rfl⟩

theorem packLengths_of_fits {blobs : List Bytes} (sizes : ∀ b ∈ blobs, b.length < 256 ^ 8) :
    ∃ bs, packLengths blobs = .ok bs := by
  induction blobs with
  | nil => exact ⟨[], rfl⟩
  | cons b rest ih =>
    obtain ⟨fits, sizes⟩ := List.forall_mem_cons.mp sizes
    obtain ⟨bs, tail⟩ := ih sizes
    simp only [packLengths, pack_of_fits fits, tail, bind, Except.bind]
    exact ⟨_, rfl⟩

theorem encodeFrame_of_fits {dumps : Json → Bytes} {reqId : Nat} {msg : Json} {blobs : List Bytes}
    (id_fits : reqId < 256 ^ 8) (fits : Fits (dumps msg) blobs) :
    ∃ p, encodeFrame dumps reqId msg blobs = .ok p := by
  obtain ⟨lengths, packed⟩ := packLengths_of_fits fits.sizes
  simp only [encodeFrame, pack_of_fits id_fits, pack_of_fits fits.json, pack_of_fits fits.count, packed,
    bind, Except.bind]
  exact ⟨_, rfl⟩

theorem send_ok {S : Setting σ} {reqId : Nat} {msg : Json} {blobs : List Bytes} {frame : Bytes}
    (h : S.send reqId msg blobs = .ok frame) : ∃ text, S.dumps msg = some text ∧
      Framed frame reqId text blobs ∧ frame.length < 256 ^ 4 := by
  unfold Setting.send at h
  split at h
  · cases h
  · rename_i text found
    split at h
    · cases h
    · rename_i p written
      split at h
      · rename_i small
        cases h
        exact ⟨text, found, encodeFrame_framed written, small⟩
      · cases h

theorem send_of_fits {S : Setting σ} {reqId : Nat} {msg : Json} {blobs : List Bytes} {text : Bytes}
    (id_fits : reqId < 256 ^ 8) (found : S.dumps msg = some text) (fits : Fits text blobs)
    (small : headerSize + blobs.length * 8 + text.length + blobs.flatten.length < 256 ^ 4) :
    ∃ frame, S.send reqId msg blobs = .ok frame := by
  obtain ⟨p, written⟩ : ∃ p, encodeFrame (fun _ => text) reqId msg blobs = .ok p :=
    encodeFrame_of_fits id_fits fits
  have len := framed_length (encodeFrame_framed written)
  refine ⟨p, ?_⟩
  simp only [Setting.send, found, written]
  rw [if_pos (by omega)]

theorem work_answers {S : Setting σ} {parse : Bytes → Option Json} {p : Bytes} {reqId : Nat}
    {msg : Json}
    {blobs : List Bytes} {s : σ} (got : decodeFrame S.loads p = .ok (reqId, msg, blobs)) :
    (∃ r, S.work p s = .answered r (isShutdown msg) (S.respond msg blobs s).2.2 ∧
      Answers parse S.loads p r) ↔ S.Answerable parse msg blobs s := by
  obtain ⟨_, framed, _⟩ := decodeFrame_ok.mp got
  constructor
  · rintro ⟨r, worked, answers⟩
    simp only [Setting.work, got] at worked
    split at worked
    · rename_i hash
      split at worked
      · cases worked
      · rename_i frame sent
        cases worked
        obtain ⟨text, found, framed', small⟩ := send_ok sent
        obtain ⟨_, _, _, msg', blobs', got', read⟩ := answers
        obtain ⟨json, again, parsed⟩ := decode_ok.mp read
        obtain ⟨rfl, rfl, rfl⟩ := framed_unique framed' again
        have len := framed_length framed'
        refine ⟨hash, text, found, by simp [parsed], ?_, ?_, ?_, ?_⟩
        · have := framed'.json
          omega
        · have := framed'.count
          omega
        · intro b mem
          have := framed'.sizes b mem
          omega
        · have bound : r.length < 2 ^ 32 := by omega
          exact Nat.lt_of_le_of_lt (Nat.le_of_eq len.symm) bound
    · cases worked
  · rintro ⟨hash, text, found, readable, json_fits, count_fits, sizes, small⟩
    have fits : Fits text (S.respond msg blobs s).2.1 :=
      ⟨by omega, by omega, fun b mem => by have := sizes b mem; omega⟩
    obtain ⟨frame, sent⟩ := send_of_fits framed.reqId found fits (by omega)
    obtain ⟨text', found', framed', _⟩ := send_ok sent
    cases found.symm.trans found'
    obtain ⟨msg', parsed⟩ := Option.isSome_iff_exists.mp readable
    refine ⟨frame, ?_, reqId, msg, blobs, msg', _, got, decode_ok.mpr ⟨text, framed', parsed⟩⟩
    simp only [Setting.work, got, hash, if_true, sent]

theorem work_state {S : Setting σ} {p : Bytes} {reqId : Nat} {msg : Json}
    {blobs : List Bytes} {s s' : σ}
    {r : Bytes} {stop : Bool} (got : decodeFrame S.loads p = .ok (reqId, msg, blobs))
    (h : S.work p s = .answered r stop s') :
    stop = isShutdown msg ∧ s' = (S.respond msg blobs s).2.2 := by
  simp only [Setting.work, got] at h
  split at h
  · split at h
    · cases h
    · cases h
      exact ⟨rfl, rfl⟩
  · cases h

/-- Exactly one response for each request, in order and under its id, until a shutdown: just
    when every request of the run is answerable. -/
theorem served_iff (S : Setting σ) (parse : Bytes → Option Json) (frames : List Bytes) (s : σ)
    (decodable : ∀ p ∈ frames, ∃ r, decodeFrame S.loads p = .ok r) :
    S.WellServed parse frames s ↔ S.Calm parse frames s := by
  induction frames generalizing s with
  | nil => simp [Setting.WellServed, Setting.Calm, requests, Setting.serve]
  | cons p rest ih =>
    obtain ⟨⟨⟨reqId, msg, blobs⟩, got⟩, decodable⟩ := List.forall_mem_cons.mp decodable
    have later := ih (S.respond msg blobs s).2.2 decodable
    have answers : _ ↔ S.Answerable parse msg blobs s := work_answers got
    have calm : S.Calm parse (p :: rest) s ↔ S.Answerable parse msg blobs s ∧
        (isShutdown msg = false → S.Calm parse rest (S.respond msg blobs s).2.2) := by
      constructor
      · intro calm
        exact calm reqId msg blobs got
      · intro calm id' msg' blobs' got'
        cases got.symm.trans got'
        exact calm
    rw [calm, ← answers, ← later]
    cases worked : S.work p s with
    | undecodable =>
      simp only [Setting.work, got] at worked
      split at worked
      · split at worked <;> cases worked
      · cases worked
    | crashed c =>
      have no_response : ¬ S.WellServed parse (p :: rest) s := by
        intro served
        simp only [Setting.WellServed, requests, got, Setting.serve, worked] at served
        have count := List.Forall₂.length_eq served.1
        split at count <;> cases count
      constructor
      · intro served
        exact absurd served no_response
      · rintro ⟨⟨r, sent, _⟩, _⟩
        cases sent
    | answered r stop s' =>
      obtain ⟨rfl, rfl⟩ := work_state got worked
      have this_response : (∃ r', Step.answered r (isShutdown msg) (S.respond msg blobs s).2.2 =
          .answered r' (isShutdown msg) (S.respond msg blobs s).2.2 ∧ Answers parse S.loads p r') ↔
          Answers parse S.loads p r := by
        constructor
        · rintro ⟨r', same, good⟩
          cases same
          exact good
        · intro good
          exact ⟨r, rfl, good⟩
      rw [this_response]
      simp only [Setting.WellServed, requests, got, Setting.serve, worked]
      cases stops : isShutdown msg with
      | true => simp
      | false => simp [and_assoc]

/-- Metadata of three requests by their first byte: a list for a command, `hello`, `shutdown`. -/
def readCommand (text : Bytes) : Option Json :=
  match text with
  | [0] => some (.obj [("command", .arr [])])
  | [1] => some (.obj [("command", .str "hello")])
  | [2] => some (.obj [("command", .str "shutdown")])
  | _ => none

def echo : Setting Unit where
  loads := readCommand
  dumps _ := some [1]
  repr _ := ""
  traceback _ := .null
  run _ args blobs s := (.returned args blobs, s)

def request (reqId : Nat) (command : UInt8) (blobs : List Bytes) : Bytes :=
  encode (fun _ => [command]) reqId .null blobs

theorem request_read {reqId : Nat} {command : UInt8} {blobs : List Bytes} {msg : Json}
    (id_fits : reqId < 256 ^ 8) (fits : Fits [command] blobs)
    (parsed : readCommand [command] = some msg)
    (object : msg.isObj = true) :
    decodeFrame readCommand (request reqId command blobs) = .ok (reqId, msg, blobs) := by
  have framed : Framed (encode (fun _ => [command]) reqId .null blobs) reqId [command] blobs :=
    framed_of_fits id_fits fits
  exact decodeFrame_ok.mpr ⟨[command], framed, parsed, object⟩

/-- A request whose command is a list ends the process without a response. -/
theorem list_command_crashes : decodeFrame readCommand (request 7 0 []) =
      .ok (7, .obj [("command", .arr [])], []) ∧
    echo.serve [request 7 0 []] () = ([], .crashed .typeError) := by
  have got : decodeFrame readCommand (request 7 0 []) = .ok (7, .obj [("command", .arr [])], []) :=
    request_read (by decide) ⟨by decide, by decide, by decide⟩ rfl rfl
  refine ⟨got, ?_⟩
  simp only [Setting.serve, Setting.work, echo, got]
  rfl

theorem hello_hello_shutdown :
    echo.WellServed readCommand [request 1 1 [[5]], request 2 1 [], request 3 2 []] () := by
  have first : decodeFrame readCommand (request 1 1 [[5]]) =
      .ok (1, .obj [("command", .str "hello")], [[5]]) :=
    request_read (by decide) ⟨by decide, by decide, by decide⟩ rfl rfl
  have second : decodeFrame readCommand (request 2 1 []) =
      .ok (2, .obj [("command", .str "hello")], []) :=
    request_read (by decide) ⟨by decide, by decide, by decide⟩ rfl rfl
  have third : decodeFrame readCommand (request 3 2 []) =
      .ok (3, .obj [("command", .str "shutdown")], []) :=
    request_read (by decide) ⟨by decide, by decide, by decide⟩ rfl rfl
  refine (served_iff echo readCommand _ () ?_).mpr ?_
  · intro p mem
    simp only [List.mem_cons, List.not_mem_nil, or_false] at mem
    rcases mem with rfl | rfl | rfl
    · exact ⟨_, first⟩
    · exact ⟨_, second⟩
    · exact ⟨_, third⟩
  · intro _ _ _ got
    cases first.symm.trans got
    refine ⟨⟨rfl, [1], rfl, rfl, by decide, by decide, by decide, by decide⟩, fun _ => ?_⟩
    intro _ _ _ got
    cases second.symm.trans got
    refine ⟨⟨rfl, [1], rfl, rfl, by decide, by decide, by decide, by decide⟩, fun _ => ?_⟩
    intro _ _ _ got
    cases third.symm.trans got
    exact ⟨⟨rfl, [1], rfl, rfl, by decide, by decide, by decide, by decide⟩, fun stop => by cases stop⟩

end NxTinygrad.MainLoop
