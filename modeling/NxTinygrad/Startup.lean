import NxTinygrad.Devices
import NxTinygrad.Lib.Runs
import NxTinygrad.MainLoop
import NxTinygrad.Requests

/- How a worker comes up: worker_supervisor.ex, `init` of worker.ex, and main.py up to its first response. -/
namespace NxTinygrad.Startup
open BigEndian Protocol Framing MainLoop Devices Splitting
open Requests (Server)

abbrev Environment := List (String × Text)

def digits? : Text → Option Text
  | [] => none
  | c :: rest =>
      if c.isDigit then match rest with
        | [] => some [c]
        | '_' :: more => (digits? more).map (c :: ·)
        | d :: more => (digits? (d :: more)).map (c :: ·)
      else none

def pythonInt (t : Text) : Option Int :=
  match trim Python.blank t with
  | '-' :: ds => (digits? ds).map fun ds => -Int.ofNat (Nat.ofDigitChars 10 ds 0)
  | '+' :: ds => (digits? ds).map fun ds => Int.ofNat (Nat.ofDigitChars 10 ds 0)
  | ds => (digits? ds).map fun ds => Int.ofNat (Nat.ofDigitChars 10 ds 0)

/-- `configure_environment`, and the environment that `apply_env` leaves. -/
def configureEnvironment (env : Environment) : Device × Environment :=
  let spec := Python.orElse ((env.lookup "NX_TINYGRAD_DEVICE").getD [])
    (Python.orElse ((env.lookup "DEV").getD []) cpu)
  let parsed := Python.parseDevice (some spec)
  (parsed, if (env.lookup "DEV").isSome then env else ("DEV", parsed.dev) :: env)

structure Handler where
  parsedDevice : Device
  generation : Int
  environ : Environment
  deriving DecidableEq

def Handler.init (env : Environment) : Option Handler :=
  let (parsed, env) := configureEnvironment env
  (pythonInt ((env.lookup "NX_TINYGRAD_GENERATION").getD ['1'])).map fun g => ⟨parsed, g, env⟩

structure Versions where
  protocol : Int
  worker : String
  python : String
  tinygrad : String

def typeName : Json → String
  | .null => "NoneType"
  | .bool _ => "bool"
  | .int _ => "int"
  | .float _ _ | .nonFinite => "float"
  | .str _ => "str"
  | .arr _ => "list"
  | .obj _ => "dict"

def Handler.report (v : Versions) (h : Handler) : Json :=
  .obj [("protocol_version", .int v.protocol), ("worker_version", .str v.worker),
    ("python_version", .str v.python), ("tinygrad_version", .str v.tinygrad),
    ("tinygrad_commit", .str v.tinygrad), ("device", .str (String.ofList h.parsedDevice.spec)),
    ("generation", .int h.generation)]

def Handler.cmdHello (str : Json → String) (v : Versions) (h : Handler) (args : Json) : Outcome :=
  if args.isObj then match (args.field? "protocol_version").getD .null with
    | .null => .returned (h.report v) []
    | client =>
        if client.number? = some v.protocol then .returned (h.report v) []
        else .raised ⟨"ProtocolError",
          "protocol version mismatch: worker=" ++ toString v.protocol ++ ", client=" ++ str client,
          .obj [("worker", .int v.protocol), ("client", client)]⟩
  else .raised ⟨"AttributeError", "'" ++ typeName args ++ "' object has no attribute 'get'", .obj []⟩

def openPort (deviceSpec : Text) (generation debug : Nat) : Environment :=
  let parsed := Elixir.parse (some deviceSpec)
  parsed.env.map (fun e => (String.ofList e.1, e.2)) ++
    [("DEV", parsed.dev), ("NX_TINYGRAD_DEVICE", parsed.spec),
      ("NX_TINYGRAD_GENERATION", Nat.toDigits 10 generation), ("DEBUG", Nat.toDigits 10 debug),
      ("PYTHONUNBUFFERED", ['1'])]

def hello (version : Int) : Json :=
  .obj [("command", .str "hello"), ("args", .obj [("protocol_version", .int version)])]

inductive Arrival where
  | data (payload : Bytes)
  | exitStatus (status : Int)
  | nothing

inductive Refusal where
  | rejected (error : Json)
  | undecodable (reason : Reason)
  | exited (status : Int)
  | timeout
  | mismatch (version : Json) (own : Int)
  | missingVersion

inductive Handshake where
  | ok (hello : Json)
  | error (reason : Refusal)
  | raised

def equals (v : Json) (n : Int) : Bool :=
  match v with
  | .bool _ => false
  | v => v.number? = some n

def verifyProtocol (own : Int) (hello : Json) : Handshake :=
  match hello.field? "protocol_version" with
  | some v => if equals v own then .ok hello else .error (.mismatch v own)
  | none => .error .missingVersion

def handshake (parse : Bytes → Option Json) (own : Int) : Arrival → Handshake
  | .data payload => match decode parse payload with
    | .ok (_, msg, _) => match Requests.shape msg with
      | .success hello => verifyProtocol own hello
      | .failure error => .error (.rejected error)
      | .neither => .raised
    | .error reason => .error (.undecodable reason)
  | .exitStatus status => .error (.exited status)
  | .nothing => .error .timeout

/-- Configuration and environment of the BEAM, its JSON library and `@protocol_version`, and the Python side
    with the state that a handler has at first. -/
structure World (σ : Type) where
  configured : Text
  debug : Nat
  inherited : Environment
  own : Int
  jsonText : Json → Bytes
  parse : Bytes → Option Json
  versions : Versions
  loads : Bytes → Option Json
  dumps : Json → Option Bytes
  repr : Json → String
  str : Json → String
  traceback : Raised → Json
  other : String → Json → List Bytes → σ → Outcome × σ
  fresh : σ

variable {σ : Type} (W : World σ)

def World.setting (h : Handler) : Setting σ where
  loads := W.loads
  dumps := W.dumps
  repr := W.repr
  traceback := W.traceback
  run name args blobs s :=
    if name = "hello" then (h.cmdHello W.str W.versions args, s) else W.other name args blobs s

inductive Boot where
  | answers
  | exits (status : Int)
  | hangs

def World.environ (device : Text) (generation : Nat) : Environment :=
  openPort device generation W.debug ++ W.inherited

def World.frame : Bytes := encode W.jsonText 0 (hello W.own) []

def World.python (env : Environment) : Boot → Arrival
  | .exits status => .exitStatus status
  | .hangs => .nothing
  | .answers => match Handler.init env with
    | none => .exitStatus 1
    | some h => match (W.setting h).work W.frame W.fresh with
      | .answered response _ _ => .data response
      | .undecodable => .exitStatus 2
      | .crashed _ => .exitStatus 1

def World.shake (device : Text) (generation : Nat) (boot : Boot) : Handshake :=
  handshake W.parse W.own (W.python (W.environ device generation) boot)

/-- A name is `:default`, `{:device, device}`, or one that a caller of `start_worker` chose. -/
inductive Name where
  | default
  | device (spec : Text)
  | chosen (n : Nat)
  deriving DecidableEq

def workerName (configured device : Text) : Name :=
  if device = configured then .default else .device device

/-- A GenServer that came up, with `hello` of its state. -/
structure Worker where
  name : Name
  device : Text
  environ : Environment
  hello : Json
  server : Server

/-- `counter` is that of Generation; `children` are the supervisor's, by name and device. `workers` are all
    that came up, the latest first, and `told` what `worker_for_device` returned. -/
structure State where
  counter : Nat
  children : List (Name × Text)
  live : List Name
  workers : List Worker
  told : List (Text × Name)

def init : State := ⟨0, [], [], [], []⟩

/-- `start_link`: the state after it, and whether `init` returned `{:ok, state}`. -/
def World.startLink (s : State) (name : Name) (device : Text) (boot : Boot) : State × Bool :=
  let generation := s.counter + 1
  match W.shake device generation boot with
  | .ok hello =>
      ({ s with
        counter := generation
        live := name :: s.live
        workers := ⟨name, device, W.environ device generation, hello,
          ⟨generation, String.ofList device, 1, [], []⟩⟩ :: s.workers }, true)
  | _ => ({ s with counter := generation }, false)

/-- `start_child`, which `ensure_started` raises on unless the name is there afterwards. -/
def World.startWorker (s : State) (name : Name) (device : Text) (boot : Boot) : State × Bool :=
  if (s.children.map Prod.fst).contains name then (s, true)
  else match W.startLink s name device boot with
    | (s, true) => ({ s with children := (name, device) :: s.children }, true)
    | (s, false) => (s, false)

/-- Any process may call; a worker may stop at any time, and its supervisor too. -/
inductive Label where
  | workerForDevice (device : Text) (boot : Boot)
  | ensureDefaultStarted (boot : Boot)
  | startWorker (name : Name) (device : Text) (boot : Boot)
  | stop (name : Name)
  | restart (name : Name) (boot : Boot)
  | restartSupervisor

def World.step (s : State) : Label → Option State
  | .workerForDevice device boot =>
      let name := workerName W.configured device
      match W.startWorker s name device boot with
      | (s, true) => some { s with told := (device, name) :: s.told }
      | (s, false) => some s
  | .ensureDefaultStarted boot =>
      if s.live.contains .default then some s
      else some (W.startWorker s .default W.configured boot).1
  | .startWorker name device boot => some (W.startWorker s name device boot).1
  | .stop name => some { s with live := s.live.filter (· ≠ name) }
  | .restart name boot => match s.children.lookup name with
    | some device =>
        if s.live.contains name then none else some (W.startLink s name device boot).1
    | none => none
  | .restartSupervisor => some { s with children := [], live := [] }

theorem digits_plain {ds : Text} (some_digit : ds ≠ []) (plain : ∀ c ∈ ds, c.isDigit = true) :
    digits? ds = some ds := by
  induction ds with
  | nil => exact absurd rfl some_digit
  | cons c rest ih =>
    have digit := plain c (List.mem_cons_self ..)
    cases rest with
    | nil => simp [digits?, digit]
    | cons d more =>
      have next := plain d (by simp)
      have tail := ih (by simp) fun x mem => plain x (List.mem_cons_of_mem _ mem)
      have no_mark : d ≠ '_' := by
        intro mark
        rw [mark] at next
        exact absurd next (by decide)
      rw [digits?, if_pos digit, tail, Option.map_some]
      exact no_mark

theorem digit_solid {c : Char} (digit : c.isDigit = true) :
    Python.blank c = false ∧ c ≠ '-' ∧ c ≠ '+' := by
  have low : 48 ≤ c.toNat := by
    simp only [Char.isDigit, Bool.and_eq_true, decide_eq_true_eq] at digit
    exact digit.1
  refine ⟨?_, ?_, ?_⟩
  · simp only [Python.blank, Bool.or_eq_false_iff, Bool.and_eq_false_iff, decide_eq_false_iff_not]
    omega
  · rintro rfl
    revert low
    decide
  · rintro rfl
    revert low
    decide

theorem pythonInt_decimal (n : Nat) : pythonInt (Nat.toDigits 10 n) = some (n : Int) := by
  have plain : ∀ c ∈ Nat.toDigits 10 n, c.isDigit = true := fun c mem =>
    Nat.isDigit_of_mem_toDigits (by decide) (by decide) mem
  have tight : Tight Python.blank (Nat.toDigits 10 n) := by
    constructor
    · intro c first
      exact (digit_solid (plain c (List.mem_of_mem_head? first))).1
    · intro c last
      exact (digit_solid (plain c (List.mem_of_mem_getLast? last))).1
  have whole := digits_plain Nat.toDigits_ne_nil plain
  unfold pythonInt
  rw [trim_of_tight tight]
  split
  · rename_i same
    exact absurd rfl (digit_solid (plain '-' (by rw [same]; simp))).2.1
  · rename_i same
    exact absurd rfl (digit_solid (plain '+' (by rw [same]; simp))).2.2
  · rw [whole, Option.map_some, Nat.ofDigitChars_ten_toDigits]
    rfl

theorem parse_spec (spec : Text) : (Elixir.parse (some spec)).spec = Elixir.normalize (some spec) := by
  rw [parse_eq]
  rfl

theorem normalize_ne_nil (spec : Text) : Elixir.normalize (some spec) ≠ [] := by
  rw [normalize_some]
  exact orElse_ne_nil _

theorem parse_again {spec : Text} (plain : Plain (some spec)) :
    Python.parseDevice (some (Elixir.parse (some spec)).spec) = Elixir.parse (some spec) := by
  rw [parse_spec, parse_eq]
  have tight : Tight Python.blank (Elixir.normalize (some spec)) := by
    rw [normalize_some, plain.1]
    exact normalized_tight (tight_trim _ _)
  have filled : (parts (Elixir.normalize (some spec))).Filled := by
    rw [normalize_some]
    exact filled_normalized plain.2
  exact (parse_tight tight (normalize_ne_nil spec) filled).2

theorem environ_lookup (device : Text) (generation : Nat) :
    (W.environ device generation).lookup "DEV" = some (Elixir.parse (some device)).dev ∧
    (W.environ device generation).lookup "NX_TINYGRAD_DEVICE" = some (Elixir.parse (some device)).spec ∧
    (W.environ device generation).lookup "NX_TINYGRAD_GENERATION" =
      some (Nat.toDigits 10 generation) := by
  have empty : (Elixir.parse (some device)).env = [] := by
    rw [parse_eq]
    rfl
  simp [World.environ, openPort, empty, List.lookup_cons]

/-- A handler that knows the device and the generation that the BEAM gave it. -/
def World.handler (device : Text) (generation : Nat) : Handler :=
  ⟨Elixir.parse (some device), generation, W.environ device generation⟩

theorem handler_init (device : Text) (generation : Nat) : Handler.init (W.environ device generation) =
    some ⟨Python.parseDevice (some (Elixir.parse (some device)).spec), generation,
      W.environ device generation⟩ := by
  obtain ⟨dev, spec, number⟩ := environ_lookup W device generation
  have given : (Elixir.parse (some device)).spec ≠ [] := by
    rw [parse_spec]
    exact normalize_ne_nil device
  simp only [Handler.init, configureEnvironment, dev, spec, Option.getD_some, Option.isSome_some, if_true,
    Python.orElse, if_neg given, number, pythonInt_decimal, Option.map_some]

theorem handler_of_port {device : Text} (plain : Plain (some device)) (generation : Nat) :
    Handler.init (W.environ device generation) = some (W.handler device generation) := by
  rw [handler_init, parse_again plain, World.handler]

/-- The metadata of `hello` fits its frame, Python reads it as it was meant, and the BEAM reads what Python
    writes. -/
structure Speaks (W : World σ) : Prop where
  fits : (W.jsonText (hello W.own)).length < 256 ^ 4
  read : W.loads (W.jsonText (hello W.own)) = some (hello W.own)
  back : ∀ msg text, W.dumps msg = some text → W.parse text = some msg

def World.answer (h : Handler) : Json :=
  if W.own = W.versions.protocol then okMeta (h.report W.versions)
  else (W.setting h).error ⟨"ProtocolError",
    "protocol version mismatch: worker=" ++ toString W.versions.protocol ++ ", client=" ++
      W.str (.int W.own),
    .obj [("worker", .int W.versions.protocol), ("client", .int W.own)]⟩

variable {W}

theorem frame_read (speaks : Speaks W) (h : Handler) :
    decodeFrame (W.setting h).loads W.frame = .ok (0, hello W.own, []) := by
  have fits : Fits (W.jsonText (hello W.own)) [] := ⟨speaks.fits, by decide, by simp⟩
  exact decodeFrame_ok.mpr ⟨_, framed_of_fits (by decide) fits, speaks.read, rfl⟩

theorem hello_command : commandOf (hello W.own) = .str "hello" := by
  simp [commandOf, hello, Json.field?]

theorem hello_args : argsOf (hello W.own) = .obj [("protocol_version", .int W.own)] := by
  simp [argsOf, hello, Json.field?, falsy, List.lookup_cons]

theorem respond_hello (h : Handler) (s : σ) :
    (W.setting h).respond (hello W.own) [] s = (W.answer h, [], s) := by
  have same : (Json.int W.own).number? = some W.versions.protocol ↔ W.own = W.versions.protocol := by
    simp [Json.number?, Json.int?]
  have ran : h.cmdHello W.str W.versions (.obj [("protocol_version", .int W.own)]) =
      if W.own = W.versions.protocol then .returned (h.report W.versions) []
      else .raised ⟨"ProtocolError", "protocol version mismatch: worker=" ++
        toString W.versions.protocol ++ ", client=" ++ W.str (.int W.own),
        .obj [("worker", .int W.versions.protocol), ("client", .int W.own)]⟩ := by
    simp only [Handler.cmdHello, Json.isObj, if_true, Json.field?, List.lookup_cons, beq_self_eq_true,
      Option.getD_some, same]
  have known : commands.contains "hello" = true := by decide
  have going : ("hello" = "shutdown") = False := by simp
  unfold Setting.respond
  rw [hello_command, hello_args]
  simp only [known, going, if_true, if_false]
  have turn : (W.setting h).run "hello" (.obj [("protocol_version", .int W.own)]) [] s =
      (h.cmdHello W.str W.versions (.obj [("protocol_version", .int W.own)]), s) := rfl
  rw [turn, ran, World.answer]
  by_cases same : W.own = W.versions.protocol
  · rw [if_pos same, if_pos same]
  · rw [if_neg same, if_neg same]

theorem work_hello (speaks : Speaks W) (h : Handler) (s : σ) :
    (∀ frame, (W.setting h).send 0 (W.answer h) [] = .ok frame →
      (W.setting h).work W.frame s = .answered frame false s) ∧
    ∀ crash, (W.setting h).send 0 (W.answer h) [] = .error crash →
      (W.setting h).work W.frame s = .crashed crash := by
  have going : isShutdown (hello W.own) = false := by
    rw [isShutdown, hello_command]
    rfl
  have hash : MainLoop.hashable (commandOf (hello W.own)) = true := by
    rw [hello_command]
    rfl
  simp only [Setting.work, frame_read speaks h, hash, if_true, respond_hello, going]
  constructor
  · intro frame sent
    rw [sent]
  · intro crash sent
    rw [sent]

theorem python_data (speaks : Speaks W) {env : Environment} {boot : Boot} {payload : Bytes}
    (came : W.python env boot = .data payload) :
    ∃ h, Handler.init env = some h ∧ decode W.parse payload = .ok (0, W.answer h, []) := by
  cases boot with
  | exits status => cases came
  | hangs => cases came
  | answers =>
    simp only [World.python] at came
    cases made : Handler.init env with
    | none =>
      rw [made] at came
      cases came
    | some h =>
      simp only [made] at came
      cases sent : (W.setting h).send 0 (W.answer h) [] with
      | error crash =>
        rw [(work_hello speaks h W.fresh).2 crash sent] at came
        cases came
      | ok frame =>
        rw [(work_hello speaks h W.fresh).1 frame sent] at came
        cases came
        obtain ⟨text, written, framed, _⟩ := send_ok sent
        exact ⟨h, rfl, decode_ok.mpr ⟨text, framed, speaks.back _ _ written⟩⟩

theorem handshake_answer {payload : Bytes} {h : Handler}
    (read : decode W.parse payload = .ok (0, W.answer h, [])) : handshake W.parse W.own (.data payload) =
      if W.own = W.versions.protocol then .ok (h.report W.versions)
      else .error (.rejected (((W.answer h).field? "error").getD .null)) := by
  simp only [handshake, read, World.answer]
  by_cases same : W.own = W.versions.protocol
  · have equal : equals (.int W.versions.protocol) W.own = true := by
      simp [equals, Json.number?, Json.int?, same]
    have told : (h.report W.versions).field? "protocol_version" = some (.int W.versions.protocol) := rfl
    rw [if_pos same, if_pos same]
    simp only [okMeta, Requests.shape, Json.field?, List.lookup_cons]
    simp [verifyProtocol, told, equal]
  · rw [if_neg same, if_neg same]
    simp [Setting.error, Requests.shape, Json.field?, List.lookup_cons]

theorem shake_ok (speaks : Speaks W) {device : Text} (plain : Plain (some device)) {generation : Nat}
    {boot : Boot} {hello : Json} (shaken : W.shake device generation boot = .ok hello) :
    W.own = W.versions.protocol ∧ hello = (W.handler device generation).report W.versions := by
  unfold World.shake at shaken
  cases came : W.python (W.environ device generation) boot with
  | exitStatus status =>
    rw [came] at shaken
    cases shaken
  | nothing =>
    rw [came] at shaken
    cases shaken
  | data payload =>
    obtain ⟨h, made, read⟩ := python_data speaks came
    cases made.symm.trans (handler_of_port W plain generation)
    rw [came, handshake_answer read] at shaken
    split at shaken
    · rename_i same
      cases shaken
      exact ⟨same, rfl⟩
    · cases shaken

/-- Whatever the BEAM's own environment says, a worker that gets its answer out is accepted exactly if it
    speaks the BEAM's protocol version. Another one rejects the request itself. -/
theorem versions_met (speaks : Speaks W) (device : Text) (generation : Nat) :
    ∃ h, Handler.init (W.environ device generation) = some h ∧ h.generation = generation ∧
      ∀ text, W.dumps (W.answer h) = some text → text.length < 2 ^ 31 →
        (W.own = W.versions.protocol →
          W.shake device generation .answers = .ok (h.report W.versions)) ∧
        (W.own ≠ W.versions.protocol →
          ∃ error, W.shake device generation .answers = .error (.rejected error) ∧
            error.field? "class" = some (.str "ProtocolError") ∧
            error.field? "details" =
              some (.obj [("worker", .int W.versions.protocol), ("client", .int W.own)])) := by
  refine ⟨_, handler_init W device generation, rfl, ?_⟩
  have started := handler_init W device generation
  generalize (⟨_, _, _⟩ : Handler) = h at started ⊢
  intro text written small
  have fits : Fits text [] := ⟨by omega, by decide, by simp⟩
  have room : headerSize + ([] : List Bytes).length * 8 + text.length + ([] : List Bytes).flatten.length <
      256 ^ 4 := by
    simp only [headerSize, List.length_nil, List.flatten_nil]
    omega
  obtain ⟨frame, sent⟩ : ∃ frame, (W.setting h).send 0 (W.answer h) [] = .ok frame :=
    send_of_fits (by decide) written fits room
  obtain ⟨text', written', framed, _⟩ := send_ok sent
  have read := decode_ok.mpr ⟨text', framed, speaks.back _ _ written'⟩
  have came : W.python (W.environ device generation) .answers = .data frame := by
    simp only [World.python, started, (work_hello speaks h W.fresh).1 frame sent]
  rw [World.shake, came, handshake_answer read]
  constructor
  · intro same
    rw [if_pos same]
  · intro other
    rw [if_neg other]
    refine ⟨_, rfl, ?_, ?_⟩
    · simp [World.answer, other, Setting.error, Json.field?, List.lookup_cons]
    · simp [World.answer, other, Setting.error, Json.field?, List.lookup_cons]

def Belongs (W : World σ) (device : Text) : Name → Prop
  | .default => device = W.configured
  | .device spec => device = spec
  | .chosen _ => True

/-- A worker that runs for a device, and whose process knows so. -/
structure Serves (W : World σ) (w : Worker) (device : Text) : Prop where
  serving : w.device = device
  server : w.server = ⟨w.server.generation, String.ofList device, 1, [], []⟩
  dev : w.environ.lookup "DEV" = some (Elixir.parse (some device)).dev
  handler : Handler.init w.environ = some (W.handler device w.server.generation)
  hello : w.hello = (W.handler device w.server.generation).report W.versions
  version : W.own = W.versions.protocol

structure Inv (W : World σ) (s : State) : Prop where
  serves : ∀ w ∈ s.workers, Serves W w w.device
  belongs : ∀ w ∈ s.workers, Belongs W w.device w.name
  past : ∀ w ∈ s.workers, w.server.generation ≤ s.counter
  apart : s.workers.Pairwise fun w w' => w'.server.generation < w.server.generation
  children : ∀ c ∈ s.children, Belongs W c.2 c.1 ∧ Plain (some c.2)
  listed : ∀ n ∈ s.live, ∃ device, s.children.lookup n = some device ∧
    ∃ w ∈ s.workers, w.name = n ∧ w.device = device
  single : s.live.Nodup
  told : ∀ p ∈ s.told, p.2 = workerName W.configured p.1

/-- Callers name their own workers by names of their own, and both parsers read the devices alike. -/
def Allowed (_ : State) : Label → Prop
  | .workerForDevice device _ => Plain (some device)
  | .startWorker name device _ => Plain (some device) ∧ ∃ n, name = .chosen n
  | _ => True

theorem inv_init : Inv W init where
  serves _ mem := by cases mem
  belongs _ mem := by cases mem
  past _ mem := by cases mem
  apart := .nil
  children _ mem := by cases mem
  listed _ mem := by cases mem
  single := .nil
  told _ mem := by cases mem

section kept
variable {s t : State} {name : Name} {device : Text} {boot : Boot}

theorem startLink_cases (s : State) (name : Name) (device : Text) (boot : Boot) :
    W.startLink s name device boot = ({ s with counter := s.counter + 1 }, false) ∨
    ∃ hello, W.shake device (s.counter + 1) boot = .ok hello ∧
      W.startLink s name device boot = ({ s with
        counter := s.counter + 1
        live := name :: s.live
        workers := ⟨name, device, W.environ device (s.counter + 1), hello,
          ⟨s.counter + 1, String.ofList device, 1, [], []⟩⟩ :: s.workers }, true) := by
  cases shaken : W.shake device (s.counter + 1) boot with
  | ok hello => exact .inr ⟨hello, rfl, by simp only [World.startLink, shaken]⟩
  | error reason => exact .inl (by simp only [World.startLink, shaken])
  | raised => exact .inl (by simp only [World.startLink, shaken])

theorem inv_counter (inv : Inv W s) : Inv W { s with counter := s.counter + 1 } :=
  { inv with past := fun w mem => Nat.le_succ_of_le (inv.past w mem) }

theorem inv_startLink (speaks : Speaks W) (inv : Inv W s) (child : s.children.lookup name = some device)
    (idle : name ∉ s.live) : Inv W (W.startLink s name device boot).1 := by
  obtain ⟨l, l', split, _⟩ := List.lookup_eq_some_iff.mp child
  obtain ⟨belongs, plain⟩ := inv.children (name, device) (by simp [split])
  rcases startLink_cases (W := W) s name device boot with failed | ⟨hello, shaken, came⟩
  · rw [failed]
    exact inv_counter inv
  · obtain ⟨version, told⟩ := shake_ok speaks plain shaken
    have dev := (environ_lookup W device (s.counter + 1)).1
    rw [came]
    constructor
    · intro w mem
      rcases List.mem_cons.mp mem with rfl | old
      · exact ⟨rfl, rfl, dev, handler_of_port W plain _, told, version⟩
      · exact inv.serves w old
    · intro w mem
      rcases List.mem_cons.mp mem with rfl | old
      · exact belongs
      · exact inv.belongs w old
    · intro w mem
      rcases List.mem_cons.mp mem with rfl | old
      · exact Nat.le_refl _
      · exact Nat.le_succ_of_le (inv.past w old)
    · exact .cons (fun w mem => Nat.lt_succ_of_le (inv.past w mem)) inv.apart
    · exact inv.children
    · intro n mem
      rcases List.mem_cons.mp mem with rfl | old
      · exact ⟨device, child, _, List.mem_cons_self .., rfl, rfl⟩
      · obtain ⟨device', there, w, among, same⟩ := inv.listed n old
        exact ⟨device', there, w, List.mem_cons_of_mem _ among, same⟩
    · exact List.nodup_cons.mpr ⟨idle, inv.single⟩
    · exact inv.told

theorem inv_startWorker (speaks : Speaks W) (inv : Inv W s) (belongs : Belongs W device name)
    (plain : Plain (some device)) : Inv W (W.startWorker s name device boot).1 := by
  unfold World.startWorker
  cases there : (s.children.map Prod.fst).contains name with
  | true => exact inv
  | false =>
    have fresh : name ∉ s.children.map Prod.fst := by simpa using there
    have idle : name ∉ s.live := by
      intro mem
      obtain ⟨_, found, _⟩ := inv.listed name mem
      obtain ⟨l, l', split, _⟩ := List.lookup_eq_some_iff.mp found
      exact fresh (by simp [split])
    -- the child is listed first, and then comes up
    have listed : Inv W { s with children := (name, device) :: s.children } := by
      refine { inv with children := ?_, listed := ?_ }
      · intro c mem
        rcases List.mem_cons.mp mem with rfl | old
        · exact ⟨belongs, plain⟩
        · exact inv.children c old
      · intro n mem
        have other : (n == name) = false := beq_eq_false_iff_ne.mpr fun same => idle (same ▸ mem)
        obtain ⟨device', found, more⟩ := inv.listed n mem
        exact ⟨device', by rw [List.lookup_cons, other]; exact found, more⟩
    have first : ((name, device) :: s.children).lookup name = some device := by simp
    have up : Inv W (W.startLink { s with children := (name, device) :: s.children } name device boot).1 :=
      inv_startLink speaks listed first idle
    rcases startLink_cases (W := W) s name device boot with failed | ⟨hello, shaken, came⟩
    · rw [failed]
      exact inv_counter inv
    · simp only [World.startLink, shaken] at up
      rw [came]
      exact up

theorem belongs_name (device : Text) : Belongs W device (workerName W.configured device) := by
  unfold workerName
  split
  · assumption
  · rfl

theorem inv_step (speaks : Speaks W) (plain : Plain (some W.configured)) (inv : Inv W s) {a : Label}
    (allowed : Allowed s a) (moved : W.step s a = some t) : Inv W t := by
  cases a with
  | workerForDevice device boot =>
    simp only [World.step] at moved
    have kept : Inv W (W.startWorker s (workerName W.configured device) device boot).1 :=
      inv_startWorker speaks inv (belongs_name device) allowed
    generalize W.startWorker s (workerName W.configured device) device boot = r at kept moved
    obtain ⟨u, up⟩ := r
    cases up with
    | false =>
      cases moved
      exact kept
    | true =>
      cases moved
      refine { kept with told := ?_ }
      intro p mem
      rcases List.mem_cons.mp mem with rfl | old
      · rfl
      · exact kept.told p old
  | ensureDefaultStarted boot =>
    simp only [World.step] at moved
    split at moved
    · cases moved
      exact inv
    · cases moved
      exact inv_startWorker speaks inv rfl plain
  | startWorker name device boot =>
    cases moved
    obtain ⟨plain', n, rfl⟩ := allowed
    exact inv_startWorker speaks inv trivial plain'
  | stop name =>
    cases moved
    refine { inv with listed := ?_, single := inv.single.filter _ }
    intro n mem
    exact inv.listed n (List.mem_of_mem_filter mem)
  | restart name boot =>
    simp only [World.step] at moved
    cases child : s.children.lookup name with
    | none =>
      rw [child] at moved
      cases moved
    | some device =>
      simp only [child] at moved
      split at moved
      · cases moved
      · rename_i idle
        cases moved
        exact inv_startLink speaks inv child (by simpa using idle)
  | restartSupervisor =>
    cases moved
    exact { inv with
      children := fun _ mem => by cases mem
      listed := fun _ mem => by cases mem
      single := .nil }

end kept

/-- `worker_for_device` names workers of the device only: each one that ever comes up under the name, after
    any number of stops and restarts, has a process with the `DEV` of the device, of which it was told the
    device and the worker's own generation, and which speaks the same protocol version. No two workers have
    the same generation, a later one has a higher one, and at most one of them is up under a name. -/
theorem devices_served (speaks : Speaks W) (plain : Plain (some W.configured)) {s : State}
    (ran : Runs.Run W.step Allowed init s) :
    (∀ p ∈ s.told, ∀ w ∈ s.workers, w.name = p.2 → Serves W w p.1) ∧
    (s.workers.Pairwise fun w w' => w'.server.generation < w.server.generation) ∧
    s.live.Nodup ∧ ∀ n ∈ s.live, ∃ device, s.children.lookup n = some device ∧
      ∃ w ∈ s.workers, w.name = n ∧ Serves W w device := by
  have inv : Inv W s := by
    apply Runs.run_invariant (Inv W) ran inv_init
    intro s a t inv allowed moved
    exact inv_step speaks plain inv allowed moved
  refine ⟨?_, inv.apart, inv.single, ?_⟩
  · intro p mem w among named
    have belongs := inv.belongs w among
    rw [named, inv.told p mem] at belongs
    have same : w.device = p.1 := by
      unfold workerName at belongs
      split at belongs
      · rename_i configured
        exact belongs.trans configured.symm
      · exact belongs
    exact same ▸ inv.serves w among
  · intro n mem
    obtain ⟨device, there, w, among, named, same⟩ := inv.listed n mem
    exact ⟨device, there, w, among, named, same ▸ inv.serves w among⟩

/-! A worker for another device, which is restarted, on a BEAM that was itself started with a `DEV`. -/

def writeHello (msg : Json) : Option Bytes :=
  match msg with
  | .obj [("ok", .bool true), ("result", .obj [("protocol_version", .int 1), ("worker_version", .str ""),
      ("python_version", .str ""), ("tinygrad_version", .str ""), ("tinygrad_commit", .str ""),
      ("device", .str "AMD"), ("generation", .int 1)])] => some [1]
  | .obj [("ok", .bool true), ("result", .obj [("protocol_version", .int 1), ("worker_version", .str ""),
      ("python_version", .str ""), ("tinygrad_version", .str ""), ("tinygrad_commit", .str ""),
      ("device", .str "CPU"), ("generation", .int 2)])] => some [2]
  | .obj [("ok", .bool true), ("result", .obj [("protocol_version", .int 1), ("worker_version", .str ""),
      ("python_version", .str ""), ("tinygrad_version", .str ""), ("tinygrad_commit", .str ""),
      ("device", .str "AMD"), ("generation", .int 3)])] => some [3]
  | _ => none

def helloFrom (device : String) (generation : Int) : Json :=
  okMeta (.obj [("protocol_version", .int 1), ("worker_version", .str ""), ("python_version", .str ""),
    ("tinygrad_version", .str ""), ("tinygrad_commit", .str ""), ("device", .str device),
    ("generation", .int generation)])

def readHello (text : Bytes) : Option Json :=
  match text with
  | [1] => some (helloFrom "AMD" 1)
  | [2] => some (helloFrom "CPU" 2)
  | [3] => some (helloFrom "AMD" 3)
  | _ => none

def twoDevices : World Unit where
  configured := cpu
  debug := 0
  inherited := [("DEV", ['G', 'P', 'U']), ("NX_TINYGRAD_GENERATION", ['9'])]
  own := 1
  jsonText _ := [0]
  parse := readHello
  versions := ⟨1, "", "", ""⟩
  loads text := if text = [0] then some (hello 1) else none
  dumps := writeHello
  repr _ := ""
  str _ := ""
  traceback _ := .null
  other _ _ _ s := (.raised ⟨"ValueError", "", .obj []⟩, s)
  fresh := ()

theorem twoDevices_speak : Speaks twoDevices := by
  refine ⟨by decide, rfl, ?_⟩
  intro msg text written
  have written : writeHello msg = some text := written
  show readHello text = some msg
  unfold writeHello at written
  split at written
  · cases written
    rfl
  · cases written
    rfl
  · cases written
    rfl
  · cases written

theorem first_version_met : twoDevices.shake amd 1 .answers = .ok (Handler.report ⟨1, "", "", ""⟩
    (twoDevices.handler amd 1)) := by
  obtain ⟨h, made, _, met⟩ := versions_met twoDevices_speak amd 1
  have same : h = twoDevices.handler amd 1 :=
    Option.some.inj (made.symm.trans (handler_of_port twoDevices ⟨by decide, by decide, by decide⟩ 1))
  have written : twoDevices.dumps (twoDevices.answer (twoDevices.handler amd 1)) = some [1] := by decide
  subst same
  exact (met [1] written (by decide)).1 rfl

def restarted : List Label :=
  [.workerForDevice amd .answers, .workerForDevice cpu .answers, .stop (.device amd),
    .restart (.device amd) .answers]

theorem restarted_serves : ∃ s, Runs.follow twoDevices.step init restarted = some s ∧
    s.told = [(cpu, .default), (amd, .device amd)] ∧
    s.workers.map (fun w => (w.name, w.server.generation)) =
      [(.device amd, 3), (.default, 2), (.device amd, 1)] ∧
    (∀ p ∈ s.told, ∀ w ∈ s.workers, w.name = p.2 → Serves twoDevices w p.1) ∧
    (s.workers.Pairwise fun w w' => w'.server.generation < w.server.generation) ∧
    s.live.Nodup ∧ ∀ n ∈ s.live, ∃ device, s.children.lookup n = some device ∧
      ∃ w ∈ s.workers, w.name = n ∧ Serves twoDevices w device := by
  have ends : (Runs.follow twoDevices.step init restarted).map (fun s =>
      (s.told, s.workers.map fun w => (w.name, w.server.generation))) =
      some ([(cpu, .default), (amd, .device amd)],
        [(.device amd, 3), (.default, 2), (.device amd, 1)]) := by decide
  obtain ⟨s, done, same⟩ := Option.map_eq_some_iff.mp ends
  obtain ⟨told, workers⟩ := Prod.mk.inj same
  have cpu_plain : Plain (some cpu) := ⟨by decide, by decide, by decide⟩
  have amd_plain : Plain (some amd) := ⟨by decide, by decide, by decide⟩
  have run : Runs.Run twoDevices.step Allowed init s := by
    apply Runs.guarded_of_follow _ done
    intro a mem t
    simp only [restarted, List.mem_cons, List.not_mem_nil, or_false] at mem
    rcases mem with rfl | rfl | rfl | rfl
    · exact amd_plain
    · exact cpu_plain
    · trivial
    · trivial
  exact ⟨s, done, told, workers, devices_served twoDevices_speak cpu_plain run⟩

end NxTinygrad.Startup
