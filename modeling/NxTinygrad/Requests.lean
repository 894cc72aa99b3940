import NxTinygrad.Lib.Runs
import NxTinygrad.Protocol

/- The GenServer that owns the port of one worker: requests waiting for their response, their timers,
   and the callers inside `GenServer.call`. The JSON library is a parameter. -/
namespace NxTinygrad.Requests
open Protocol BigEndian

structure WorkerError where
  message : Json
  kind : Json
  command : Option String
  generation : Nat
  device : String
  details : Json
  pythonTraceback : Json

inductive ExitReason where
  | status (n : Int)
  | reason (why : String)
  deriving DecidableEq

inductive Failure where
  | worker (e : WorkerError)
  | crashed (exitStatus : ExitReason) (generation : Nat)
  | undecodable (reason : Reason)
  | malformedResponse

/-- The end of one call of `Worker.request`; `exited` is the caller crashed by `GenServer.call`. -/
inductive Outcome where
  | ok (result : Json) (blobs : List Bytes)
  | error (e : Failure)
  | exited

structure Request where
  command : String
  args : Json
  blobs : List Bytes
  timeout : Nat

structure Entry where
  caller : Nat
  command : String

/-- `pending` is keyed by request id, and `timers` are the request ids whose timer runs. -/
structure Server where
  generation : Nat
  device : String
  nextReqId : Nat
  pending : List (Nat × Entry)
  timers : List Nat

def Server.find (srv : Server) (id : Nat) : Option (Nat × Entry) := srv.pending.find? (·.1 == id)

def Server.pop (srv : Server) (id : Nat) : Server :=
  { srv with pending := srv.pending.eraseP (·.1 == id) }

inductive Message where
  | request (caller : Nat) (r : Request)
  | data (payload : Bytes)
  | requestTimeout (id : Nat)
  | exitStatus (status : Int)
  | exit (why : String)
  | other

/-- What a callback comes to: it goes on, it stops the server after its replies, or it raises. -/
inductive Done where
  | noreply (srv : Server) (replies : List (Nat × Outcome))
  | stop (replies : List (Nat × Outcome))
  | raise

def requestFrame (jsonText : Json → Bytes) (id : Nat) (r : Request) : Bytes :=
  encode jsonText id (.obj [("command", .str r.command), ("args", r.args)]) r.blobs

/-- `handle_call` of a request, once the port has taken the frame. -/
def Server.enqueue (srv : Server) (caller : Nat) (r : Request) : Server :=
  { srv with
    nextReqId := srv.nextReqId + 1
    pending := (srv.nextReqId, ⟨caller, r.command⟩) :: srv.pending
    timers := srv.nextReqId :: srv.timers }

def Server.workerError (srv : Server) (fields : List (String × Json)) (command : String) :
    WorkerError where
  message := (fields.lookup "message").getD (.str "worker error")
  kind := (fields.lookup "class").getD (.str "WorkerError")
  command := some command
  generation := srv.generation
  device := srv.device
  details := (fields.lookup "details").getD (.obj [])
  pythonTraceback := (fields.lookup "python_traceback").getD .null

inductive Shape where
  | success (result : Json)
  | failure (error : Json)
  | neither

def shape (msg : Json) : Shape :=
  match msg.field? "ok", msg.field? "result", msg.field? "error" with
  | some (.bool true), some result, _ => .success result
  | some (.bool false), _, some error => .failure error
  | _, _, _ => .neither

/-- `response`; `Map.get` of an error that is no map raises. -/
def Server.response (srv : Server) (msg : Json) (blobs : List Bytes) (command : String) :
    Option Outcome :=
  match shape msg with
  | .success result => some (.ok result blobs)
  | .failure (.obj fields) => some (.error (.worker (srv.workerError fields command)))
  | .failure _ => none
  | .neither => some (.error .malformedResponse)

def Server.deliver (srv : Server) (id : Nat) (msg : Json) (blobs : List Bytes) : Done :=
  match srv.find id with
  | none => .noreply srv []
  | some (_, e) => match srv.response msg blobs e.command with
    | some o => .noreply { srv.pop id with timers := srv.timers.erase id } [(e.caller, o)]
    | none => .raise

def Server.failAll (srv : Server) (e : Failure) : Done :=
  .stop (srv.pending.map fun (_, entry) => (entry.caller, .error e))

def Server.timeoutError (srv : Server) : WorkerError where
  message := .str "request timed out"
  kind := .str "Timeout"
  command := none
  generation := srv.generation
  device := srv.device
  details := .obj []
  pythonTraceback := .null

def Server.handleInfo (srv : Server) (parse : Bytes → Option Json) : Message → Done
  | .data payload => match decode parse payload with
    | .ok (id, msg, blobs) => srv.deliver id msg blobs
    | .error reason => srv.failAll (.undecodable reason)
  | .requestTimeout id => match srv.find id with
    | none => .noreply srv []
    | some (_, e) => .noreply (srv.pop id) [(e.caller, .error (.worker srv.timeoutError))]
  | .exitStatus status => srv.failAll (.crashed (.status status) srv.generation)
  | .exit why => srv.failAll (.crashed (.reason why) srv.generation)
  | _ => .noreply srv []

/-! The GenServer, its port and its callers. -/

/-- `outcomes` is what the calls have come to, oldest first, and `gone` the callers whose
    `GenServer.call` has timed out. The fields `written`, `arrived` and `sent` record the frames in
    both directions and the caller of every request id. -/
structure State where
  server : Option Server
  portOpen : Bool
  mailbox : List Message
  calls : Nat
  gone : List Nat
  outcomes : List (Nat × Outcome)
  written : List Bytes
  arrived : List Bytes
  sent : List (Nat × Nat)

def init (generation : Nat) (device : String) : State :=
  { server := some ⟨generation, device, 1, [], []⟩, portOpen := true, mailbox := [], calls := 0, gone := []
    outcomes := [], written := [], arrived := [], sent := [] }

inductive Label where
  | call (r : Request)
  | receive
  | respond (payload : Bytes)
  | fire (id : Nat)
  | exitStatus (status : Int)
  | portExit (why : String)
  | stray
  | giveUp (c : Nat)

def callerOf : Message → Option Nat
  | .request c _ => some c
  | _ => none

def Server.callers (srv : Server) : List Nat := srv.pending.map fun p => p.2.caller

def State.callers (s : State) : List Nat :=
  s.mailbox.filterMap callerOf ++ (s.server.toList.flatMap Server.callers)

/-- `GenServer.reply`; nobody hears the reply to a caller that is gone. -/
def State.reply (s : State) (replies : List (Nat × Outcome)) : State :=
  { s with outcomes := s.outcomes ++ replies.filter fun r => !s.gone.contains r.1 }

def State.down (s : State) (unanswered : List Nat) : State :=
  { s.reply (unanswered.map fun c =>
    (c, .exited)) with server := none, portOpen := false, mailbox := [] }

/-- A message arrives, if there is somebody to take it. -/
def State.post (s : State) (m : Message) : State :=
  if s.server.isSome then { s with mailbox := s.mailbox ++ [m] } else s

def State.receive (jsonText : Json → Bytes) (parse : Bytes → Option Json) (s : State) : Option State :=
  match s.server, s.mailbox with
  | some srv, m :: rest =>
      let t := { s with mailbox := rest }
      match m with
      | .request c r =>
          -- `Port.command` raises on a closed port
          if s.portOpen then
            some { t with
              server := some (srv.enqueue c r)
              written := t.written ++ [requestFrame jsonText srv.nextReqId r]
              sent := (srv.nextReqId, c) :: t.sent }
          else some (t.down (c :: t.callers))
      | _ => match srv.handleInfo parse m with
        | .noreply next replies => some { t.reply replies with server := some next }
        | .stop replies => some ((t.reply replies).down (rest.filterMap callerOf))
        | .raise => some (t.down t.callers)
  | _, _ => none

def step (jsonText : Json → Bytes) (parse : Bytes → Option Json) (s : State) : Label → Option State
  | .call r =>
      let t := { s with calls := s.calls + 1 }
      -- nobody is registered under the name of a stopped worker
      if s.server.isSome then some (t.post (.request s.calls r))
      else some (t.reply [(s.calls, .exited)])
  | .receive => s.receive jsonText parse
  | .respond payload =>
      if s.portOpen then some { s.post (.data payload) with arrived := s.arrived ++ [payload] }
      else none
  | .fire id => s.server.bind fun srv =>
      if srv.timers.contains id then
        some ({ s with server := some { srv with timers := srv.timers.erase id } }.post
          (.requestTimeout id))
      else none
  | .exitStatus status =>
      -- the port closes and sends its last messages
      if s.portOpen then some (({ s with portOpen := false }.post (.exitStatus status)).post
        (.exit "normal"))
      else none
  | .portExit why => if s.portOpen then some ({ s with portOpen := false }.post (.exit why)) else none
  | .stray => some (s.post .other)
  | .giveUp c =>
      if s.callers.contains c && !s.gone.contains c then
        some { s with outcomes := s.outcomes ++ [(c, .exited)], gone := c :: s.gone }
      else none

variable {jsonText : Json → Bytes} {parse : Bytes → Option Json} {s t : State}

/-- The answer of a call: the result of a response frame that bears its own request id, or an error. -/
def Own (parse : Bytes → Option Json) (s : State) (c : Nat) : Outcome → Prop
  | .ok result blobs => ∃ id payload msg, (id, c) ∈ s.sent ∧ payload ∈ s.arrived ∧
      decode parse payload = .ok (id, msg, blobs) ∧ shape msg = .success result
  | .error _ => True
  | .exited => False

def Raises (msg : Json) : Prop := ∃ error, shape msg = .failure error ∧ error.isObj = false

def NoRequest (ms : List Message) : Prop := ms.filterMap callerOf = []

/-- Nobody calls a stopped worker, the GenServer takes no request while the port is closed, it stops
    with no request left in its mailbox and does not raise, and no caller gives up by itself. -/
def Safe (parse : Bytes → Option Json) (s : State) : Label → Prop
  | .call _ => s.server.isSome = true
  | .giveUp _ => False
  | .receive => ∀ srv m rest, s.server = some srv → s.mailbox = m :: rest → match m with
      | .request _ _ => s.portOpen = true
      | .data payload => match decode parse payload with
        | .ok (id, msg, _) => Raises msg → srv.find id = none
        | .error _ => NoRequest rest
      | .exitStatus _ | .exit _ => NoRequest rest
      | _ => True
  | _ => True

structure Inv (parse : Bytes → Option Json) (s : State) : Prop where
  all : (s.callers ++ s.outcomes.map Prod.fst).Perm (List.range s.calls)
  present : s.gone = []
  own : ∀ p ∈ s.outcomes, Own parse s p.1 p.2
  sent : ∀ srv, s.server = some srv → ∀ p ∈ srv.pending, (p.1, p.2.caller) ∈ s.sent
  fresh : ∀ srv, s.server = some srv → ∀ p ∈ s.sent, p.1 < srv.nextReqId
  distinct : (s.sent.map Prod.fst).Nodup
  keys : ∀ srv, s.server = some srv → (srv.pending.map Prod.fst).Nodup
  timed : ∀ srv, s.server = some srv → ∀ p ∈ srv.pending,
    p.1 ∈ srv.timers ∨ .requestTimeout p.1 ∈ s.mailbox
  frames : ∀ payload, .data payload ∈ s.mailbox → payload ∈ s.arrived
  stopped : s.server = none → s.mailbox = []

theorem inv_init (generation : Nat) (device : String) : Inv parse (init generation device) := by
  constructor <;> simp [init, State.callers, Server.callers]

theorem own_later {c : Nat} {o : Outcome} (own : Own parse s c o) (sent : ∀ p ∈ s.sent, p ∈ t.sent)
    (arrived : ∀ p ∈ s.arrived, p ∈ t.arrived) : Own parse t c o := by
  cases o with
  | ok result blobs =>
    obtain ⟨id, payload, msg, mine, came, read⟩ := own
    exact ⟨id, payload, msg, sent _ mine, arrived _ came, read⟩
  | error e => trivial
  | exited => exact own

theorem find_perm {α : Type} {p : α → Bool} {xs : List α} {a : α} (found : xs.find? p = some a) :
    xs.Perm (a :: xs.eraseP p) := by
  induction xs with
  | nil => cases found
  | cons x xs ih =>
    by_cases hit : p x = true
    · rw [List.find?_cons_of_pos hit] at found
      cases found
      rw [List.eraseP_cons_of_pos hit]
    · rw [List.find?_cons_of_neg hit] at found
      rw [List.eraseP_cons_of_neg hit]
      exact ((ih found).cons x).trans (.swap a x _)

theorem find_key {srv : Server} {id : Nat} {p : Nat × Entry} (found : srv.find id = some p) :
    p.1 = id := by
  simpa using List.find?_some found

theorem pop_perm {srv : Server} {id : Nat} {p : Nat × Entry} (found : srv.find id = some p) :
    srv.pending.Perm (p :: (srv.pop id).pending) := find_perm found

theorem pop_other {srv : Server} {id : Nat} {p : Nat × Entry} (found : srv.find id = some p)
    (keys : (srv.pending.map Prod.fst).Nodup) {q : Nat × Entry} (mem : q ∈ (srv.pop id).pending) :
    q ∈ srv.pending ∧ q.1 ≠ id := by
  have perm := pop_perm found
  refine ⟨perm.mem_iff.mpr (List.mem_cons_of_mem p mem), ?_⟩
  have keys := (perm.map Prod.fst).nodup_iff.mp keys
  rw [List.map_cons, List.nodup_cons, find_key found] at keys
  rintro rfl
  exact keys.1 (List.mem_map_of_mem mem)

theorem callers_up {srv : Server} (up : s.server = some srv) :
    s.callers = s.mailbox.filterMap callerOf ++ srv.callers := by
  simp [State.callers, up]

theorem inv_post {m : Message} (inv : Inv parse s) (quiet : callerOf m = none)
    (came : ∀ payload, m = .data payload → payload ∈ s.arrived) : Inv parse (s.post m) := by
  unfold State.post
  split
  · rename_i up
    refine { inv with all := ?_, timed := ?_, frames := ?_, stopped := ?_ }
    · have same : ({ s with mailbox := s.mailbox ++ [m] } : State).callers = s.callers := by
        simp [State.callers, quiet]
      rw [same]
      exact inv.all
    · intro srv up p mem
      exact (inv.timed srv up p mem).imp_right fun there => List.mem_append_left _ there
    · intro payload mem
      rcases List.mem_append.mp mem with old | new
      · exact inv.frames payload old
      · exact came payload (List.mem_singleton.mp new).symm
    · intro down
      have down : s.server = none := down
      rw [down] at up
      cases up
  · exact inv

theorem inv_call {r : Request} (inv : Inv parse s) (up : s.server.isSome = true) :
    Inv parse ({ s with calls := s.calls + 1 }.post (.request s.calls r)) := by
  unfold State.post
  rw [if_pos up]
  refine { inv with all := ?_, timed := ?_, frames := ?_, stopped := ?_ }
  · have all := inv.all
    simp only [State.callers, List.range_succ, List.filterMap_append, List.filterMap_cons,
      List.filterMap_nil, callerOf, List.append_assoc] at all ⊢
    have moved := @List.perm_append_comm _ [s.calls]
      (s.server.toList.flatMap Server.callers ++ s.outcomes.map Prod.fst)
    have whole := (moved.append_left (s.mailbox.filterMap callerOf)).trans
      (by simpa using all.append_right [s.calls])
    simpa using whole
  · intro srv' up' p mem
    exact (inv.timed srv' up' p mem).imp_right fun there => List.mem_append_left _ there
  · intro payload mem
    exact inv.frames payload (by simpa using mem)
  · intro down
    have down : s.server = none := down
    rw [down] at up
    cases up

theorem inv_enqueue {srv : Server} {c : Nat} {r : Request} {rest : List Message} {written : List Bytes}
    (inv : Inv parse s) (up : s.server = some srv) (box : s.mailbox = .request c r :: rest) :
    Inv parse { s with
      mailbox := rest, server := some (srv.enqueue c r), written := written
      sent := (srv.nextReqId, c) :: s.sent } := by
  refine ⟨?_, inv.present, ?_, ?_, ?_, ?_, ?_, ?_, ?_, nofun⟩
  · have all := inv.all
    rw [callers_up up, box] at all
    rw [callers_up rfl]
    simp only [Server.callers, Server.enqueue, List.map_cons, callerOf, List.filterMap_cons] at all ⊢
    refine (List.Perm.append_right _ ?_).trans all
    exact List.perm_middle
  · exact fun p mem => own_later (inv.own p mem)
      (fun q there => List.mem_cons_of_mem _ there) fun _ h => h
  · rintro srv' ⟨⟩ p mem
    rcases List.mem_cons.mp mem with rfl | old
    · exact List.mem_cons_self
    · exact List.mem_cons_of_mem _ (inv.sent srv up p old)
  · rintro srv' ⟨⟩ p mem
    rcases List.mem_cons.mp mem with rfl | old
    · exact Nat.lt_succ_self _
    · exact Nat.lt_succ_of_lt (inv.fresh srv up p old)
  · rw [List.map_cons, List.nodup_cons]
    refine ⟨?_, inv.distinct⟩
    intro mem
    obtain ⟨p, there, same⟩ := List.mem_map.mp mem
    have old := inv.fresh srv up p there
    omega
  · rintro srv' ⟨⟩
    simp only [Server.enqueue, List.map_cons, List.nodup_cons]
    refine ⟨?_, inv.keys srv up⟩
    intro mem
    obtain ⟨p, there, same⟩ := List.mem_map.mp mem
    have old := inv.fresh srv up _ (inv.sent srv up p there)
    omega
  · rintro srv' ⟨⟩ p mem
    rcases List.mem_cons.mp mem with rfl | old
    · exact Or.inl List.mem_cons_self
    · rcases inv.timed srv up p old with runs | fired
      · exact Or.inl (List.mem_cons_of_mem _ runs)
      · rw [box] at fired
        exact Or.inr (by simpa using fired)
  · intro payload mem
    apply inv.frames payload
    rw [box]
    exact List.mem_cons_of_mem _ mem

theorem inv_skip {srv : Server} {m : Message} {rest : List Message} (inv : Inv parse s)
    (up : s.server = some srv) (box : s.mailbox = m :: rest) (quiet : callerOf m = none)
    (late : ∀ id, m = .requestTimeout id → srv.find id = none) :
    Inv parse ({ s with mailbox := rest }.reply []) := by
  have same : (({ s with mailbox := rest } : State).reply []).callers = s.callers := by
    simp [State.callers, State.reply, box, quiet]
  refine ⟨?_, inv.present, ?_, inv.sent, inv.fresh, inv.distinct, inv.keys, ?_, ?_, ?_⟩
  · rw [same]
    simpa [State.reply] using inv.all
  · exact fun p mem => own_later (inv.own p (by simpa [State.reply] using mem))
      (fun _ h => h) fun _ h => h
  · intro srv' up' p mem
    cases Option.some.inj (up.symm.trans up')
    rcases inv.timed srv up p mem with runs | fired
    · exact Or.inl runs
    · rw [box] at fired
      rcases List.mem_cons.mp fired with this | later
      · have none := List.find?_eq_none.mp (late p.1 this.symm) p mem
        exact absurd (beq_self_eq_true p.1) none
      · exact Or.inr later
  · intro payload mem
    apply inv.frames payload
    rw [box]
    exact List.mem_cons_of_mem _ mem
  · intro down
    cases up.symm.trans down

theorem inv_answer {srv : Server} {m : Message} {rest : List Message} {id : Nat} {p : Nat × Entry}
    {o : Outcome} {timers : List Nat} (inv : Inv parse s) (up : s.server = some srv)
    (box : s.mailbox = m :: rest) (quiet : callerOf m = none) (found : srv.find id = some p)
    (mine : ∀ k, m = .requestTimeout k → k = id) (own : Own parse s p.2.caller o)
    (kept : ∀ k ∈ srv.timers, k ≠ id → k ∈ timers) :
    Inv parse { ({ s with mailbox := rest } : State).reply [(p.2.caller, o)] with
      server := some { srv.pop id with timers := timers } } := by
  have told : (({ s with mailbox := rest } : State).reply [(p.2.caller, o)]).outcomes =
      s.outcomes ++ [(p.2.caller, o)] := by
    simp [State.reply, inv.present]
  have other : ∀ q ∈ (srv.pop id).pending, q ∈ srv.pending ∧ q.1 ≠ id :=
    fun q mem => pop_other found (inv.keys srv up) mem
  refine ⟨?_, inv.present, ?_, ?_, ?_, inv.distinct, ?_, ?_, ?_, nofun⟩
  · have all := inv.all
    rw [callers_up up, box, List.filterMap_cons, quiet] at all
    rw [callers_up rfl]
    dsimp only
    rw [told, List.map_append]
    refine List.Perm.trans ?_ all
    have perm : srv.callers.Perm (p.2.caller :: (srv.pop id).callers) :=
      (pop_perm found).map fun q : Nat × Entry => q.2.caller
    simp only [List.append_assoc]
    apply List.Perm.append_left
    have back := (perm.append_right (s.outcomes.map Prod.fst)).symm
    refine List.Perm.trans ?_ back
    simp only [List.map_cons, List.map_nil, ← List.append_assoc]
    exact List.perm_append_singleton _ _
  · intro q mem
    dsimp only at mem
    rw [told] at mem
    rcases List.mem_append.mp mem with old | new
    · exact own_later (inv.own q old) (fun _ h => h) fun _ h => h
    · rw [List.mem_singleton.mp new]
      exact own_later own (fun _ h => h) fun _ h => h
  · rintro srv' ⟨⟩ q mem
    exact inv.sent srv up q (other q mem).1
  · rintro srv' ⟨⟩
    exact inv.fresh srv up
  · rintro srv' ⟨⟩
    have keys := ((pop_perm found).map Prod.fst).nodup_iff.mp (inv.keys srv up)
    exact (List.nodup_cons.mp keys).2
  · rintro srv' ⟨⟩ q mem
    obtain ⟨old, apart⟩ := other q mem
    rcases inv.timed srv up q old with runs | fired
    · exact Or.inl (kept q.1 runs apart)
    · rw [box] at fired
      rcases List.mem_cons.mp fired with this | later
      · exact absurd (mine q.1 this.symm) apart
      · exact Or.inr later
  · intro payload mem
    apply inv.frames payload
    rw [box]
    exact List.mem_cons_of_mem _ mem

theorem inv_stop {srv : Server} {m : Message} {rest : List Message} {e : Failure} (inv : Inv parse s)
    (up : s.server = some srv) (box : s.mailbox = m :: rest) (quiet : callerOf m = none)
    (alone : NoRequest rest) :
    Inv parse ((({ s with mailbox := rest } : State).reply
      (srv.pending.map fun (_, entry) => (entry.caller, .error e))).down
        (rest.filterMap callerOf)) := by
  have told : ((({ s with mailbox := rest } : State).reply
      (srv.pending.map fun (_, entry) => (entry.caller, .error e))).down
        (rest.filterMap callerOf)).outcomes =
      s.outcomes ++ srv.pending.map fun p => (p.2.caller, .error e) := by
    have alone : rest.filterMap callerOf = [] := alone
    simp [State.down, State.reply, inv.present, alone]
  refine ⟨?_, inv.present, ?_, nofun, nofun, inv.distinct, nofun, nofun, nofun, fun _ => rfl⟩
  · have all := inv.all
    rw [callers_up up, box, List.filterMap_cons, quiet, alone] at all
    rw [told]
    refine List.Perm.trans ?_ all
    simp only [State.callers, State.down, List.filterMap_nil, Option.toList_none, List.flatMap_nil,
      List.nil_append, List.map_append, List.map_map]
    exact List.perm_append_comm
  · intro q mem
    rw [told] at mem
    rcases List.mem_append.mp mem with old | new
    · exact own_later (inv.own q old) (fun _ h => h) fun _ h => h
    · obtain ⟨p, _, rfl⟩ := List.mem_map.mp new
      trivial

theorem response_own {srv : Server} {msg : Json} {blobs : List Bytes} {command : String} {o : Outcome}
    {id c : Nat} {payload : Bytes} (answer : srv.response msg blobs command = some o)
    (sent : (id, c) ∈ s.sent) (came : payload ∈ s.arrived)
    (read : decode parse payload = .ok (id, msg, blobs)) :
    Own parse s c o := by
  unfold Server.response at answer
  split at answer
  · rename_i result success
    cases answer
    exact ⟨id, payload, msg, sent, came, read, success⟩
  · cases answer
    trivial
  · cases answer
  · cases answer
    trivial

theorem response_none {srv : Server} {msg : Json} {blobs : List Bytes} {command : String}
    (raised : srv.response msg blobs command = none) : Raises msg := by
  unfold Server.response at raised
  split at raised
  · cases raised
  · cases raised
  · rename_i error bare failure
    refine ⟨error, failure, ?_⟩
    cases error with
    | obj fields => exact absurd rfl (bare fields)
    | _ => rfl
  · cases raised

theorem inv_receive (inv : Inv parse s) (safe : Safe parse s .receive)
    (moved : s.receive jsonText parse = some t) : Inv parse t := by
  unfold State.receive at moved
  cases up : s.server with
  | none => simp [up] at moved
  | some srv =>
    cases box : s.mailbox with
    | nil => simp [up, box] at moved
    | cons m rest =>
      have safe := safe srv m rest up box
      simp only [up, box] at moved
      cases m with
      | request c r =>
        have isOpen : s.portOpen = true := safe
        dsimp only at moved
        rw [if_pos isOpen, Option.some.injEq] at moved
        subst moved
        exact inv_enqueue inv up box
      | data payload =>
        have came : payload ∈ s.arrived := inv.frames payload (by simp [box])
        simp only [Server.handleInfo] at moved
        cases read : decode parse payload with
        | error reason =>
          simp only [read] at safe
          simp only [read, Server.failAll, Option.some.injEq] at moved
          subst moved
          exact inv_stop inv up box rfl safe
        | ok frame =>
          obtain ⟨id, msg, blobs⟩ := frame
          simp only [read] at safe
          simp only [read, Server.deliver] at moved
          cases found : srv.find id with
          | none =>
            simp only [found, Option.some.injEq] at moved
            subst moved
            have skipped := inv_skip inv up box rfl nofun
            simpa only [State.reply, up] using skipped
          | some p =>
            simp only [found] at moved
            cases answer : srv.response msg blobs p.2.command with
            | none => simp [safe (response_none answer)] at found
            | some o =>
              simp only [answer, Option.some.injEq] at moved
              subst moved
              have mem : p ∈ srv.pending := List.mem_of_find?_eq_some found
              have sent := inv.sent srv up p mem
              rw [find_key found] at sent
              exact inv_answer inv up box rfl found nofun (response_own answer sent came read)
                fun k runs apart => (List.mem_erase_of_ne apart).mpr runs
      | requestTimeout id =>
        simp only [Server.handleInfo] at moved
        cases found : srv.find id with
        | none =>
          simp only [found, Option.some.injEq] at moved
          subst moved
          have skipped := inv_skip inv up box rfl (by rintro k ⟨⟩; exact found)
          simpa only [State.reply, up] using skipped
        | some p =>
          simp only [found, Option.some.injEq] at moved
          subst moved
          exact inv_answer inv up box rfl found (by rintro k ⟨⟩; rfl) trivial fun k runs _ => runs
      | exitStatus status =>
        simp only [Server.handleInfo, Server.failAll, Option.some.injEq] at moved
        subst moved
        exact inv_stop inv up box rfl safe
      | exit why =>
        simp only [Server.handleInfo, Server.failAll, Option.some.injEq] at moved
        subst moved
        exact inv_stop inv up box rfl safe
      | other =>
        simp only [Server.handleInfo, Option.some.injEq] at moved
        subst moved
        have skipped := inv_skip inv up box rfl nofun
        simpa only [State.reply, up] using skipped

theorem inv_arrive {payload : Bytes} (inv : Inv parse s) :
    Inv parse { s.post (.data payload) with arrived := s.arrived ++ [payload] } := by
  have wider : Inv parse { s with arrived := s.arrived ++ [payload] } :=
    { inv with
      own := fun p mem => own_later (inv.own p mem) (fun _ h => h) fun _ h => List.mem_append_left _ h
      frames := fun q mem => List.mem_append_left _ (inv.frames q mem) }
  have posted := inv_post (m := .data payload) wider rfl (by rintro q ⟨⟩; simp)
  unfold State.post at posted ⊢
  split
  · rename_i up
    rwa [if_pos up] at posted
  · rename_i down
    rwa [if_neg down] at posted

theorem inv_fire {srv : Server} {id : Nat} (inv : Inv parse s) (up : s.server = some srv) :
    Inv parse ({ s with server := some { srv with timers := srv.timers.erase id } }.post
      (.requestTimeout id)) := by
  change Inv parse { s with
    server := some { srv with timers := srv.timers.erase id }, mailbox := s.mailbox ++
      [.requestTimeout id] }
  refine ⟨?_, inv.present, ?_, ?_, ?_, inv.distinct, ?_, ?_, ?_, nofun⟩
  · have all := inv.all
    rw [callers_up up] at all
    rw [callers_up rfl, List.filterMap_append]
    have quiet : [Message.requestTimeout id].filterMap callerOf = [] := rfl
    rw [quiet, List.append_nil]
    exact all
  · exact fun p mem => own_later (inv.own p mem) (fun _ h => h) fun _ h => h
  · rintro srv' ⟨⟩
    exact inv.sent srv up
  · rintro srv' ⟨⟩
    exact inv.fresh srv up
  · rintro srv' ⟨⟩
    exact inv.keys srv up
  · rintro srv' ⟨⟩ p mem
    by_cases same : p.1 = id
    · exact Or.inr (by simp [same])
    · rcases inv.timed srv up p mem with runs | fired
      · exact Or.inl ((List.mem_erase_of_ne same).mpr runs)
      · exact Or.inr (List.mem_append_left _ fired)
  · intro payload mem
    exact inv.frames payload (by simpa using mem)

theorem inv_close (inv : Inv parse s) : Inv parse { s with portOpen := false } :=
  { inv with own := fun p mem => own_later (inv.own p mem) (fun _ h => h) fun _ h => h }

theorem inv_step {a : Label} (inv : Inv parse s) (safe : Safe parse s a)
    (moved : step jsonText parse s a = some t) : Inv parse t := by
  cases a with
  | call r =>
    have up : s.server.isSome = true := safe
    simp only [step, up, if_true, Option.some.injEq] at moved
    subst moved
    exact inv_call inv up
  | receive => exact inv_receive inv safe moved
  | respond payload =>
    simp only [step, Option.ite_none_right_eq_some, Option.some.injEq] at moved
    obtain ⟨_, rfl⟩ := moved
    exact inv_arrive inv
  | fire id =>
    obtain ⟨srv, up, moved⟩ := Option.bind_eq_some_iff.mp moved
    simp only [Option.ite_none_right_eq_some, Option.some.injEq] at moved
    obtain ⟨_, rfl⟩ := moved
    exact inv_fire inv up
  | exitStatus status =>
    simp only [step, Option.ite_none_right_eq_some, Option.some.injEq] at moved
    obtain ⟨_, rfl⟩ := moved
    exact inv_post (inv_post (inv_close inv) rfl nofun) rfl nofun
  | portExit why =>
    simp only [step, Option.ite_none_right_eq_some, Option.some.injEq] at moved
    obtain ⟨_, rfl⟩ := moved
    exact inv_post (inv_close inv) rfl nofun
  | stray =>
    cases moved
    exact inv_post inv rfl nofun
  | giveUp c => exact safe.elim

theorem inv_run {generation : Nat} {device : String}
    (run : Runs.Run (step jsonText parse) (Safe parse) (init generation device) s) : Inv parse s :=
  Runs.run_invariant (Inv parse) run (inv_init generation device) fun _ _ _ inv safe moved =>
    inv_step inv safe moved

def weight : Message → Nat
  | .request _ _ => 4
  | _ => 1

/-- An upper bound on the steps that the GenServer and its timers take from here, if nothing comes in. -/
def State.left (s : State) : Nat :=
  (s.mailbox.map weight).sum + 2 * (s.server.toList.map fun srv => srv.timers.length).sum

def Proceeds (jsonText : Json → Bytes) (parse : Bytes → Option Json) (s : State) : Prop :=
  ∃ a t, (a = .receive ∨ ∃ id, a = .fire id) ∧ step jsonText parse s a = some t ∧ t.left < s.left

/-- Call `c` has not come back, or it has come back once and with its own answer. -/
structure Answered (jsonText : Json → Bytes) (parse : Bytes → Option Json) (s : State)
    (c : Nat) : Prop where
  once : (c ∈ s.callers ∧ ∀ o, (c, o) ∉ s.outcomes) ∨
    c ∉ s.callers ∧ ∃ o, Own parse s c o ∧ s.outcomes.filter (·.1 == c) = [(c, o)]
  proceeds : c ∈ s.callers → Proceeds jsonText parse s

theorem handleInfo_timers {srv next : Server} {m : Message} {replies : List (Nat × Outcome)}
    (h : srv.handleInfo parse m = .noreply next replies) : next.timers.length ≤ srv.timers.length := by
  unfold Server.handleInfo at h
  split at h
  · split at h
    · unfold Server.deliver at h
      split at h
      · cases h
        exact Nat.le_refl _
      · split at h
        · cases h
          exact List.length_erase_le
        · cases h
    · cases h
  · split at h
    · cases h
      exact Nat.le_refl _
    · cases h
      exact Nat.le_refl _
  · cases h
  · cases h
  · cases h
    exact Nat.le_refl _

theorem down_left (t : State) (unanswered : List Nat) : (t.down unanswered).left = 0 := by
  simp [State.left, State.down]

theorem receive_left (up : s.server.isSome = true) (waits : s.mailbox ≠ []) :
    ∃ t, s.receive jsonText parse = some t ∧ t.left < s.left := by
  obtain ⟨srv, up⟩ := Option.isSome_iff_exists.mp up
  obtain ⟨m, rest, box⟩ := List.exists_cons_of_ne_nil waits
  have total : s.left = weight m + (rest.map weight).sum + 2 * srv.timers.length := by
    simp [State.left, box, up]
  have heavy : 0 < weight m := by cases m <;> simp [weight]
  unfold State.receive
  simp only [up, box]
  by_cases request : ∃ c r, m = .request c r
  · obtain ⟨c, r, rfl⟩ := request
    dsimp only
    split
    · refine ⟨_, rfl, ?_⟩
      rw [total]
      simp only [State.left, Option.toList_some, List.map_cons, List.map_nil, List.sum_cons,
        List.sum_nil, Server.enqueue, List.length_cons, weight]
      omega
    · exact ⟨_, rfl, by rw [down_left]; omega⟩
  · split
    · exact absurd ⟨_, _, rfl⟩ request
    · cases done : srv.handleInfo parse m with
      | noreply next replies =>
        have fewer := handleInfo_timers done
        refine ⟨_, rfl, ?_⟩
        rw [total]
        simp only [State.left, State.reply, Option.toList_some, List.map_cons, List.map_nil,
          List.sum_cons, List.sum_nil]
        omega
      | stop replies => exact ⟨_, rfl, by rw [down_left]; omega⟩
      | raise => exact ⟨_, rfl, by rw [down_left]; omega⟩

theorem fire_left {srv : Server} {id : Nat} (up : s.server = some srv) (runs : id ∈ srv.timers) :
    ∃ t, step jsonText parse s (.fire id) = some t ∧ t.left < s.left := by
  have here : 0 < srv.timers.length := List.length_pos_of_mem runs
  refine ⟨{ s with server := some { srv with timers := srv.timers.erase id } }.post
    (.requestTimeout id), ?_, ?_⟩
  · simp [step, up, runs]
  · simp only [State.left, State.post, up, Option.isSome_some, if_true, List.map_append, List.map_cons,
      List.map_nil, List.sum_append, List.sum_cons, List.sum_nil, weight, Option.toList_some,
      List.length_erase_of_mem runs]
    omega

theorem proceeds_of_caller (inv : Inv parse s) {c : Nat} (waits : c ∈ s.callers) :
    Proceeds jsonText parse s := by
  cases up : s.server with
  | none =>
    have box := inv.stopped up
    simp [State.callers, up, box] at waits
  | some srv =>
    have runs : s.server.isSome = true := by simp [up]
    by_cases box : s.mailbox = []
    · -- with an empty mailbox the request is pending, and its timer runs
      rw [callers_up up, box, List.filterMap_nil, List.nil_append] at waits
      obtain ⟨p, mem, _⟩ := List.mem_map.mp waits
      have timer : p.1 ∈ srv.timers := by
        rcases inv.timed srv up p mem with runs | fired
        · exact runs
        · rw [box] at fired
          cases fired
      obtain ⟨t, moved, less⟩ := @fire_left jsonText parse s srv p.1 up timer
      exact ⟨.fire p.1, t, Or.inr ⟨p.1, rfl⟩, moved, less⟩
    · obtain ⟨t, moved, less⟩ := @receive_left jsonText parse s runs box
      exact ⟨.receive, t, Or.inl rfl, moved, less⟩

theorem filter_key {xs : List (Nat × Outcome)} (keys : (xs.map Prod.fst).Nodup) {c : Nat} {o : Outcome}
    (mem : (c, o) ∈ xs) : xs.filter (·.1 == c) = [(c, o)] := by
  induction xs with
  | nil => cases mem
  | cons x xs ih =>
    rw [List.map_cons, List.nodup_cons] at keys
    rcases List.mem_cons.mp mem with rfl | later
    · rw [List.filter_cons_of_pos (by simp), List.filter_eq_nil_iff.mpr]
      intro y there same
      have same : y.1 = c := by simpa using same
      exact keys.1 (List.mem_map.mpr ⟨y, there, same⟩)
    · rw [List.filter_cons_of_neg, ih keys.2 later]
      intro same
      have same : x.1 = c := by simpa using same
      exact keys.1 (List.mem_map.mpr ⟨(c, o), later, same.symm⟩)

theorem answered_of_inv (inv : Inv parse s) {c : Nat} (called : c < s.calls) :
    Answered jsonText parse s c := by
  have nodup := inv.all.nodup_iff.mpr List.nodup_range
  obtain ⟨_, outcomes, apart⟩ := List.nodup_append.mp nodup
  refine ⟨?_, proceeds_of_caller inv⟩
  have there : c ∈ s.callers ++ s.outcomes.map Prod.fst :=
    inv.all.mem_iff.mpr (List.mem_range.mpr called)
  rcases List.mem_append.mp there with waits | came
  · refine Or.inl ⟨waits, fun o mem => ?_⟩
    exact apart c waits c (List.mem_map_of_mem mem) rfl
  · obtain ⟨⟨c', o⟩, mem, rfl⟩ := List.mem_map.mp came
    refine Or.inr ⟨fun waits => apart c' waits c' came rfl, o, inv.own _ mem, ?_⟩
    exact filter_key outcomes mem

/-- Every call comes back once, with an answer that bears its own request id or with an error; and no
    two calls share a request id. -/
theorem answered_once {generation : Nat} {device : String}
    (run : Runs.Run (step jsonText parse) (Safe parse) (init generation device) s) :
    (∀ c < s.calls, Answered jsonText parse s c) ∧ (s.sent.map Prod.fst).Nodup := by
  have inv := inv_run run
  exact ⟨fun c called => answered_of_inv inv called, inv.distinct⟩

def smooth (parse : Bytes → Option Json) (s : State) : Label → Bool
  | .call _ => s.server.isSome
  | .receive => match s.mailbox with
    | .request _ _ :: _ => s.portOpen
    | .data payload :: _ => match decode parse payload with
      | .ok (_, msg, _) => match shape msg with
        | .failure _ => false
        | _ => true
      | .error _ => false
    | .requestTimeout _ :: _ => true
    | _ => false
  | .respond _ | .fire _ => true
  | _ => false

theorem safe_of_smooth {s : State} {a : Label} (passed : smooth parse s a = true) : Safe parse s a := by
  cases a with
  | receive =>
    intro srv m rest up box
    simp only [smooth, box] at passed
    cases m with
    | data payload =>
      dsimp only at passed ⊢
      cases read : decode parse payload with
      | error reason => simp [read] at passed
      | ok frame =>
        obtain ⟨id, msg, blobs⟩ := frame
        simp only [read] at passed ⊢
        rintro ⟨error, failure, _⟩
        simp [failure] at passed
    | request c r => exact passed
    | requestTimeout id => trivial
    | exitStatus status | exit why | other => cases passed
  | call r => exact passed
  | respond payload | fire id => trivial
  | exitStatus status | portExit why | stray | giveUp c => cases passed

def readDone (text : Bytes) : Option Json :=
  if text = [0x7b, 0x7d] then some (.obj [("ok", .bool true), ("result", .null)]) else none

def upload : Request := ⟨"upload", .obj [], [[1, 2]], 5000⟩

def response (id : Nat) : Bytes := encode (fun _ => [0x7b, 0x7d]) id .null [[7]]

def lateResponse : List Label :=
  [.call upload, .call upload, .receive, .receive, .fire 1, .respond (response 2), .receive, .receive,
    .respond (response 1), .receive]

theorem late_response_answered : ∃ t : State,
    ((∀ c < t.calls, Answered (fun _ => []) readDone t c) ∧ (t.sent.map Prod.fst).Nodup) ∧
      t.outcomes = [(0, .error
      (.worker ⟨.str "request timed out", .str "Timeout", none, 1, "CPU", .obj [],
        .null⟩)), (1, .ok .null [[7]])] := by
  have ends : (Runs.follow (fun s a => if smooth readDone s a then step (fun _ => []) readDone s a
    else none)
      (init 1 "CPU") lateResponse).isSome = true := by decide +kernel
  obtain ⟨t, done⟩ := Option.isSome_iff_exists.mp ends
  have run : Runs.Run (step (fun _ => []) readDone) (Safe readDone) (init 1 "CPU") t :=
    Runs.run_of_test (fun _ _ => safe_of_smooth) done
  refine ⟨t, answered_once run, ?_⟩
  cases done
  rfl

/-- `GenServer.call` itself waits longer than the timer of the request. -/
def patient (_ : State) : Label → Prop
  | .giveUp _ => False
  | _ => True

def requestAfterExit : List Label :=
  [.call upload, .call upload, .receive, .exitStatus 1, .receive]

theorem callers_crash : ¬ ∀ t, Runs.Run (step (fun _ => []) readDone) patient (init 1 "CPU") t →
    ∀ c < t.calls, Answered (fun _ => []) readDone t c := by
  intro claim
  have ends : (Runs.follow (step (fun _ => []) readDone) (init 1 "CPU") requestAfterExit).isSome
      = true := by
    decide +kernel
  obtain ⟨t, done⟩ := Option.isSome_iff_exists.mp ends
  have run : Runs.Run (step (fun _ => []) readDone) patient (init 1 "CPU") t := by
    refine Runs.guarded_of_follow ?_ done
    intro a mem s
    simp only [requestAfterExit, List.mem_cons, List.not_mem_nil, or_false] at mem
    rcases mem with rfl | rfl | rfl | rfl | rfl <;> trivial
  have answered := (claim t run 0 (by cases done; decide)).once
  cases done
  rcases answered with ⟨waits, _⟩ | ⟨_, o, own, came⟩
  · cases waits
  · cases came
    exact own

end NxTinygrad.Requests
