import NxTinygrad.MainLoop
import NxTinygrad.Packets
import NxTinygrad.Requests

/- A worker and its callers together: the GenServer of worker.ex with its port, and the loop of main.py
   at the other end. The command handlers and the JSON libraries are parameters. -/
namespace NxTinygrad.Sessions
open BigEndian Protocol Framing
open Requests hiding step init Own
open MainLoop (Setting Raised falsy commands commandOf argsOf okMeta)

/-- `replies` are the responses on their way to the port, `served` the number of frames that the loop
    has answered, and `asked` the requests of all calls so far, in the order of the calls. -/
structure Session (σ : Type) where
  client : Requests.State
  worker : σ
  served : Nat
  replies : List Bytes
  running : Bool
  asked : List Request

variable {σ : Type}

def init (generation : Nat) (device : String) (worker : σ) : Session σ :=
  ⟨Requests.init generation device, worker, 0, [], true, []⟩

inductive Label where
  | inside (a : Requests.Label)
  | work
  | deliver
  | exitStatus (status : Int)
  | die

def outside : Requests.Label → Bool
  | .respond _ | .exitStatus _ => true
  | _ => false

def called : Requests.Label → List Request
  | .call r => [r]
  | _ => []

def Session.work (S : Setting σ) (s : Session σ) : Option (Session σ) :=
  if s.running then
    s.client.written[s.served]?.map fun p =>
      if p.length ≤ Packets.maxFrameBytes then match S.work p s.worker with
        | .answered response stop worker =>
            { s with
              worker := worker, served := s.served + 1, replies := s.replies ++ [response]
              running := !stop }
        | _ => { s with running := false }
      else { s with running := false }
  else none

def step (S : Setting σ) (jsonText : Json → Bytes) (parse : Bytes → Option Json) (s : Session σ) :
    Label → Option (Session σ)
  | .inside a =>
      if outside a then none
      else (Requests.step jsonText parse s.client a).map fun c =>
        { s with client := c, asked := s.asked ++ called a }
  | .work => s.work S
  | .deliver => match s.replies with
    | [] => none
    | p :: rest => (Requests.step jsonText parse s.client (.respond p)).map fun c =>
        { s with client := c, replies := rest }
  | .exitStatus status =>
      if s.running then none
      else (Requests.step jsonText parse s.client (.exitStatus status)).map fun c =>
        { s with client := c }
  | .die => some { s with running := false }

/-! What the callers see: a store that takes one request after the other. -/

section store
variable (S : Setting σ) (generation : Nat) (device : String)

def failed (command : String) (e : Raised) : Requests.Outcome :=
  .error (.worker ⟨.str e.message, .str e.klass, some command, generation, device, e.details,
    S.traceback e⟩)

def answer (r : Request) (s : σ) : Requests.Outcome × σ :=
  if commands.contains r.command then
    if r.command = "shutdown" then (.ok (.obj []) [], s)
    else match S.run r.command (if falsy r.args then .obj [] else r.args) r.blobs s with
      | (.returned result out, s) => (.ok result out, s)
      | (.raised e, s) => (failed S generation device r.command e, s)
  else (failed S generation device r.command ⟨"ProtocolError",
    "unknown command: " ++ S.repr (.str r.command), .obj [("command", .str r.command)]⟩, s)

def after (s : σ) (rs : List Request) : σ :=
  rs.foldl (fun s r => (answer S generation device r s).2) s

def Lost : Requests.Outcome → Prop
  | .ok _ _ => False
  | .error (.worker e) => e = Server.timeoutError ⟨generation, device, 1, [], []⟩
  | .error (.crashed _ g) => g = generation
  | .error _ => False
  | .exited => True

/-- Caller `c` has been told what its own request comes to after the requests before it, or that
    the answer is lost. -/
def Told (s₀ : σ) (s : Session σ) (c : Nat) (o : Requests.Outcome) : Prop :=
  ∃ r, s.asked[c]? = some r ∧
    (c < s.served ∧ o = (answer S generation device r (after S generation device s₀
      (s.asked.take c))).1 ∨ Lost generation device o)

end store

def message (r : Request) : Json := .obj [("command", .str r.command), ("args", r.args)]

/-- The frame of the request has room for it, and Python reads the metadata that Elixir writes. -/
structure Sendable (S : Setting σ) (jsonText : Json → Bytes) (r : Request) : Prop where
  fits : Fits (jsonText (message r)) r.blobs
  read : S.loads (jsonText (message r)) = some (message r)

/-- Every call has a request that can be sent, and a request id of 64 bits. -/
def Sends (S : Setting σ) (jsonText : Json → Bytes) (s : Session σ) : Label → Prop
  | .inside (.call r) => Sendable S jsonText r ∧ s.client.calls + 1 < 2 ^ 64
  | _ => True

section one
variable {S : Setting σ} {generation : Nat} {device : String}

theorem message_command (r : Request) : commandOf (message r) = .str r.command := by
  simp [commandOf, message, Json.field?]

theorem message_args (r : Request) :
    argsOf (message r) = if falsy r.args then .obj [] else r.args := by
  have there : (message r).field? "args" = some r.args := rfl
  rw [argsOf, there]
  rfl

theorem response_ok (srv : Server) (result : Json) (blobs : List Bytes) (command : String) :
    srv.response (okMeta result) blobs command = some (.ok result blobs) := by
  rfl

theorem response_error (srv : Server) (e : Raised) (blobs : List Bytes) (command : String) :
    srv.response (S.error e) blobs command = some (failed S srv.generation srv.device command e) := by
  rfl

theorem respond_answer (srv : Server) (r : Request) (s : σ) :
    srv.response (S.respond (message r) r.blobs s).1 (S.respond (message r) r.blobs s).2.1 r.command =
        some (answer S srv.generation srv.device r s).1 ∧
      (S.respond (message r) r.blobs s).2.2 = (answer S srv.generation srv.device r s).2 := by
  simp only [Setting.respond, message_command, answer, message_args]
  by_cases known : commands.contains r.command = true
  · rw [if_pos known, if_pos known]
    by_cases stop : r.command = "shutdown"
    · rw [if_pos stop, if_pos stop]
      exact ⟨response_ok .., rfl⟩
    · rw [if_neg stop, if_neg stop]
      cases S.run r.command (if falsy r.args then .obj [] else r.args) r.blobs s with
      | mk outcome next =>
        cases outcome with
        | returned result out => exact ⟨response_ok .., rfl⟩
        | raised e => exact ⟨response_error .., rfl⟩
  · rw [if_neg known, if_neg known]
    exact ⟨response_error .., rfl⟩

theorem after_snoc (s : σ) (rs : List Request) (r : Request) :
    after S generation device s (rs ++ [r]) =
      (answer S generation device r (after S generation device s rs)).2 := by
  simp [after]

end one

section kept
variable (S : Setting σ) (jsonText : Json → Bytes) (generation : Nat) (device : String) (s₀ : σ)

def Response (s : Session σ) (p : Bytes) : Prop :=
  ∃ c r text, c < s.served ∧ s.asked[c]? = some r ∧
    S.dumps (S.respond (message r) r.blobs (after S generation device s₀ (s.asked.take c))).1 =
      some text ∧
    Framed p (c + 1) text
      (S.respond (message r) r.blobs (after S generation device s₀ (s.asked.take c))).2.1

structure Ledger (s : Session σ) (c : Requests.State) : Prop where
  count : s.asked.length = c.calls
  within : c.written.length ≤ s.asked.length
  frames : ∀ i p, c.written[i]? = some p →
    ∃ r, s.asked[i]? = some r ∧ p = requestFrame jsonText (i + 1) r
  told : ∀ q ∈ c.outcomes, Told S generation device s₀ s q.1 q.2

def waiting : Message → Option (Request × Nat)
  | .request c r => some (r, c)
  | _ => none

/-- What the GenServer knows: the calls not yet written are in its mailbox, in their order. -/
structure Knows (s : Session σ) (c : Requests.State) (srv : Server) : Prop where
  generation : srv.generation = generation
  device : srv.device = device
  next : srv.nextReqId = c.written.length + 1
  mailbox : c.mailbox.filterMap waiting = (s.asked.drop c.written.length).zipIdx c.written.length
  pending : ∀ p ∈ srv.pending, p.1 = p.2.caller + 1 ∧
    ∃ r, s.asked[p.2.caller]? = some r ∧ r.command = p.2.command

structure Client (s : Session σ) (c : Requests.State) : Prop where
  ledger : Ledger S jsonText generation device s₀ s c
  knows : ∀ srv, c.server = some srv → Knows generation device s c srv
  came : ∀ p, .data p ∈ c.mailbox → Response S generation device s₀ s p
  stopped : c.server = none → c.mailbox = []

structure Inv (s : Session σ) : Prop where
  client : Client S jsonText generation device s₀ s s.client
  served : s.served ≤ s.client.written.length
  worker : s.worker = after S generation device s₀ (s.asked.take s.served)
  replies : ∀ p ∈ s.replies, Response S generation device s₀ s p
  sendable : ∀ r ∈ s.asked, Sendable S jsonText r
  small : s.asked.length < 2 ^ 64

end kept

section steps
variable {S : Setting σ} {jsonText : Json → Bytes} {parse : Bytes → Option Json} {generation : Nat}
  {device : String} {s₀ : σ} {s : Session σ} {c t : Requests.State} {srv : Server}

theorem lost_told {k : Nat} {o : Requests.Outcome} (called : k < s.asked.length)
    (lost : Lost generation device o) : Told S generation device s₀ s k o :=
  ⟨s.asked[k], List.getElem?_eq_getElem called, Or.inr lost⟩

theorem response_told (back : ∀ msg text, S.dumps msg = some text → parse text = some msg)
    (identity : srv.generation = generation ∧ srv.device = device) {p : Bytes}
    (response : Response S generation device s₀ s p) :
    ∃ k r msg blobs, decode parse p = .ok (k + 1, msg, blobs) ∧ s.asked[k]? = some r ∧
      ∃ o, srv.response msg blobs r.command = some o ∧ Told S generation device s₀ s k o := by
  obtain ⟨k, r, text, served, there, dumped, framed⟩ := response
  obtain ⟨rfl, rfl⟩ := identity
  have read := decode_ok.mpr ⟨text, framed, back _ _ dumped⟩
  obtain ⟨answered, _⟩ := respond_answer srv r (after S srv.generation srv.device s₀ (s.asked.take k))
  exact ⟨k, r, _, _, read, there, _, answered, r, there, Or.inl ⟨served, rfl⟩⟩

theorem ledger_reply {replies : List (Nat × Requests.Outcome)}
    (ledger : Ledger S jsonText generation device s₀ s c)
    (told : ∀ q ∈ replies, Told S generation device s₀ s q.1 q.2) :
    Ledger S jsonText generation device s₀ s (c.reply replies) := by
  refine ⟨ledger.count, ledger.within, ledger.frames, ?_⟩
  intro q mem
  rcases List.mem_append.mp mem with old | new
  · exact ledger.told q old
  · exact told q (List.mem_of_mem_filter new)

theorem client_down {unanswered : List Nat} (ledger : Ledger S jsonText generation device s₀ s c)
    (called : ∀ k ∈ unanswered, k < s.asked.length) :
    Client S jsonText generation device s₀ s (c.down unanswered) := by
  have told : ∀ q ∈ unanswered.map fun k => (k, Requests.Outcome.exited),
      Told S generation device s₀ s q.1 q.2 := by
    intro q mem
    obtain ⟨k, there, rfl⟩ := List.mem_map.mp mem
    exact lost_told (called k there) trivial
  have replied := ledger_reply ledger told
  have ledger' : Ledger S jsonText generation device s₀ s (c.down unanswered) :=
    ⟨replied.count, replied.within, replied.frames, replied.told⟩
  exact ⟨ledger', nofun, nofun, fun _ => rfl⟩

theorem waiting_caller (m : Message) : callerOf m = (waiting m).map Prod.snd := by
  cases m <;> rfl

theorem mailbox_called (knows : Knows generation device s c srv) {k : Nat}
    (mem : k ∈ c.mailbox.filterMap callerOf) : k < s.asked.length := by
  obtain ⟨m, there, caller⟩ := List.mem_filterMap.mp mem
  rw [waiting_caller] at caller
  obtain ⟨⟨r, k⟩, waits, rfl⟩ := Option.map_eq_some_iff.mp caller
  have pair : (r, k) ∈ c.mailbox.filterMap waiting := List.mem_filterMap.mpr ⟨m, there, waits⟩
  rw [knows.mailbox] at pair
  have low := List.le_snd_of_mem_zipIdx pair
  have high := List.snd_lt_of_mem_zipIdx pair
  rw [List.length_drop] at high
  omega

theorem pending_called (knows : Knows generation device s c srv) {p : Nat × Entry}
    (mem : p ∈ srv.pending) : p.2.caller < s.asked.length := by
  obtain ⟨_, r, there, _⟩ := knows.pending p mem
  exact (List.getElem?_eq_some_iff.mp there).1

theorem callers_called (client : Client S jsonText generation device s₀ s c) {k : Nat}
    (mem : k ∈ c.callers) : k < s.asked.length := by
  cases up : c.server with
  | none =>
    have box := client.stopped up
    simp [State.callers, up, box] at mem
  | some srv =>
    have knows := client.knows srv up
    rw [callers_up up] at mem
    rcases List.mem_append.mp mem with waits | pending
    · exact mailbox_called knows waits
    · obtain ⟨p, there, rfl⟩ := List.mem_map.mp pending
      exact pending_called knows there

theorem client_post {m : Message} (client : Client S jsonText generation device s₀ s c)
    (quiet : waiting m = none) (good : ∀ p, m = .data p → Response S generation device s₀ s p) :
    Client S jsonText generation device s₀ s (c.post m) := by
  unfold State.post
  split
  · rename_i isUp
    refine ⟨⟨client.ledger.count, client.ledger.within, client.ledger.frames, client.ledger.told⟩,
      ?_, ?_, ?_⟩
    · intro srv up
      have knows := client.knows srv up
      refine ⟨knows.generation, knows.device, knows.next, ?_, knows.pending⟩
      simp [List.filterMap_append, quiet, knows.mailbox]
    · intro p mem
      rcases List.mem_append.mp mem with old | new
      · exact client.came p old
      · exact good p (List.mem_singleton.mp new).symm
    · intro down
      have down : c.server = none := down
      rw [down] at isUp
      cases isUp
  · exact client

theorem client_take {m : Message} {rest : List Message} {next : Server}
    {replies : List (Nat × Requests.Outcome)} (client : Client S jsonText generation device s₀ s c)
    (up : c.server = some srv) (box : c.mailbox = m :: rest) (quiet : waiting m = none)
    (same : next.generation = srv.generation ∧ next.device = srv.device ∧
      next.nextReqId = srv.nextReqId)
    (fewer : ∀ p ∈ next.pending, p ∈ srv.pending)
    (told : ∀ q ∈ replies, Told S generation device s₀ s q.1 q.2) :
    Client S jsonText generation device s₀ s
      { ({ c with mailbox := rest } : Requests.State).reply replies with server := some next } := by
  have knows := client.knows srv up
  obtain ⟨sameGeneration, sameDevice, sameNext⟩ := same
  have ledger := client.ledger
  have replied := ledger_reply (c := { c with mailbox := rest })
    ⟨ledger.count, ledger.within, ledger.frames, ledger.told⟩ told
  refine ⟨⟨replied.count, replied.within, replied.frames, replied.told⟩, ?_, ?_, fun same => by cases same⟩
  · intro srv' up'
    cases up'
    have mailbox := knows.mailbox
    rw [box, List.filterMap_cons, quiet] at mailbox
    exact ⟨sameGeneration.trans knows.generation, sameDevice.trans knows.device,
      sameNext.trans knows.next, mailbox, fun p mem => knows.pending p (fewer p mem)⟩
  · intro p mem
    apply client.came p
    rw [box]
    exact List.mem_cons_of_mem _ mem

theorem find_caller {id : Nat} {p : Nat × Entry} (knows : Knows generation device s c srv)
    (found : srv.find id = some p) : id = p.2.caller + 1 ∧ p.2.caller < s.asked.length ∧
      ∃ r, s.asked[p.2.caller]? = some r ∧ r.command = p.2.command := by
  have mem : p ∈ srv.pending := List.mem_of_find?_eq_some found
  obtain ⟨key, r, there, command⟩ := knows.pending p mem
  exact ⟨(find_key found).symm.trans key, pending_called knows mem, r, there, command⟩

theorem popped {id : Nat} {p : Nat × Entry} (mem : p ∈ (srv.pop id).pending) : p ∈ srv.pending :=
  List.mem_of_mem_eraseP mem

theorem client_enqueue {k : Nat} {r : Request} {rest : List Message}
    (client : Client S jsonText generation device s₀ s c) (up : c.server = some srv)
    (box : c.mailbox = .request k r :: rest) :
    Client S jsonText generation device s₀ s
      { c with
        mailbox := rest, server := some (srv.enqueue k r)
        written := c.written ++ [requestFrame jsonText srv.nextReqId r]
        sent := (srv.nextReqId, k) :: c.sent } := by
  have knows := client.knows srv up
  have ledger := client.ledger
  -- the first request in the mailbox is the first one that is not written
  have mailbox := knows.mailbox
  rw [box] at mailbox
  obtain ⟨here, there, later⟩ : k = c.written.length ∧ s.asked[c.written.length]? = some r ∧
      rest.filterMap waiting =
        (s.asked.drop (c.written.length + 1)).zipIdx (c.written.length + 1) := by
    have front : s.asked[c.written.length]? = (s.asked.drop c.written.length)[0]? := by
      rw [List.getElem?_drop, Nat.add_zero]
    have tail : s.asked.drop (c.written.length + 1) = (s.asked.drop c.written.length).drop 1 := by
      rw [List.drop_drop]
    rw [front, tail]
    cases unwritten : s.asked.drop c.written.length with
    | nil =>
      rw [unwritten] at mailbox
      cases mailbox
    | cons x xs =>
      rw [unwritten] at mailbox
      simp only [List.filterMap_cons, waiting, List.zipIdx_cons, List.cons.injEq,
        Prod.mk.injEq] at mailbox
      obtain ⟨⟨rfl, rfl⟩, later⟩ := mailbox
      exact ⟨rfl, rfl, later⟩
  have bound := (List.getElem?_eq_some_iff.mp there).1
  refine ⟨⟨ledger.count, ?_, ?_, ledger.told⟩, ?_, ?_, fun same => by cases same⟩
  · rw [List.length_append, List.length_singleton]
    exact bound
  · intro i p at_i
    rcases Nat.lt_or_ge i c.written.length with old | new
    · rw [List.getElem?_append_left old] at at_i
      exact ledger.frames i p at_i
    · rw [List.getElem?_append_right new, List.getElem?_singleton] at at_i
      split at at_i
      · obtain rfl : i = c.written.length := by omega
        cases at_i
        rw [knows.next]
        exact ⟨r, there, rfl⟩
      · cases at_i
  · intro srv' up'
    cases up'
    refine ⟨knows.generation, knows.device, ?_, ?_, ?_⟩
    · simp [Server.enqueue, knows.next]
    · rw [List.length_append, List.length_singleton]
      exact later
    · intro p mem
      rcases List.mem_cons.mp mem with rfl | old
      · subst here
        exact ⟨knows.next, r, there, rfl⟩
      · exact knows.pending p old
  · intro p mem
    apply client.came p
    rw [box]
    exact List.mem_cons_of_mem _ mem

section receive
variable {m : Message} {rest : List Message} (client : Client S jsonText generation device s₀ s c)
  (up : c.server = some srv) (box : c.mailbox = m :: rest)
include client up box

theorem rest_called {k : Nat} (mem : k ∈ rest.filterMap callerOf) : k < s.asked.length := by
  apply mailbox_called (client.knows srv up)
  rw [box, List.filterMap_cons]
  split
  · exact mem
  · exact List.mem_cons_of_mem _ mem

/-- The server fails everything that waits and stops. -/
theorem client_stop {e : Failure} (lost : Lost generation device (.error e)) :
    Client S jsonText generation device s₀ s ((({ c with mailbox := rest } : State).reply
      (srv.pending.map fun p => (p.2.caller, Requests.Outcome.error e))).down
        (rest.filterMap callerOf)) := by
  have ledger := client.ledger
  have rested : Ledger S jsonText generation device s₀ s { c with mailbox := rest } :=
    ⟨ledger.count, ledger.within, ledger.frames, ledger.told⟩
  refine client_down (ledger_reply rested ?_) fun k mem => rest_called client up box mem
  intro q mem
  obtain ⟨p, there, rfl⟩ := List.mem_map.mp mem
  exact lost_told (pending_called (client.knows srv up) there) lost

/-- The port is closed, and the server goes down with its caller. -/
theorem client_crash {k : Nat} (mine : callerOf m = some k) :
    Client S jsonText generation device s₀ s (({ c with mailbox := rest } : State).down
      (k :: ({ c with mailbox := rest } : State).callers)) := by
  have knows := client.knows srv up
  have ledger := client.ledger
  have rested : Ledger S jsonText generation device s₀ s { c with mailbox := rest } :=
    ⟨ledger.count, ledger.within, ledger.frames, ledger.told⟩
  refine client_down rested fun k' mem => ?_
  rcases List.mem_cons.mp mem with rfl | other
  · apply mailbox_called knows
    simp [box, mine]
  · rw [@callers_up { c with mailbox := rest } srv up] at other
    rcases List.mem_append.mp other with waits | pending
    · exact rest_called client up box waits
    · obtain ⟨p, there, rfl⟩ := List.mem_map.mp pending
      exact pending_called knows there
end receive

/-- A response goes to the caller whose request it answers, if the caller still waits. -/
theorem client_data (back : ∀ msg text, S.dumps msg = some text → parse text = some msg)
    (client : Client S jsonText generation device s₀ s c) (up : c.server = some srv) {payload : Bytes}
    {rest : List Message} (box : c.mailbox = .data payload :: rest)
    (moved : c.receive jsonText parse = some t) : Client S jsonText generation device s₀ s t := by
  have knows := client.knows srv up
  obtain ⟨k, r, msg, blobs, read, there, o, answered, told⟩ := response_told back
    ⟨knows.generation, knows.device⟩ (client.came payload (by simp [box]))
  simp only [State.receive, up, box, Server.handleInfo, read, Server.deliver] at moved
  cases found : srv.find (k + 1) with
  | none =>
    simp only [found, Option.some.injEq] at moved
    subst moved
    exact client_take client up box rfl ⟨rfl, rfl, rfl⟩ (fun _ mem => mem) (by simp)
  | some p =>
    obtain ⟨key, _, r', there', command⟩ := find_caller knows found
    obtain rfl : k = p.2.caller := by omega
    cases there.symm.trans there'
    rw [command] at answered
    simp only [found, answered, Option.some.injEq] at moved
    subst moved
    have replied : ∀ q ∈ [(p.2.caller, o)], Told S generation device s₀ s q.1 q.2 := by
      intro q mem
      rw [List.mem_singleton.mp mem]
      exact told
    exact client_take client up box rfl ⟨rfl, rfl, rfl⟩ (fun _ => popped) replied

theorem client_timeout (client : Client S jsonText generation device s₀ s c) (up : c.server = some srv)
    {id : Nat} {rest : List Message} (box : c.mailbox = .requestTimeout id :: rest)
    (moved : c.receive jsonText parse = some t) : Client S jsonText generation device s₀ s t := by
  have knows := client.knows srv up
  simp only [State.receive, up, box, Server.handleInfo] at moved
  cases found : srv.find id with
  | none =>
    simp only [found, Option.some.injEq] at moved
    subst moved
    exact client_take client up box rfl ⟨rfl, rfl, rfl⟩ (fun _ mem => mem) (by simp)
  | some p =>
    obtain ⟨_, called, _⟩ := find_caller knows found
    simp only [found, Option.some.injEq] at moved
    subst moved
    have replied : ∀ q ∈ [(p.2.caller, Requests.Outcome.error (.worker srv.timeoutError))],
        Told S generation device s₀ s q.1 q.2 := by
      intro q mem
      rw [List.mem_singleton.mp mem]
      apply lost_told called
      show srv.timeoutError = _
      rw [Server.timeoutError, knows.generation, knows.device]
      rfl
    exact client_take client up box rfl ⟨rfl, rfl, rfl⟩ (fun _ => popped) replied

theorem client_receive (back : ∀ msg text, S.dumps msg = some text → parse text = some msg)
    (client : Client S jsonText generation device s₀ s c)
    (moved : c.receive jsonText parse = some t) : Client S jsonText generation device s₀ s t := by
  cases up : c.server with
  | none => simp [State.receive, up] at moved
  | some srv =>
    cases box : c.mailbox with
    | nil => simp [State.receive, up, box] at moved
    | cons m rest =>
      have knows := client.knows srv up
      cases m with
      | request k r =>
        simp only [State.receive, up, box] at moved
        split at moved
        · cases moved
          exact client_enqueue client up box
        · cases moved
          simpa only [up] using client_crash client up box rfl
      | data payload => exact client_data back client up box moved
      | requestTimeout id => exact client_timeout client up box moved
      | exitStatus status =>
        simp only [State.receive, up, box, Server.handleInfo, Server.failAll, Option.some.injEq] at moved
        subst moved
        exact client_stop client up box knows.generation
      | exit why =>
        simp only [State.receive, up, box, Server.handleInfo, Server.failAll, Option.some.injEq] at moved
        subst moved
        exact client_stop client up box knows.generation
      | other =>
        simp only [State.receive, up, box, Server.handleInfo, Option.some.injEq] at moved
        subst moved
        exact client_take client up box rfl ⟨rfl, rfl, rfl⟩ (fun _ mem => mem) (by simp)

section later
variable {s' : Session σ}

theorem told_later (grown : s.asked <+: s'.asked) (served : s.served ≤ s'.served) {k : Nat}
    {o : Requests.Outcome} (told : Told S generation device s₀ s k o) :
    Told S generation device s₀ s' k o := by
  obtain ⟨more, asked⟩ := grown
  obtain ⟨r, there, cases⟩ := told
  have bound := (List.getElem?_eq_some_iff.mp there).1
  refine ⟨r, ?_, cases.imp_left fun ⟨done, same⟩ => ⟨by omega, ?_⟩⟩
  · rw [← asked, List.getElem?_append_left bound, there]
  · rw [← asked, List.take_append_of_le_length (by omega), same]

theorem response_later (grown : s.asked <+: s'.asked) (served : s.served ≤ s'.served) {p : Bytes}
    (response : Response S generation device s₀ s p) : Response S generation device s₀ s' p := by
  obtain ⟨more, asked⟩ := grown
  obtain ⟨k, r, text, done, there, dumped, framed⟩ := response
  have bound := (List.getElem?_eq_some_iff.mp there).1
  have front : s'.asked.take k = s.asked.take k := by
    rw [← asked, List.take_append_of_le_length (by omega)]
  refine ⟨k, r, text, by omega, ?_, by rw [front, dumped], by rw [front]; exact framed⟩
  rw [← asked, List.getElem?_append_left bound, there]

theorem client_later (asked : s'.asked = s.asked) (served : s.served ≤ s'.served)
    (client : Client S jsonText generation device s₀ s c) :
    Client S jsonText generation device s₀ s' c := by
  have grown : s.asked <+: s'.asked := asked ▸ List.prefix_rfl
  obtain ⟨⟨count, within, frames, told⟩, knows, came, stopped⟩ := client
  refine ⟨⟨?_, ?_, ?_, ?_⟩, ?_, ?_, stopped⟩
  · rw [asked, count]
  · rw [asked]
    exact within
  · rw [asked]
    exact frames
  · exact fun q mem => told_later grown served (told q mem)
  · intro srv up
    obtain ⟨sameGeneration, sameDevice, next, mailbox, pending⟩ := knows srv up
    refine ⟨sameGeneration, sameDevice, next, ?_, ?_⟩
    · rw [asked, mailbox]
    · rw [asked]
      exact pending
  · exact fun p mem => response_later grown served (came p mem)

theorem client_call {r : Request} (asked : s'.asked = s.asked ++ [r]) (served : s.served ≤ s'.served)
    (client : Client S jsonText generation device s₀ s c)
    (moved : Requests.step jsonText parse c (.call r) = some t) :
    Client S jsonText generation device s₀ s' t := by
  obtain ⟨⟨count, within, frames, told⟩, knows, came, stopped⟩ := client
  have length : s'.asked.length = c.calls + 1 := by
    rw [asked, List.length_append, List.length_singleton, count]
  have written : ∀ i p, c.written[i]? = some p →
      ∃ r, s'.asked[i]? = some r ∧ p = requestFrame jsonText (i + 1) r := by
    intro i p at_i
    obtain ⟨r, there, same⟩ := frames i p at_i
    have bound := (List.getElem?_eq_some_iff.mp there).1
    exact ⟨r, by rw [asked, List.getElem?_append_left bound, there], same⟩
  have grown : s.asked <+: s'.asked := ⟨[r], asked.symm⟩
  have heard : ∀ q ∈ c.outcomes, Told S generation device s₀ s' q.1 q.2 :=
    fun q mem => told_later grown served (told q mem)
  have ledger : Ledger S jsonText generation device s₀ s' { c with calls := c.calls + 1 } :=
    ⟨length, by dsimp only; omega, written, heard⟩
  simp only [Requests.step] at moved
  split at moved
  · rename_i up
    cases moved
    simp only [State.post, up, if_true]
    refine ⟨⟨length, ledger.within, written, heard⟩, ?_, ?_, ?_⟩
    · intro srv up
      obtain ⟨sameGeneration, sameDevice, next, mailbox, pending⟩ := knows srv up
      refine ⟨sameGeneration, sameDevice, next, ?_, ?_⟩
      · rw [asked, List.drop_append_of_le_length within, List.zipIdx_append, List.filterMap_append,
          mailbox, List.length_drop]
        have place : c.written.length + (s.asked.length - c.written.length) = c.calls := by omega
        rw [place]
        rfl
      · intro p mem
        obtain ⟨key, r', there, command⟩ := pending p mem
        have bound := (List.getElem?_eq_some_iff.mp there).1
        exact ⟨key, r', by rw [asked, List.getElem?_append_left bound, there], command⟩
    · intro p mem
      apply response_later grown served
      exact came p (by simpa using mem)
    · intro down
      have down : c.server = none := down
      rw [down] at up
      cases up
  · rename_i down
    cases moved
    have exited : ∀ q ∈ [(c.calls, Requests.Outcome.exited)],
        Told S generation device s₀ s' q.1 q.2 := by
      intro q mem
      rw [List.mem_singleton.mp mem]
      exact lost_told (by omega) trivial
    have replied := ledger_reply ledger exited
    refine ⟨⟨replied.count, replied.within, replied.frames, replied.told⟩, ?_, ?_, stopped⟩
    · intro srv up
      have up : c.server = some srv := up
      rw [up] at down
      exact absurd rfl down
    · intro p mem
      exact response_later grown served (came p mem)

end later

theorem client_step {a : Requests.Label}
    (back : ∀ msg text, S.dumps msg = some text → parse text = some msg)
    (client : Client S jsonText generation device s₀ s c) (quiet : called a = [])
    (good : ∀ p, a = .respond p → Response S generation device s₀ s p)
    (moved : Requests.step jsonText parse c a = some t) :
    Client S jsonText generation device s₀ s t := by
  have ledger := client.ledger
  have ported : ∀ closed, Client S jsonText generation device s₀ s { c with portOpen := closed } :=
    fun _ => ⟨⟨ledger.count, ledger.within, ledger.frames, ledger.told⟩, fun srv up =>
      let knows := client.knows srv up
      ⟨knows.generation, knows.device, knows.next, knows.mailbox, knows.pending⟩, client.came,
      client.stopped⟩
  cases a with
  | call r => cases quiet
  | receive => exact client_receive back client moved
  | respond payload =>
    simp only [Requests.step, Option.ite_none_right_eq_some, Option.some.injEq] at moved
    obtain ⟨_, rfl⟩ := moved
    have posted := client_post (m := .data payload) client rfl (by
      intro p same
      cases same
      exact good payload rfl)
    refine ⟨⟨posted.ledger.count, posted.ledger.within, posted.ledger.frames, posted.ledger.told⟩,
      ?_, posted.came, posted.stopped⟩
    intro srv up
    have knows := posted.knows srv up
    exact ⟨knows.generation, knows.device, knows.next, knows.mailbox, knows.pending⟩
  | fire id =>
    obtain ⟨srv, up, moved⟩ := Option.bind_eq_some_iff.mp moved
    simp only [Option.ite_none_right_eq_some, Option.some.injEq] at moved
    obtain ⟨_, rfl⟩ := moved
    refine client_post ⟨⟨ledger.count, ledger.within, ledger.frames, ledger.told⟩, ?_, client.came,
      fun same => by cases same⟩ rfl fun _ same => by cases same
    intro srv' up'
    cases up'
    have knows := client.knows srv up
    exact ⟨knows.generation, knows.device, knows.next, knows.mailbox, knows.pending⟩
  | exitStatus status =>
    simp only [Requests.step, Option.ite_none_right_eq_some, Option.some.injEq] at moved
    obtain ⟨_, rfl⟩ := moved
    exact client_post (client_post (ported false) rfl fun _ same => by cases same) rfl fun _ same => by
      cases same
  | portExit why =>
    simp only [Requests.step, Option.ite_none_right_eq_some, Option.some.injEq] at moved
    obtain ⟨_, rfl⟩ := moved
    exact client_post (ported false) rfl fun _ same => by cases same
  | stray =>
    cases moved
    exact client_post client rfl fun _ same => by cases same
  | giveUp k =>
    simp only [Requests.step, Option.ite_none_right_eq_some, Option.some.injEq] at moved
    obtain ⟨gives, rfl⟩ := moved
    have called : k < s.asked.length := by
      apply callers_called client
      simp only [Bool.and_eq_true, List.contains_iff_mem] at gives
      exact gives.1
    refine ⟨⟨ledger.count, ledger.within, ledger.frames, ?_⟩, ?_, client.came, client.stopped⟩
    · intro q mem
      rcases List.mem_append.mp mem with old | new
      · exact ledger.told q old
      · rw [List.mem_singleton.mp new]
        exact lost_told called trivial
    · intro srv up
      have knows := client.knows srv up
      exact ⟨knows.generation, knows.device, knows.next, knows.mailbox, knows.pending⟩

theorem receive_written (moved : c.receive jsonText parse = some t) :
    c.written.length ≤ t.written.length := by
  unfold State.receive at moved
  split at moved
  · split at moved
    · split at moved
      · cases moved
        simp
      · cases moved
        exact Nat.le_refl _
    · split at moved <;> cases moved <;> exact Nat.le_refl _
  · cases moved

theorem step_written {a : Requests.Label} (moved : Requests.step jsonText parse c a = some t) :
    c.written.length ≤ t.written.length := by
  have post : ∀ (u : Requests.State) m, (u.post m).written = u.written := by
    intro u m
    unfold State.post
    split <;> rfl
  cases a with
  | receive => exact receive_written moved
  | call r =>
    simp only [Requests.step] at moved
    split at moved
    · cases moved
      rw [post]
    · cases moved
      exact Nat.le_refl _
  | fire id =>
    obtain ⟨srv, up, moved⟩ := Option.bind_eq_some_iff.mp moved
    simp only [Option.ite_none_right_eq_some, Option.some.injEq] at moved
    obtain ⟨_, rfl⟩ := moved
    rw [post]
  | stray =>
    cases moved
    rw [post]
  | respond _ | exitStatus _ | portExit _ | giveUp _ =>
    simp only [Requests.step, Option.ite_none_right_eq_some, Option.some.injEq] at moved
    obtain ⟨_, rfl⟩ := moved
    simp only [post]
    exact Nat.le_refl _

end steps

section runs
variable {S : Setting σ} {jsonText : Json → Bytes} {parse : Bytes → Option Json} {generation : Nat}
  {device : String} {s₀ : σ} {s t : Session σ}

theorem inv_init : Inv S jsonText generation device s₀ (init generation device s₀) := by
  refine ⟨⟨⟨rfl, Nat.le_refl _, by simp [init, Requests.init], by simp [init, Requests.init]⟩, ?_, ?_,
    fun _ => rfl⟩, Nat.le_refl _, rfl, by simp [init], by simp [init], by simp [init]⟩
  · intro srv up
    cases up
    exact ⟨rfl, rfl, rfl, rfl, by simp⟩
  · simp [init, Requests.init]

theorem inv_work (inv : Inv S jsonText generation device s₀ s) (moved : s.work S = some t) :
    Inv S jsonText generation device s₀ t := by
  have stopped : Inv S jsonText generation device s₀ { s with running := false } :=
    ⟨client_later (s := s) rfl (Nat.le_refl _) inv.client, inv.served, inv.worker, inv.replies, inv.sendable,
      inv.small⟩
  unfold Session.work at moved
  split at moved
  · obtain ⟨p, at_p, moved⟩ := Option.map_eq_some_iff.mp moved
    split at moved
    · split at moved
      · rename_i response stop worker worked
        subst moved
        obtain ⟨r, there, framed⟩ := inv.client.ledger.frames _ _ at_p
        have small := inv.small
        have bound := (List.getElem?_eq_some_iff.mp there).1
        have sendable := inv.sendable r (List.mem_of_getElem? there)
        have got : decodeFrame S.loads p = .ok (s.served + 1, message r, r.blobs) := by
          rw [framed]
          exact decodeFrame_ok.mpr ⟨_, framed_of_fits (by omega) sendable.fits, sendable.read, rfl⟩
        obtain ⟨_, goes⟩ := MainLoop.work_state got worked
        have asked : s.asked.take (s.served + 1) = s.asked.take s.served ++ [r] := by
          rw [List.take_add_one, there]
          rfl
        -- the response that the loop writes
        have sent : S.send (s.served + 1) (S.respond (message r) r.blobs s.worker).1
            (S.respond (message r) r.blobs s.worker).2.1 = .ok response := by
          simp only [Setting.work, got] at worked
          split at worked
          · split at worked
            · cases worked
            · rename_i frame sent
              cases worked
              exact sent
          · cases worked
        obtain ⟨text, dumped, framed', _⟩ := MainLoop.send_ok sent
        rw [inv.worker] at dumped framed'
        refine ⟨client_later (s := s) rfl (Nat.le_succ _) inv.client, ?_, ?_, ?_, inv.sendable, inv.small⟩
        · exact (List.getElem?_eq_some_iff.mp at_p).1
        · show worker = after S generation device s₀ (s.asked.take (s.served + 1))
          rw [goes, asked, after_snoc, ← inv.worker]
          exact (respond_answer ⟨generation, device, 1, [], []⟩ r s.worker).2
        · intro q mem
          rcases List.mem_append.mp mem with old | new
          · have earlier := inv.replies q old
            apply response_later ?_ ?_ earlier
            · exact List.prefix_rfl
            · exact Nat.le_succ s.served
          · rw [List.mem_singleton.mp new]
            exact ⟨s.served, r, text, Nat.lt_succ_self _, there, dumped, framed'⟩
      · subst moved
        exact stopped
    · subst moved
      exact stopped
  · cases moved

theorem inv_step {a : Label} (back : ∀ msg text, S.dumps msg = some text → parse text = some msg)
    (inv : Inv S jsonText generation device s₀ s) (sends : Sends S jsonText s a)
    (moved : step S jsonText parse s a = some t) : Inv S jsonText generation device s₀ t := by
  -- the client takes a step and nothing else changes
  have through : ∀ {a : Requests.Label} {c : Requests.State} {replies : List Bytes},
      called a = [] → (∀ p, a = .respond p → Response S generation device s₀ s p) →
      (∀ p ∈ replies, p ∈ s.replies) → Requests.step jsonText parse s.client a = some c →
      Inv S jsonText generation device s₀ { s with client := c, replies := replies } := by
    intro a c replies quiet good fewer moved
    have client := client_step back inv.client quiet good moved
    have served := inv.served
    have written := step_written moved
    exact ⟨client_later (s := s) rfl (Nat.le_refl _) client, by dsimp only; omega, inv.worker,
      fun p mem => inv.replies p (fewer p mem), inv.sendable, inv.small⟩
  cases a with
  | inside a =>
    simp only [step] at moved
    split at moved
    · cases moved
    · rename_i quiet
      obtain ⟨c, took, rfl⟩ := Option.map_eq_some_iff.mp moved
      cases calls : called a with
      | nil =>
        rw [List.append_nil]
        refine through calls ?_ (fun _ mem => mem) took
        intro p same
        subst same
        exact absurd rfl quiet
      | cons r more =>
        obtain ⟨rfl, rfl⟩ : a = .call r ∧ more = [] := by
          cases a <;> simp only [called, List.cons.injEq, reduceCtorEq] at calls
          obtain ⟨rfl, rfl⟩ := calls
          exact ⟨rfl, rfl⟩
        obtain ⟨sendable, small⟩ := sends
        have count := inv.client.ledger.count
        have served := inv.served
        have within := inv.client.ledger.within
        have written := step_written took
        refine ⟨client_call (s := s) rfl (Nat.le_refl _) inv.client took, by dsimp only; omega, ?_, ?_, ?_, ?_⟩
        · show s.worker = after S generation device s₀ ((s.asked ++ [r]).take s.served)
          rw [List.take_append_of_le_length (by omega)]
          exact inv.worker
        · intro p mem
          have earlier := inv.replies p mem
          apply response_later ?_ ?_ earlier
          · exact List.prefix_append s.asked [r]
          · exact Nat.le_refl s.served
        · intro r' mem
          rcases List.mem_append.mp mem with old | new
          · exact inv.sendable r' old
          · rw [List.mem_singleton.mp new]
            exact sendable
        · simp only [List.length_append, List.length_singleton]
          omega
  | work => exact inv_work inv moved
  | deliver =>
    simp only [step] at moved
    split at moved
    · cases moved
    · rename_i p rest waits
      obtain ⟨c, took, rfl⟩ := Option.map_eq_some_iff.mp moved
      refine through rfl ?_ ?_ took
      · intro p' same
        cases same
        exact inv.replies p (by simp [waits])
      · intro p' mem
        rw [waits]
        exact List.mem_cons_of_mem _ mem
  | exitStatus status =>
    simp only [step] at moved
    split at moved
    · cases moved
    · obtain ⟨c, took, rfl⟩ := Option.map_eq_some_iff.mp moved
      exact through (a := .exitStatus status) rfl nofun (fun _ mem => mem) took
  | die =>
    cases moved
    exact ⟨client_later (s := s) rfl (Nat.le_refl _) inv.client, inv.served, inv.worker, inv.replies,
      inv.sendable, inv.small⟩

/-- Whatever the callers, the GenServer, the port and the process do, the worker serves the requests in
    the order of the calls, each once: every caller is told what its own request comes to after the
    requests of the calls before its own, or that the answer is lost. -/
theorem served_in_order (back : ∀ msg text, S.dumps msg = some text → parse text = some msg)
    (run : Runs.Run (step S jsonText parse) (Sends S jsonText) (init generation device s₀) s) :
    s.worker = after S generation device s₀ (s.asked.take s.served) ∧
      ∀ c o, (c, o) ∈ s.client.outcomes → Told S generation device s₀ s c o := by
  have inv : Inv S jsonText generation device s₀ s :=
    Runs.run_invariant (Inv S jsonText generation device s₀) run inv_init
      fun _ _ _ inv sends moved => inv_step back inv sends moved
  exact ⟨inv.worker, fun c o mem => inv.client.ledger.told (c, o) mem⟩

end runs

def bump : Request := ⟨"stats", .obj [], [], 5000⟩

def writeCount (msg : Json) : Option Bytes :=
  match msg with
  | .obj [("ok", .bool true), ("result", .int 0)] => some [0]
  | .obj [("ok", .bool true), ("result", .int 1)] => some [1]
  | _ => none

def readCount (text : Bytes) : Option Json :=
  match text with
  | [0] => some (okMeta (.int 0))
  | [1] => some (okMeta (.int 1))
  | _ => none

def counter : Setting Nat where
  loads _ := some (message bump)
  dumps := writeCount
  repr _ := ""
  traceback _ := .null
  run _ _ _ n := (.returned (.int n) [], n + 1)

theorem count_read (msg : Json) (text : Bytes) (written : writeCount msg = some text) :
    readCount text = some msg := by
  unfold writeCount at written
  split at written
  · cases written
    rfl
  · cases written
    rfl
  · cases written

theorem bump_sendable : Sendable counter (fun _ => [1]) bump :=
  ⟨⟨by decide, by decide, by decide⟩, rfl⟩

def bumps (s : Session Nat) : Label → Bool
  | .inside (.call ⟨"stats", .obj [], [], 5000⟩) => s.client.calls + 1 < 2 ^ 64
  | .inside (.call _) => false
  | _ => true

theorem sends_of_bumps {s : Session Nat} {a : Label} (passed : bumps s a = true) :
    Sends counter (fun _ => [1]) s a := by
  cases a with
  | inside a =>
    cases a with
    | call r =>
      unfold bumps at passed
      split at passed
      · rename_i same
        cases same
        exact ⟨bump_sendable, of_decide_eq_true passed⟩
      · cases passed
      · rename_i other
        exact absurd rfl (other r)
    | _ => trivial
  | _ => trivial

def lateCount : List Label :=
  [.inside (.call bump), .inside (.call bump), .inside .receive, .inside .receive, .work,
    .inside (.fire 1), .inside .receive, .work, .deliver, .inside .receive, .deliver, .inside .receive]

theorem late_count_told : ∃ s : Session Nat,
    (s.worker = after counter 1 "CPU" 0 (s.asked.take s.served) ∧
      ∀ c o, (c, o) ∈ s.client.outcomes → Told counter 1 "CPU" 0 s c o) ∧
    s.worker = 2 ∧ s.client.outcomes = [(0, .error
      (.worker ⟨.str "request timed out", .str "Timeout", none, 1, "CPU", .obj [], .null⟩)),
      (1, .ok (.int 1) [])] := by
  have ends : (Runs.follow (fun s a => if bumps s a then step counter (fun _ => [1]) readCount s a
    else none) (init 1 "CPU" 0) lateCount).isSome = true := by decide +kernel
  obtain ⟨s, done⟩ := Option.isSome_iff_exists.mp ends
  have run : Runs.Run (step counter (fun _ => [1]) readCount) (Sends counter fun _ => [1])
      (init 1 "CPU" 0) s := Runs.run_of_test (fun _ _ => sends_of_bumps) done
  refine ⟨s, served_in_order count_read run, ?_⟩
  cases done
  exact ⟨rfl, rfl⟩

end NxTinygrad.Sessions
