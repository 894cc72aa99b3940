import NxTinygrad.MainLoop
import NxTinygrad.Packets

/- `main` of main.py over its two byte streams. Standard input arrives in pieces and ends somewhere, also
   inside a packet. -/
namespace NxTinygrad.Streaming
open BigEndian Protocol Framing Packets
open MainLoop (Setting Crash Status Answers requests isShutdown)

inductive Exit where
  | returned (code : Nat)
  | raised (c : Crash)
  deriving DecidableEq, Repr

variable {σ : Type}

/-- `main` from its loop on: what has been written to standard output in the end. -/
def main (S : Setting σ) (stream : Pieces UInt8) (out : Bytes) (s : σ) : Bytes × Exit :=
  match _ : readPacket stream with
  | .error _ => (out, .returned 2)
  | .ok (none, _) => (out, .returned 0)
  | .ok (some payload, rest) => match S.work payload s with
    | .undecodable => (out, .returned 2)
    | .crashed c => (out, .raised c)
    | .answered response stop s => match writePacket out response with
      | .error _ => (out, .raised .structError)
      | .ok out => if stop then (out, .returned 0) else main S rest out s
termination_by stream.whole.length
decreasing_by exact readPacket_shrinks ‹_›

def unpack (bytes : Bytes) : List Bytes × Bytes :=
  let length := value (bytes.take 4)
  if _ : 4 ≤ bytes.length ∧ length ≤ maxFrameBytes ∧ 4 + length ≤ bytes.length then
    let later := unpack (bytes.drop (4 + length))
    ((bytes.drop 4).take length :: later.1, later.2)
  else ([], bytes)
termination_by bytes.length
decreasing_by
  rw [List.length_drop]
  omega

/-- How the process ends, given how the loop over the frames did and the bytes that are left. -/
def ended : Status → Bytes → Exit
  | .waiting, left => .returned (if left.length < 4 then 0 else 2)
  | .stopped, _ => .returned 0
  | .exited, _ => .returned 2
  | .crashed c, _ => .raised c

section loop
variable {S : Setting σ} {stream stream' : Pieces UInt8} {out : Bytes} {s : σ}

theorem main_end {rest : Pieces UInt8} (read : readPacket stream = .ok (none, rest)) :
    main S stream out s = (out, .returned 0) := by
  rw [main]
  split <;> simp_all

theorem main_raised {e : ProtocolError} (read : readPacket stream = .error e) :
    main S stream out s = (out, .returned 2) := by
  rw [main]
  split <;> simp_all

theorem main_more {payload : Bytes} {rest : Pieces UInt8}
    (read : readPacket stream = .ok (some payload, rest)) :
    main S stream out s = match S.work payload s with
      | .undecodable => (out, .returned 2)
      | .crashed c => (out, .raised c)
      | .answered response stop s => match writePacket out response with
        | .error _ => (out, .raised .structError)
        | .ok out => if stop then (out, .returned 0) else main S rest out s := by
  rw [main]
  split
  · simp_all
  · simp_all
  · rename_i found
    cases read.symm.trans found
    rfl

theorem work_written {payload response : Bytes} {stop : Bool} {s' : σ}
    (worked : S.work payload s = .answered response stop s') :
    writePacket out response = .ok (out ++ packet response) := by
  have small : response.length < 256 ^ 4 := by
    unfold Setting.work at worked
    split at worked
    · cases worked
    · split at worked
      · dsimp only at worked
        split at worked
        · cases worked
        · rename_i sent
          cases worked
          obtain ⟨_, _, _, small⟩ := MainLoop.send_ok sent
          exact small
      · cases worked
  unfold writePacket pack
  rw [if_pos small]
  simp [packet, bind, Except.bind]

theorem bytes_cases (bytes : Bytes) : bytes.length < 4 ∨
    (4 ≤ bytes.length ∧ (maxFrameBytes < value (bytes.take 4) ∨
      bytes.length < 4 + value (bytes.take 4))) ∨
    ∃ payload back, payload.length ≤ maxFrameBytes ∧ bytes = packet payload ++ back := by
  by_cases long : 4 ≤ bytes.length
  · by_cases met : value (bytes.take 4) ≤ maxFrameBytes ∧ 4 + value (bytes.take 4) ≤ bytes.length
    · obtain ⟨head, body, split, four⟩ : ∃ head body, bytes = head ++ body ∧ head.length = 4 :=
        ⟨_, _, (List.take_append_drop 4 _).symm, by simpa using long⟩
      have first : bytes.take 4 = head := by rw [split, ← four, List.take_left]
      have total : bytes.length = 4 + body.length := by rw [split, List.length_append, four]
      rw [first, total] at met
      have size : (body.take (value head)).length = value head := by
        rw [List.length_take]
        omega
      refine .inr (.inr ⟨body.take (value head), body.drop (value head), by omega, ?_⟩)
      rw [packet, size, ← four, toBytes_value, List.append_assoc, List.take_append_drop, split]
    · exact .inr (.inl ⟨long, by omega⟩)
  · exact .inl (by omega)

theorem readPacket_stuck (long : 4 ≤ stream.whole.length)
    (stuck : maxFrameBytes < value (stream.whole.take 4) ∨
      stream.whole.length < 4 + value (stream.whole.take 4)) :
    ∃ e, readPacket stream = .error e := by
  obtain ⟨head, body, split, four⟩ : ∃ head body, stream.whole = head ++ body ∧ head.length = 4 :=
    ⟨_, _, (List.take_append_drop 4 _).symm, by simpa using long⟩
  obtain ⟨after, found, left⟩ := Pieces.fill_some split four
  have first : stream.whole.take 4 = head := by rw [split, ← four, List.take_left]
  have total : stream.whole.length = 4 + body.length := by rw [split, List.length_append, four]
  rw [first, total] at stuck
  by_cases big : maxFrameBytes < value head
  · refine ⟨⟨"incoming frame too large: " ++ toString (value head) ++ " bytes"⟩, ?_⟩
    simp only [readPacket, readExact, found, gt_iff_lt, if_pos big]
  · have short : after.whole.length < value head := by
      rw [left]
      omega
    obtain ⟨rest, read, _⟩ := Pieces.fill_none short
    refine ⟨⟨"truncated frame: EOF inside packet body"⟩, ?_⟩
    simp only [readPacket, readExact, found, gt_iff_lt, if_neg big, read]

theorem unpack_packet {payload : Bytes} (small : payload.length ≤ maxFrameBytes) (back : Bytes) :
    unpack (packet payload ++ back) = (payload :: (unpack back).1, (unpack back).2) := by
  have fits : payload.length < 256 ^ 4 := by
    unfold maxFrameBytes at small
    omega
  have head : (packet payload ++ back).take 4 = toBytes 4 payload.length := by
    rw [packet, List.append_assoc, List.take_left' (toBytes_length 4 _)]
  have tail : (packet payload ++ back).drop 4 = payload ++ back := by
    rw [packet, List.append_assoc, List.drop_left' (toBytes_length 4 _)]
  have rest : (packet payload ++ back).drop (4 + payload.length) = back :=
    List.drop_left' (packet_length payload)
  rw [unpack, head, value_toBytes_of_lt fits, tail, rest, List.take_left' rfl]
  have size : 4 + payload.length ≤ (packet payload ++ back).length := by
    rw [List.length_append, packet_length]
    omega
  rw [dif_pos ⟨by omega, small, size⟩]

theorem unpack_stuck {bytes : Bytes} (stuck : bytes.length < 4 ∨
    maxFrameBytes < value (bytes.take 4) ∨ bytes.length < 4 + value (bytes.take 4)) :
    unpack bytes = ([], bytes) := by
  rw [unpack, dif_neg (by omega)]

theorem main_eq (S : Setting σ) (stream : Pieces UInt8) (out : Bytes) (s : σ) : main S stream out s =
    (out ++ packets (S.serve (unpack stream.whole).1 s).1,
      ended (S.serve (unpack stream.whole).1 s).2 (unpack stream.whole).2) := by
  induction size : stream.whole.length using Nat.strongRecOn generalizing stream out s with
  | ind n ih =>
    rcases bytes_cases stream.whole with short | ⟨long, stuck⟩ | ⟨payload, back, small, split⟩
    · obtain ⟨rest, read⟩ := readPacket_end short
      rw [main_end read, unpack_stuck (.inl short)]
      simp [Setting.serve, ended, packets, short]
    · obtain ⟨e, read⟩ := readPacket_stuck long stuck
      rw [main_raised read, unpack_stuck (.inr stuck)]
      simp [Setting.serve, ended, packets, Nat.not_lt.mpr long]
    · obtain ⟨rest, read, whole⟩ := readPacket_whole split small
      have fewer : rest.whole.length < n := size ▸ readPacket_shrinks read
      rw [main_more read, split, unpack_packet small, ← whole, Setting.serve]
      cases worked : S.work payload s with
      | undecodable => simp [ended, packets]
      | crashed c => simp [ended, packets]
      | answered response stop s' =>
        simp only [work_written worked]
        cases stop with
        | true => simp [ended, packets]
        | false => simp [ih _ fewer rest _ _ rfl, packets]

end loop

section longer
variable {bytes more : Bytes}

theorem unpack_grows (part : bytes <+: more) : (unpack bytes).1 <+: (unpack more).1 := by
  induction size : bytes.length using Nat.strongRecOn generalizing bytes more with
  | ind n ih =>
    rcases bytes_cases bytes with short | ⟨-, stuck⟩ | ⟨payload, back, small, rfl⟩
    · rw [unpack_stuck (.inl short)]
      exact List.nil_prefix
    · rw [unpack_stuck (.inr stuck)]
      exact List.nil_prefix
    · obtain ⟨tail, rfl⟩ := part
      have fewer : back.length < n := by
        rw [← size, List.length_append, packet_length]
        omega
      have later := ih _ fewer (List.prefix_append back tail) rfl
      rw [List.append_assoc, unpack_packet small, unpack_packet small]
      exact List.cons_prefix_cons.mpr ⟨rfl, later⟩

theorem serve_grows {S : Setting σ} {frames frames' : List Bytes} (part : frames <+: frames') (s : σ) :
    (S.serve frames s).1 <+: (S.serve frames' s).1 := by
  induction frames generalizing frames' s with
  | nil => exact List.nil_prefix
  | cons p rest ih =>
    obtain ⟨tail, rfl⟩ := part
    rw [List.cons_append, Setting.serve, Setting.serve]
    cases S.work p s with
    | undecodable => exact List.nil_prefix
    | crashed c => exact List.nil_prefix
    | answered response stop s' =>
      cases stop with
      | true => exact List.prefix_refl _
      | false => exact List.cons_prefix_cons.mpr ⟨rfl, ih (List.prefix_append rest tail) s'⟩

theorem packets_grow {payloads payloads' : List Bytes} (part : payloads <+: payloads') :
    packets payloads <+: packets payloads' := by
  obtain ⟨tail, rfl⟩ := part
  rw [packets, packets, List.flatMap_append]
  exact List.prefix_append _ _

end longer

section cut
variable {payloads : List Bytes} {bytes : Bytes}

theorem unpack_part {payload : Bytes} (small : payload.length ≤ maxFrameBytes)
    (part : bytes <+: packet payload) (proper : bytes.length < (packet payload).length) :
    unpack bytes = ([], bytes) := by
  have fits : payload.length < 256 ^ 4 := by
    unfold maxFrameBytes at small
    omega
  rw [packet_length] at proper
  rcases Nat.lt_or_ge bytes.length 4 with short | long
  · exact unpack_stuck (.inl short)
  · have header : toBytes 4 payload.length <+: bytes :=
      List.prefix_of_prefix_length_le (List.prefix_append _ _) part (by simpa using long)
    have first : bytes.take 4 = toBytes 4 payload.length := by
      have taken := List.prefix_iff_eq_take.mp header
      rw [toBytes_length] at taken
      exact taken.symm
    refine unpack_stuck (.inr (.inr ?_))
    rw [first, value_toBytes_of_lt fits]
    exact proper

theorem unpack_cut (small : Small payloads) (part : bytes <+: packets payloads) :
    ∃ rest, payloads = (unpack bytes).1 ++ rest ∧
      bytes = packets (unpack bytes).1 ++ (unpack bytes).2 ∧
      ∀ p ∈ rest.head?, (unpack bytes).2.length < (packet p).length := by
  induction payloads generalizing bytes with
  | nil =>
    obtain rfl : bytes = [] := List.prefix_nil.mp part
    rw [unpack_stuck (.inl (by decide))]
    exact ⟨[], rfl, rfl, by simp⟩
  | cons p rest ih =>
    have here := small p (List.mem_cons_self ..)
    have whole : packets (p :: rest) = packet p ++ packets rest := rfl
    rw [whole] at part
    rcases Nat.lt_or_ge bytes.length (packet p).length with short | long
    · have inside : bytes <+: packet p :=
        List.prefix_of_prefix_length_le part (List.prefix_append _ _) (Nat.le_of_lt short)
      rw [unpack_part here inside short]
      exact ⟨p :: rest, rfl, rfl, by simpa using short⟩
    · obtain ⟨tail, rfl⟩ : packet p <+: bytes :=
        List.prefix_of_prefix_length_le (List.prefix_append _ _) part long
      have part : tail <+: packets rest := (List.prefix_append_right_inj _).mp part
      obtain ⟨rest', all, split, next⟩ := ih (fun q mem => small q (List.mem_cons_of_mem _ mem)) part
      rw [unpack_packet here]
      refine ⟨rest', congrArg (p :: ·) all, ?_, next⟩
      rw [packets, List.flatMap_cons, List.append_assoc]
      exact congrArg (packet p ++ ·) split

end cut

theorem serve_calm {S : Setting σ} {parse : Bytes → Option Json} {frames : List Bytes} {s : σ}
    (decodable : ∀ p ∈ frames, ∃ r, decodeFrame S.loads p = .ok r) (calm : S.Calm parse frames s) :
    List.Forall₂ (Answers parse S.loads) (requests S.loads frames).1 (S.serve frames s).1 ∧
      (S.serve frames s).2 = if (requests S.loads frames).2 then .stopped else .waiting := by
  induction frames generalizing s with
  | nil => exact ⟨.nil, rfl⟩
  | cons p rest ih =>
    obtain ⟨⟨⟨reqId, msg, blobs⟩, got⟩, decodable⟩ := List.forall_mem_cons.mp decodable
    obtain ⟨answerable, later⟩ := calm reqId msg blobs got
    obtain ⟨r, worked, answers⟩ := (MainLoop.work_answers got).mpr answerable
    simp only [requests, got, Setting.serve, worked]
    cases stops : isShutdown msg with
    | true => exact ⟨.cons answers .nil, rfl⟩
    | false =>
      obtain ⟨responses, status⟩ := ih decodable (later stops)
      exact ⟨.cons answers responses, status⟩

theorem calm_part {S : Setting σ} {parse : Bytes → Option Json} {frames rest : List Bytes} {s : σ}
    (calm : S.Calm parse (frames ++ rest) s) : S.Calm parse frames s := by
  induction frames generalizing s with
  | nil => trivial
  | cons p frames ih =>
    intro reqId msg blobs got
    obtain ⟨answerable, later⟩ := calm reqId msg blobs got
    exact ⟨answerable, fun running => ih (later running)⟩

/-- What `main` writes depends on the bytes alone, not on how they are cut into pieces, and does not wait for
    later ones. However far a stream of answerable requests gets, it is answered request by request up to the
    first shutdown, and only a request that is cut off in its body makes the process fail. -/
theorem main_streams (S : Setting σ) (parse : Bytes → Option Json) (s : σ) :
    (∀ stream stream' : Pieces UInt8, stream.whole = stream'.whole →
      main S stream [] s = main S stream' [] s) ∧
    (∀ stream stream' : Pieces UInt8, stream.whole <+: stream'.whole →
      (main S stream [] s).1 <+: (main S stream' [] s).1) ∧
    ∀ (frames : List Bytes) (stream : Pieces UInt8), Small frames →
      (∀ p ∈ frames, ∃ r, decodeFrame S.loads p = .ok r) → S.Calm parse frames s →
      stream.whole <+: packets frames →
        ∃ done rest cut responses, frames = done ++ rest ∧ stream.whole = packets done ++ cut ∧
          (∀ p ∈ rest.head?, cut.length < (packet p).length) ∧
          List.Forall₂ (Answers parse S.loads) (requests S.loads done).1 responses ∧
          main S stream [] s = (packets responses, .returned
            (if (requests S.loads done).2 = true ∨ cut.length < 4 then 0 else 2)) := by
  refine ⟨fun stream stream' whole => ?_, fun stream stream' part => ?_,
    fun frames stream small decodable calm part => ?_⟩
  · rw [main_eq, main_eq, whole]
  · rw [main_eq, main_eq]
    exact packets_grow (serve_grows (unpack_grows part) s)
  · obtain ⟨rest, all, split, next⟩ := unpack_cut small part
    have decodable : ∀ p ∈ (unpack stream.whole).1, ∃ r, decodeFrame S.loads p = .ok r :=
      fun p mem => decodable p (all ▸ List.mem_append_left _ mem)
    obtain ⟨answered, status⟩ := serve_calm decodable (calm_part (all ▸ calm))
    refine ⟨_, rest, _, _, all, split, next, answered, ?_⟩
    rw [main_eq, status, List.nil_append]
    cases (requests S.loads (unpack stream.whole).1).2 <;> simp [ended]

/-- A request in two reads, and the first six bytes of another one. -/
def twoReads : Pieces UInt8 :=
  ⟨[(packet (MainLoop.request 1 1 [[5]])).take 3,
    (packet (MainLoop.request 1 1 [[5]])).drop 3 ++ (packet (MainLoop.request 2 1 [])).take 6], by decide⟩

theorem twoReads_answered : ∃ done rest cut responses,
    [MainLoop.request 1 1 [[5]], MainLoop.request 2 1 []] = done ++ rest ∧
    twoReads.whole = packets done ++ cut ∧ (∀ p ∈ rest.head?, cut.length < (packet p).length) ∧
    List.Forall₂ (Answers MainLoop.readCommand MainLoop.readCommand)
      (requests MainLoop.readCommand done).1 responses ∧
    main MainLoop.echo twoReads [] () = (packets responses, .returned
      (if (requests MainLoop.readCommand done).2 = true ∨ cut.length < 4 then 0 else 2)) := by
  have first : decodeFrame MainLoop.readCommand (MainLoop.request 1 1 [[5]]) =
      .ok (1, .obj [("command", .str "hello")], [[5]]) :=
    MainLoop.request_read (by decide) ⟨by decide, by decide, by decide⟩ rfl rfl
  have second : decodeFrame MainLoop.readCommand (MainLoop.request 2 1 []) =
      .ok (2, .obj [("command", .str "hello")], []) :=
    MainLoop.request_read (by decide) ⟨by decide, by decide, by decide⟩ rfl rfl
  refine (main_streams MainLoop.echo MainLoop.readCommand ()).2.2
    [MainLoop.request 1 1 [[5]], MainLoop.request 2 1 []] twoReads ?_ ?_ ?_ ?_
  · intro p mem
    simp only [List.mem_cons, List.not_mem_nil, or_false] at mem
    rcases mem with rfl | rfl <;> decide
  · intro p mem
    simp only [List.mem_cons, List.not_mem_nil, or_false] at mem
    rcases mem with rfl | rfl
    · exact ⟨_, first⟩
    · exact ⟨_, second⟩
  · intro _ _ _ got
    cases first.symm.trans got
    refine ⟨⟨rfl, [1], rfl, rfl, by decide, by decide, by decide, by decide⟩, fun _ => ?_⟩
    intro _ _ _ got
    cases second.symm.trans got
    exact ⟨⟨rfl, [1], rfl, rfl, by decide, by decide, by decide, by decide⟩, fun _ => trivial⟩
  · exact List.prefix_iff_eq_take.mpr (by decide)

end NxTinygrad.Streaming
