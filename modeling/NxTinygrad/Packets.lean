import NxTinygrad.Lib.Pieces
import NxTinygrad.Framing

/- The packets under the frames: a four-byte length and a payload, over a stream that arrives in
   pieces. -/
namespace NxTinygrad.Packets
open BigEndian Protocol

structure ProtocolError where
  message : String
  deriving DecidableEq, Repr

def maxFrameBytes : Nat := 2 * 1024 * 1024 * 1024

def readExact (stream : Pieces UInt8) (n : Nat) : Option Bytes × Pieces UInt8 := stream.fill n []

/-- `read_packet`: the payload, or nothing at the end of the stream. -/
def readPacket (stream : Pieces UInt8) : Except ProtocolError (Option Bytes × Pieces UInt8) :=
  match readExact stream 4 with
  | (none, stream) => .ok (none, stream)
  | (some header, stream) =>
      let length := value header
      if length > maxFrameBytes then
        .error ⟨"incoming frame too large: " ++ toString length ++ " bytes"⟩
      else match readExact stream length with
        | (none, _) => .error ⟨"truncated frame: EOF inside packet body"⟩
        | (some payload, stream) => .ok (some payload, stream)

def writePacket (out payload : Bytes) : Except FrameError Bytes := do
  let header ← pack 4 payload.length
  .ok (out ++ header ++ payload)

def writePackets : Bytes → List Bytes → Except FrameError Bytes
  | out, [] => .ok out
  | out, payload :: rest => do
      let out ← writePacket out payload
      writePackets out rest

def packet (payload : Bytes) : Bytes := toBytes 4 payload.length ++ payload

def packets (payloads : List Bytes) : Bytes := payloads.flatMap packet

theorem packet_length (payload : Bytes) : (packet payload).length = 4 + payload.length := by
  simp [packet]

def Small (payloads : List Bytes) : Prop := ∀ p ∈ payloads, p.length ≤ maxFrameBytes

theorem Small.fits {payloads : List Bytes} (small : Small payloads) {p : Bytes} (mem : p ∈ payloads) :
    p.length < 256 ^ 4 := by
  have bound := small p mem
  unfold maxFrameBytes at bound
  omega

theorem writePackets_eq {payloads : List Bytes} (small : Small payloads) (out : Bytes) :
    writePackets out payloads = .ok (out ++ packets payloads) := by
  induction payloads generalizing out with
  | nil => simp [writePackets, packets]
  | cons p rest ih =>
    have fits := small.fits (List.mem_cons_self ..)
    have written : writePacket out p = .ok (out ++ packet p) := by
      unfold writePacket pack
      rw [if_pos fits]
      simp [packet, bind, Except.bind]
    have tail := ih (fun q mem => small q (List.mem_cons_of_mem _ mem)) (out ++ packet p)
    rw [writePackets, written]
    simpa [packets, bind, Except.bind] using tail

variable {stream : Pieces UInt8} {payload back : Bytes}

theorem readPacket_whole (split : stream.whole = packet payload ++ back)
    (small : payload.length ≤ maxFrameBytes) :
    ∃ rest, readPacket stream = .ok (some payload, rest) ∧ rest.whole = back := by
  have fits : payload.length < 256 ^ 4 := by
    unfold maxFrameBytes at small
    omega
  have front : stream.whole = toBytes 4 payload.length ++ (payload ++ back) := by
    rw [split, packet, List.append_assoc]
  obtain ⟨after, header, body⟩ := Pieces.fill_some front (toBytes_length 4 _)
  obtain ⟨rest, read, last⟩ := Pieces.fill_some body rfl
  refine ⟨rest, ?_, last⟩
  simp only [readPacket, readExact, header, value_toBytes_of_lt fits, Nat.not_lt.mpr small,
    if_false, read]

theorem readPacket_end (short : stream.whole.length < 4) :
    ∃ rest, readPacket stream = .ok (none, rest) := by
  obtain ⟨rest, header, _⟩ := Pieces.fill_none short
  exact ⟨rest, by simp only [readPacket, readExact, header]⟩

theorem readPacket_cut {k : Nat} (cut : stream.whole = (packet payload).take k) (header : 4 ≤ k)
    (proper : k < (packet payload).length) (small : payload.length ≤ maxFrameBytes) :
    readPacket stream = .error ⟨"truncated frame: EOF inside packet body"⟩ := by
  have fits : payload.length < 256 ^ 4 := by
    unfold maxFrameBytes at small
    omega
  rw [packet_length] at proper
  have front : stream.whole = toBytes 4 payload.length ++ payload.take (k - 4) := by
    rw [cut, packet, List.take_append, List.take_of_length_le (by simpa using header), toBytes_length]
  obtain ⟨after, found, body⟩ := Pieces.fill_some front (toBytes_length 4 _)
  have short : after.whole.length < payload.length := by
    rw [body, List.length_take]
    omega
  obtain ⟨rest, read, _⟩ := Pieces.fill_none short
  simp only [readPacket, readExact, found, value_toBytes_of_lt fits, Nat.not_lt.mpr small,
    if_false, read]

theorem readPacket_shrinks {rest : Pieces UInt8} (read : readPacket stream = .ok (some payload, rest)) :
    rest.whole.length < stream.whole.length := by
  unfold readPacket readExact at read
  split at read
  · cases read
  · rename_i header after found
    obtain ⟨front, four⟩ := Pieces.fill_split found
    dsimp only at read
    split at read
    · cases read
    · split at read
      · cases read
      · rename_i body last found
        cases read
        obtain ⟨tail, _⟩ := Pieces.fill_split found
        rw [front, tail, List.length_append, List.length_append]
        omega

/-- `read_packet` until it returns None or raises: the payloads, and how it ended. -/
def readPackets (stream : Pieces UInt8) : List Bytes × Except ProtocolError Unit :=
  match _ : readPacket stream with
  | .error e => ([], .error e)
  | .ok (none, _) => ([], .ok ())
  | .ok (some payload, rest) =>
      let more := readPackets rest
      (payload :: more.1, more.2)
termination_by stream.whole.length
decreasing_by exact readPacket_shrinks ‹_›

theorem readPackets_more {rest : Pieces UInt8} (read : readPacket stream = .ok (some payload, rest)) :
    readPackets stream = (payload :: (readPackets rest).1, (readPackets rest).2) := by
  rw [readPackets]
  split <;> simp_all

theorem readPackets_end {rest : Pieces UInt8} (read : readPacket stream = .ok (none, rest)) :
    readPackets stream = ([], .ok ()) := by
  rw [readPackets]
  split <;> simp_all

theorem readPackets_raised {e : ProtocolError} (read : readPacket stream = .error e) :
    readPackets stream = ([], .error e) := by
  rw [readPackets]
  split <;> simp_all

theorem readPackets_append {done : List Bytes} (small : Small done)
    (split : stream.whole = packets done ++ back) : ∃ rest, rest.whole = back ∧
      readPackets stream = (done ++ (readPackets rest).1, (readPackets rest).2) := by
  induction done generalizing stream with
  | nil => exact ⟨stream, split, rfl⟩
  | cons p done ih =>
    have front : stream.whole = packet p ++ (packets done ++ back) := by
      rw [split, ← List.append_assoc]
      rfl
    obtain ⟨after, read, left⟩ := readPacket_whole front (small p (List.mem_cons_self ..))
    obtain ⟨rest, last, all⟩ := ih (fun q mem => small q (List.mem_cons_of_mem _ mem)) left
    exact ⟨rest, last, by rw [readPackets_more read, all]; rfl⟩

def AtBoundary (payloads : List Bytes) (cut : Bytes) : Prop :=
  ∃ done, done <+: payloads ∧ cut = packets done

def InHeader (payloads : List Bytes) (cut : Bytes) : Prop :=
  ∃ done p k, done ++ [p] <+: payloads ∧ 0 < k ∧ k < 4 ∧ cut = packets done ++ (packet p).take k

theorem inside_packet {payloads : List Bytes} {cut : Bytes} (part : cut <+: packets payloads)
    (off : ¬ AtBoundary payloads cut) : ∃ done p k, done ++ [p] <+: payloads ∧ 0 < k ∧
      k < (packet p).length ∧ cut = packets done ++ (packet p).take k := by
  induction payloads generalizing cut with
  | nil => exact absurd ⟨[], List.prefix_refl _, List.prefix_nil.mp part⟩ off
  | cons p rest ih =>
    have whole : packets (p :: rest) = packet p ++ packets rest := rfl
    rw [whole] at part
    rcases Nat.lt_or_ge cut.length (packet p).length with short | long
    · have inside : cut <+: packet p :=
        List.prefix_of_prefix_length_le part (List.prefix_append _ _) (Nat.le_of_lt short)
      refine ⟨[], p, cut.length, ⟨rest, rfl⟩, ?_, short, List.prefix_iff_eq_take.mp inside⟩
      refine Nat.pos_of_ne_zero fun empty => off ⟨[], List.nil_prefix, ?_⟩
      exact List.length_eq_zero_iff.mp empty
    · obtain ⟨tail, rfl⟩ : packet p <+: cut :=
        List.prefix_of_prefix_length_le (List.prefix_append _ _) part long
      have part : tail <+: packets rest := (List.prefix_append_right_inj _).mp part
      have off : ¬ AtBoundary rest tail := by
        rintro ⟨done, first, rfl⟩
        exact off ⟨p :: done, List.cons_prefix_cons.mpr ⟨rfl, first⟩, rfl⟩
      obtain ⟨done, q, k, first, pos, low, rfl⟩ := ih part off
      refine ⟨p :: done, q, k, List.cons_prefix_cons.mpr ⟨rfl, first⟩, pos, low, ?_⟩
      rw [← List.append_assoc]
      rfl

theorem Small.earlier {payloads done : List Bytes} {p : Bytes} (small : Small payloads)
    (first : done ++ [p] <+: payloads) : Small done ∧ p.length ≤ maxFrameBytes := by
  have inside (q : Bytes) (mem : q ∈ done ++ [p]) : q.length ≤ maxFrameBytes :=
    small q (first.subset mem)
  exact ⟨fun q mem => inside q (List.mem_append_left _ mem), inside p (by simp)⟩

theorem readPackets_header {payloads : List Bytes} (small : Small payloads)
    (header : InHeader payloads stream.whole) : ∃ done, readPackets stream = (done, .ok ()) := by
  obtain ⟨done, p, k, first, _, low, split⟩ := header
  obtain ⟨rest, last, all⟩ := readPackets_append (small.earlier first).1 split
  have short : rest.whole.length < 4 := by
    rw [last, List.length_take]
    omega
  obtain ⟨after, read⟩ := readPacket_end short
  rw [readPackets_end read] at all
  exact ⟨_, all⟩

theorem readPackets_body {payloads done : List Bytes} {p : Bytes} {k : Nat} (small : Small payloads)
    (first : done ++ [p] <+: payloads) (header : 4 ≤ k) (low : k < (packet p).length)
    (split : stream.whole = packets done ++ (packet p).take k) :
    readPackets stream = (done, .error ⟨"truncated frame: EOF inside packet body"⟩) := by
  obtain ⟨before, here⟩ := small.earlier first
  obtain ⟨rest, last, all⟩ := readPackets_append before split
  rw [all, readPackets_raised (readPacket_cut last header low here), List.append_nil]

theorem readPackets_written {payloads : List Bytes} (small : Small payloads)
    (written : writePackets [] payloads = .ok stream.whole) :
      readPackets stream = (payloads, .ok ()) := by
  rw [writePackets_eq small, Except.ok.injEq, List.nil_append] at written
  obtain ⟨rest, last, all⟩ := readPackets_append small (written.symm.trans (List.append_nil _).symm)
  have short : rest.whole.length < 4 := by simp [last]
  obtain ⟨after, read⟩ := readPacket_end short
  rw [all, readPackets_end read, List.append_nil]

/-- All payloads come back from the whole stream; a proper part that does not end between two packets
    raises exactly when it does not end inside a header. -/
theorem truncation_raises_iff {payloads : List Bytes} (small : Small payloads) {out : Bytes}
    (written : writePackets [] payloads = .ok out) :
    (∀ stream : Pieces UInt8, stream.whole = out → readPackets stream = (payloads, .ok ())) ∧
      ∀ stream : Pieces UInt8, stream.whole <+: out → ¬ AtBoundary payloads stream.whole →
        ((∃ e, (readPackets stream).2 = .error e) ↔ ¬ InHeader payloads stream.whole) := by
  refine ⟨fun stream whole => readPackets_written small (whole ▸ written), fun stream part off => ?_⟩
  rw [writePackets_eq small, Except.ok.injEq, List.nil_append] at written
  rw [← written] at part
  constructor
  · rintro ⟨e, raised⟩ header
    obtain ⟨done, ended⟩ := readPackets_header small header
    rw [ended] at raised
    cases raised
  · intro outside
    obtain ⟨done, p, k, first, pos, low, split⟩ := inside_packet part off
    have header : 4 ≤ k := by
      by_contra short
      exact outside ⟨done, p, k, first, pos, by omega, split⟩
    rw [readPackets_body small first header low split]
    exact ⟨_, rfl⟩

def threeReads : Pieces UInt8 := ⟨[[0, 0], [0, 2, 7], [8]], by decide⟩

theorem two_small : Small [[7, 8]] := by
  intro p mem
  rw [List.mem_singleton.mp mem]
  decide

theorem threeReads_read : readPackets threeReads = ([[7, 8]], .ok ()) :=
  (truncation_raises_iff two_small rfl).1 threeReads rfl

def oneByte : Pieces UInt8 := ⟨[[0]], by decide⟩

/-- Three bytes of the header are missing, and the stream is taken to have ended. -/
theorem cut_header_unnoticed : writePackets [] [[7, 8]] = .ok [0, 0, 0, 2, 7, 8] ∧
    oneByte.whole <+: [0, 0, 0, 2, 7, 8] ∧ ¬ AtBoundary [[7, 8]] oneByte.whole ∧
      ¬ ∃ e, (readPackets oneByte).2 = .error e := by
  have header : InHeader [[7, 8]] oneByte.whole := ⟨[], [7, 8], 1, by decide, by decide, by decide, rfl⟩
  refine ⟨rfl, by decide, ?_, ?_⟩
  · rintro ⟨done, first, same⟩
    have many := congrArg List.length same
    cases done with
    | nil => cases same
    | cons p rest =>
      have len : (packet p ++ packets rest).length = 1 := many.symm
      rw [List.length_append, packet_length] at len
      omega
  · obtain ⟨done, ended⟩ := readPackets_header two_small header
    rintro ⟨e, raised⟩
    rw [ended] at raised
    cases raised

end NxTinygrad.Packets
