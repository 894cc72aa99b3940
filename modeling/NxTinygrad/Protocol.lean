import NxTinygrad.Graph
import NxTinygrad.Lib.BigEndian

/- XTG1 frames: the encoder and decoder of protocol.ex and those of protocol.py. The JSON
   libraries of the two languages are parameters. -/
namespace NxTinygrad.Protocol
open BigEndian

def magic : Bytes := [0x58, 0x54, 0x47, 0x31]

abbrev Frame := Nat × Json × List Bytes

inductive Reason where
  | badMagic
  | truncatedFrame
  | truncatedBlobLengths
  | truncatedBlob
  | trailingBytes
  | invalidJson
  deriving DecidableEq, Repr

/-- `Protocol.encode`: bit syntax writes every number modulo the size of its field. -/
def encode (jsonText : Json → Bytes) (reqId : Nat) (msg : Json) (blobs : List Bytes) : Bytes :=
  let json := jsonText msg
  let blobLengths := blobs.flatMap fun b => toBytes 8 b.length
  let header := magic ++ toBytes 8 reqId ++ toBytes 4 json.length ++ toBytes 2 blobs.length
    ++ toBytes 2 0
  header ++ blobLengths ++ json ++ blobs.flatten

def matchHeader (p : Bytes) : Option (Nat × Nat × Nat × Bytes) := do
  let (found, rest) ← cut 4 p
  if found = magic then
    let (reqId, rest) ← cutNumber 8 rest
    let (jsonLen, rest) ← cutNumber 4 rest
    let (blobCount, rest) ← cutNumber 2 rest
    let (_, rest) ← cut 2 rest
    some (reqId, jsonLen, blobCount, rest)
  else none

def takeLengths : Nat → Bytes → List Nat → Except Reason (List Nat × Bytes)
  | 0, rest, acc => .ok (acc.reverse, rest)
  | n + 1, rest, acc => match cutNumber 8 rest with
    | some (len, rest) => takeLengths n rest (len :: acc)
    | none => .error .truncatedBlobLengths

def takeBlobs : List Nat → Bytes → List Bytes → Except Reason (List Bytes)
  | [], rest, acc => if rest = [] then .ok acc.reverse else .error .trailingBytes
  | len :: lens, bin, acc => match cut len bin with
    | some (blob, rest) => takeBlobs lens rest (blob :: acc)
    | none => .error .truncatedBlob

def decode (parse : Bytes → Option Json) (p : Bytes) : Except Reason Frame :=
  match matchHeader p with
  | none => .error .badMagic
  | some (reqId, jsonLen, blobCount, rest) => do
      let (blobLengths, rest) ← takeLengths blobCount rest []
      match cut jsonLen rest with
      | none => .error .truncatedFrame
      | some (json, rest) => match parse json with
        | none => .error .invalidJson
        | some msg => do
            let blobs ← takeBlobs blobLengths rest []
            .ok (reqId, msg, blobs)

inductive Malformed where
  | shortHeader
  | badMagic
  | lengthTable
  | truncatedMetadata
  | invalidJson
  | notObject
  | truncatedBlob
  | trailingBytes
  deriving DecidableEq, Repr

inductive FrameError where
  | protocolError (reason : Malformed)
  | structError
  deriving DecidableEq, Repr

def pack (w n : Nat) : Except FrameError Bytes :=
  if n < 256 ^ w then .ok (toBytes w n) else .error .structError

def packLengths : List Bytes → Except FrameError Bytes
  | [] => .ok []
  | b :: rest => do
      let here ← pack 8 b.length
      let more ← packLengths rest
      .ok (here ++ more)

def encodeFrame (dumps : Json → Bytes) (reqId : Nat) (msg : Json) (blobs : List Bytes) :
    Except FrameError Bytes := do
  let metaBytes := dumps msg
  let idField ← pack 8 reqId
  let jsonField ← pack 4 metaBytes.length
  let countField ← pack 2 blobs.length
  let lengths ← packLengths blobs
  .ok (magic ++ idField ++ jsonField ++ countField ++ [0, 0] ++ lengths ++ metaBytes ++ blobs.flatten)

def headerSize : Nat := 20

def slice (payload : Bytes) (start stop : Nat) : Bytes := (payload.drop start).take (stop - start)

def unpackFrom (w : Nat) (payload : Bytes) (offset : Nat) : Except FrameError Nat :=
  if offset + w ≤ payload.length then .ok (value (slice payload offset (offset + w)))
  else .error .structError

def readLengths (payload : Bytes) : Nat → Nat → Except FrameError (List Nat × Nat)
  | 0, offset => .ok ([], offset)
  | n + 1, offset => do
      let blen ← unpackFrom 8 payload offset
      let (lens, offset) ← readLengths payload n (offset + 8)
      .ok (blen :: lens, offset)

def readBlobs (payload : Bytes) : List Nat → Nat → Except FrameError (List Bytes × Nat)
  | [], offset => .ok ([], offset)
  | blen :: lens, offset =>
      let blob := slice payload offset (offset + blen)
      if blob.length ≠ blen then .error (.protocolError .truncatedBlob)
      else do
        let (blobs, offset) ← readBlobs payload lens (offset + blen)
        .ok (blob :: blobs, offset)

def require (cond : Bool) (reason : Malformed) : Except FrameError Unit :=
  if cond then .ok () else .error (.protocolError reason)

def decodeBody (loads : Bytes → Option Json) (payload : Bytes) (reqId jsonLen blobCount : Nat) :
    Except FrameError Frame := do
  let offset := headerSize
  require (decide (offset + blobCount * 8 ≤ payload.length)) .lengthTable
  let (blobLengths, offset) ← readLengths payload blobCount offset
  let metaBytes := slice payload offset (offset + jsonLen)
  let offset := offset + jsonLen
  require (decide (metaBytes.length = jsonLen)) .truncatedMetadata
  match loads metaBytes with
  | none => .error (.protocolError .invalidJson)
  | some msg => do
      require msg.isObj .notObject
      let (blobs, offset) ← readBlobs payload blobLengths offset
      require (decide (offset = payload.length)) .trailingBytes
      .ok (reqId, msg, blobs)

/-- `decode_frame`; `loads` is `json.loads` of the UTF-8 text. -/
def decodeFrame (loads : Bytes → Option Json) (payload : Bytes) : Except FrameError Frame := do
  require (decide (headerSize ≤ payload.length)) .shortHeader
  let reqId ← unpackFrom 8 payload 4
  let jsonLen ← unpackFrom 4 payload 12
  let blobCount ← unpackFrom 2 payload 16
  require (decide (slice payload 0 4 = magic)) .badMagic
  decodeBody loads payload reqId jsonLen blobCount

def headerBytes (found : Bytes) (reqId jsonLen count : Nat) (reserved : Bytes) : Bytes :=
  found ++ (toBytes 8 reqId ++ (toBytes 4 jsonLen ++ (toBytes 2 count ++ reserved)))

def lengthTable (lens : List Nat) : Bytes := lens.flatMap (toBytes 8)

/-- `p` is a frame with this id, JSON text and blobs, and every number fits its field. -/
structure Framed (p : Bytes) (reqId : Nat) (json : Bytes) (blobs : List Bytes) : Prop where
  layout : ∃ reserved : Bytes, reserved.length = 2 ∧
    p = headerBytes magic reqId json.length blobs.length reserved ++
      (lengthTable (blobs.map List.length) ++ (json ++ blobs.flatten))
  reqId : reqId < 256 ^ 8
  json : json.length < 256 ^ 4
  count : blobs.length < 256 ^ 2
  sizes : ∀ b ∈ blobs, b.length < 256 ^ 8

theorem headerBytes_length {found reserved : Bytes} (four : found.length = 4)
    (two : reserved.length = 2)
    (reqId jsonLen count : Nat) :
    (headerBytes found reqId jsonLen count reserved).length = headerSize := by
  simp only [headerBytes, List.length_append, toBytes_length, four, two, headerSize]

@[simp] theorem lengthTable_nil : lengthTable [] = [] := rfl

@[simp] theorem lengthTable_cons (len : Nat) (lens : List Nat) :
    lengthTable (len :: lens) = toBytes 8 len ++ lengthTable lens := rfl

theorem lengthTable_length (lens : List Nat) : (lengthTable lens).length = lens.length * 8 := by
  induction lens with
  | nil => rfl
  | cons len lens ih =>
    rw [lengthTable_cons, List.length_append, toBytes_length, ih, List.length_cons]
    omega

theorem reason_bind_ok {α β : Type} {x : Except Reason α} {f : α → Except Reason β} {b : β} :
    (x >>= f) = .ok b ↔ ∃ a, x = .ok a ∧ f a = .ok b := by
  cases x with
  | error e => simp [bind, Except.bind]
  | ok a => simp [bind, Except.bind]

theorem takeLengths_ok {n : Nat} {rest back : Bytes} {acc lens : List Nat} :
    takeLengths n rest acc = .ok (lens, back) ↔ ∃ read : List Nat, lens = acc.reverse ++ read ∧
      read.length = n ∧ rest = lengthTable read ++ back ∧ ∀ len ∈ read, len < 256 ^ 8 := by
  induction n generalizing rest acc with
  | zero =>
    simp only [takeLengths, Except.ok.injEq, Prod.mk.injEq]
    constructor
    · rintro ⟨rfl, rfl⟩
      exact ⟨[], by simp⟩
    · rintro ⟨read, rfl, len, rfl, _⟩
      cases List.length_eq_zero_iff.mp len
      simp
  | succ n ih =>
    simp only [takeLengths]
    constructor
    · intro h
      cases found : cutNumber 8 rest with
      | none => simp [found] at h
      | some pair =>
        obtain ⟨len, more⟩ := pair
        simp only [found] at h
        obtain ⟨read, rfl, count, rfl, small⟩ := ih.mp h
        obtain ⟨rfl, fits⟩ := cutNumber_some.mp found
        refine ⟨len :: read, by simp, by simp [count], by simp, ?_⟩
        exact List.forall_mem_cons.mpr ⟨fits, small⟩
    · rintro ⟨read, rfl, count, rfl, small⟩
      cases read with
      | nil => simp at count
      | cons len read =>
        obtain ⟨fits, small⟩ := List.forall_mem_cons.mp small
        have found : cutNumber 8 (lengthTable (len :: read) ++ back) =
            some (len, lengthTable read ++ back) :=
          cutNumber_some.mpr ⟨by simp, fits⟩
        simp only [found]
        exact ih.mpr ⟨read, by simp, by simpa using count, rfl, small⟩

theorem takeBlobs_ok {lens : List Nat} {rest : Bytes} {acc blobs : List Bytes} :
    takeBlobs lens rest acc = .ok blobs ↔ ∃ read : List Bytes, blobs = acc.reverse ++ read ∧
      lens = read.map List.length ∧ rest = read.flatten := by
  induction lens generalizing rest acc with
  | nil =>
    simp only [takeBlobs]
    constructor
    · intro h
      split at h
      · cases h
        exact ⟨[], by simpa using ‹rest = []›⟩
      · cases h
    · rintro ⟨read, rfl, none_left, rfl⟩
      cases List.map_eq_nil_iff.mp none_left.symm
      simp
  | cons len lens ih =>
    simp only [takeBlobs]
    constructor
    · intro h
      cases found : cut len rest with
      | none => simp [found] at h
      | some pair =>
        obtain ⟨blob, more⟩ := pair
        simp only [found] at h
        obtain ⟨read, rfl, rfl, rfl⟩ := ih.mp h
        obtain ⟨rfl, rfl⟩ := cut_some.mp found
        exact ⟨blob :: read, by simp, by simp, by simp⟩
    · rintro ⟨read, rfl, sizes, rfl⟩
      cases read with
      | nil => simp at sizes
      | cons blob read =>
        simp only [List.map_cons, List.cons.injEq] at sizes
        obtain ⟨rfl, rfl⟩ := sizes
        simp only [List.flatten_cons, cut_append]
        exact ih.mpr ⟨read, by simp, rfl, rfl⟩

theorem matchHeader_some {p rest : Bytes} {reqId jsonLen count : Nat} :
    matchHeader p = some (reqId, jsonLen, count, rest) ↔
      (∃ reserved : Bytes, reserved.length = 2 ∧
        p = headerBytes magic reqId jsonLen count reserved ++ rest) ∧
      reqId < 256 ^ 8 ∧ jsonLen < 256 ^ 4 ∧ count < 256 ^ 2 := by
  unfold matchHeader
  simp only [Option.bind_eq_bind, Option.bind_eq_some_iff, Prod.exists]
  constructor
  · rintro ⟨found, rest₁, at_magic, h⟩
    split at h
    · rename_i same
      simp only [Option.bind_eq_some_iff, Prod.exists, Option.some.injEq, Prod.mk.injEq] at h
      obtain ⟨_, rest₂, at_id, _, rest₃, at_json, _, rest₄, at_count, reserved, _, at_reserved,
        rfl, rfl, rfl, rfl⟩ := h
      obtain ⟨rfl, _⟩ := cut_some.mp at_magic
      obtain ⟨rfl, id_fits⟩ := cutNumber_some.mp at_id
      obtain ⟨rfl, json_fits⟩ := cutNumber_some.mp at_json
      obtain ⟨rfl, count_fits⟩ := cutNumber_some.mp at_count
      obtain ⟨rfl, len⟩ := cut_some.mp at_reserved
      exact ⟨⟨reserved, len, by simp [headerBytes, same]⟩, id_fits, json_fits, count_fits⟩
    · cases h
  · rintro ⟨⟨reserved, len, rfl⟩, id_fits, json_fits, count_fits⟩
    simp only [headerBytes, List.append_assoc]
    refine ⟨magic, _, cut_some.mpr ⟨rfl, rfl⟩, ?_⟩
    simp only [if_true, Option.bind_eq_some_iff, Prod.exists, Option.some.injEq, Prod.mk.injEq]
    exact ⟨_, _, cutNumber_some.mpr ⟨rfl, id_fits⟩, _, _, cutNumber_some.mpr ⟨rfl, json_fits⟩, _, _,
      cutNumber_some.mpr ⟨rfl, count_fits⟩, reserved, rest, cut_some.mpr ⟨rfl, len⟩, rfl, rfl, rfl, rfl⟩

theorem decode_ok {parse : Bytes → Option Json} {p : Bytes} {reqId : Nat} {msg : Json}
    {blobs : List Bytes} : decode parse p = .ok (reqId, msg, blobs) ↔
      ∃ json, Framed p reqId json blobs ∧ parse json = some msg := by
  unfold decode
  constructor
  · intro h
    cases header : matchHeader p with
    | none => simp [header] at h
    | some fields =>
      obtain ⟨id, jsonLen, count, rest⟩ := fields
      simp only [header] at h
      obtain ⟨⟨lens, rest₁⟩, lengths, h⟩ := reason_bind_ok.mp h
      cases text : cut jsonLen rest₁ with
      | none => simp [text] at h
      | some pair =>
        obtain ⟨json, rest₂⟩ := pair
        simp only [text] at h
        cases parsed : parse json with
        | none => simp [parsed] at h
        | some found =>
          simp only [parsed] at h
          obtain ⟨taken, blobs_ok, same⟩ := reason_bind_ok.mp h
          cases same
          obtain ⟨⟨reserved, two, rfl⟩, id_fits, json_fits, count_fits⟩ := matchHeader_some.mp header
          obtain ⟨read, rfl, rfl, rfl, small⟩ := takeLengths_ok.mp lengths
          obtain ⟨rfl, rfl⟩ := cut_some.mp text
          obtain ⟨_, rfl, sizes, rfl⟩ := takeBlobs_ok.mp blobs_ok
          subst sizes
          refine ⟨json, ⟨⟨reserved, two, by simp⟩, id_fits,
            json_fits, by simpa using count_fits, ?_⟩, parsed⟩
          intro b mem
          exact small _ (List.mem_map_of_mem mem)
  · rintro ⟨json, ⟨⟨reserved, two, rfl⟩, id_fits, json_fits, count_fits, sizes⟩, parsed⟩
    rw [matchHeader_some.mpr ⟨⟨reserved, two, rfl⟩, id_fits, json_fits, count_fits⟩]
    refine reason_bind_ok.mpr ⟨(blobs.map List.length, json ++ blobs.flatten), ?_, ?_⟩
    · refine takeLengths_ok.mpr ⟨blobs.map List.length, by simp, by simp, rfl, ?_⟩
      intro len mem
      obtain ⟨b, here, rfl⟩ := List.mem_map.mp mem
      exact sizes b here
    · simp only [cut_append, parsed]
      refine reason_bind_ok.mpr ⟨blobs, takeBlobs_ok.mpr ⟨blobs, by simp, rfl, rfl⟩, rfl⟩

theorem frame_bind_ok {α β : Type} {x : Except FrameError α} {f : α → Except FrameError β} {b : β} :
    (x >>= f) = .ok b ↔ ∃ a, x = .ok a ∧ f a = .ok b := by
  cases x with
  | error e => simp [bind, Except.bind]
  | ok a => simp [bind, Except.bind]

theorem require_ok {cond : Bool} {reason : Malformed} {u : Unit} :
    require cond reason = .ok u ↔ cond = true := by
  unfold require
  split <;> simp_all

theorem slice_part {p front mid back : Bytes} {start : Nat} (whole : p = front ++ (mid ++ back))
    (at_start : front.length = start) : slice p start (start + mid.length) = mid := by
  subst whole at_start
  simp [slice]

theorem unpackFrom_part {p front back : Bytes} {w n start : Nat} (fits : n < 256 ^ w)
    (whole : p = front ++ (toBytes w n ++ back)) (at_start : front.length = start) :
    unpackFrom w p start = .ok n := by
  have here := slice_part whole at_start
  rw [toBytes_length] at here
  unfold unpackFrom
  rw [here, value_toBytes_of_lt fits, whole]
  simp only [List.length_append, toBytes_length, at_start]
  split
  · rfl
  · omega

theorem readLengths_part {p front back : Bytes} {lens : List Nat} {start : Nat}
    (small : ∀ len ∈ lens, len < 256 ^ 8) (whole : p = front ++ (lengthTable lens ++ back))
    (at_start : front.length = start) :
    readLengths p lens.length start = .ok (lens, start + lens.length * 8) := by
  induction lens generalizing front start with
  | nil => rfl
  | cons len lens ih =>
    obtain ⟨fits, small⟩ := List.forall_mem_cons.mp small
    rw [lengthTable_cons, List.append_assoc] at whole
    have here := unpackFrom_part fits whole at_start
    rw [← List.append_assoc] at whole
    have at_next : (front ++ toBytes 8 len).length = start + 8 := by simp [at_start]
    have later := ih small whole at_next
    have total : start + 8 + lens.length * 8 = start + (lens.length + 1) * 8 := by omega
    rw [total] at later
    exact frame_bind_ok.mpr ⟨len, here, frame_bind_ok.mpr ⟨_, later, rfl⟩⟩

theorem readBlobs_part {p front : Bytes} {lens : List Nat} {blobs : List Bytes} {start stop : Nat}
    (at_start : front.length = start) :
    (∃ back, p = front ++ (blobs.flatten ++ back) ∧ lens = blobs.map List.length ∧
      stop = start + blobs.flatten.length) ↔
      (∃ back, p = front ++ back) ∧ readBlobs p lens start = .ok (blobs, stop) := by
  induction lens generalizing front start blobs with
  | nil =>
    simp only [readBlobs, Except.ok.injEq, Prod.mk.injEq]
    constructor
    · rintro ⟨back, whole, none_left, rfl⟩
      cases List.map_eq_nil_iff.mp none_left.symm
      exact ⟨⟨back, whole⟩, rfl, rfl⟩
    · rintro ⟨⟨back, whole⟩, rfl, rfl⟩
      exact ⟨back, whole, rfl, rfl⟩
  | cons len lens ih =>
    constructor
    · rintro ⟨back, whole, sizes, rfl⟩
      cases blobs with
      | nil => simp at sizes
      | cons blob blobs =>
        simp only [List.map_cons, List.cons.injEq] at sizes
        obtain ⟨rfl, sizes⟩ := sizes
        rw [List.flatten_cons, List.append_assoc] at whole
        have here := slice_part whole at_start
        rw [← List.append_assoc] at whole
        have at_next : (front ++ blob).length = start + blob.length := by simp [at_start]
        obtain ⟨_, later⟩ := (ih at_next).mp ⟨back, whole, sizes, by simp [Nat.add_assoc]⟩
        refine ⟨⟨_, whole.trans (List.append_assoc ..)⟩, ?_⟩
        simp only [readBlobs, here, ne_eq, not_true_eq_false, if_false]
        exact frame_bind_ok.mpr ⟨_, later, rfl⟩
    · rintro ⟨⟨back, whole⟩, h⟩
      simp only [readBlobs, ne_eq] at h
      split at h
      · cases h
      · rename_i enough
        obtain ⟨⟨more, next⟩, later, same⟩ := frame_bind_ok.mp h
        cases same
        have enough := Decidable.not_not.mp enough
        have there : back = slice p start (start + len) ++ back.drop len := by
          subst whole at_start
          simp [slice]
        have split_here : p = (front ++ slice p start (start + len)) ++ back.drop len := by
          rw [List.append_assoc, ← there]
          exact whole
        have at_next : (front ++ slice p start (start + len)).length = start + len := by
          simp [at_start, enough]
        obtain ⟨back, whole, rfl, rfl⟩ := (ih at_next).mpr ⟨⟨_, split_here⟩, later⟩
        refine ⟨back, ?_, by simp [enough], ?_⟩
        · rw [List.append_assoc] at whole
          simpa using whole
        · simp only [List.flatten_cons, List.length_append, enough, Nat.add_assoc]

theorem header_split {p : Bytes} (enough : headerSize ≤ p.length) :
    ∃ (found : Bytes) (reqId jsonLen count : Nat) (reserved rest : Bytes), found.length = 4 ∧
      reserved.length = 2 ∧ reqId < 256 ^ 8 ∧ jsonLen < 256 ^ 4 ∧ count < 256 ^ 2 ∧
      p = headerBytes found reqId jsonLen count reserved ++ rest := by
  have front : ∀ (n : Nat) (bs : Bytes), n ≤ bs.length →
      ∃ x y : Bytes, bs = x ++ y ∧ x.length = n ∧ y.length = bs.length - n := by
    intro n bs enough
    refine ⟨bs.take n, bs.drop n, (List.take_append_drop n bs).symm, ?_, by simp⟩
    rw [List.length_take]
    omega
  have number : ∀ (w : Nat) (bs : Bytes), w ≤ bs.length →
      ∃ (n : Nat) (y : Bytes), bs = toBytes w n ++ y ∧ n < 256 ^ w ∧ y.length = bs.length - w := by
    intro w bs enough
    obtain ⟨x, y, whole, len, rest⟩ := front w bs enough
    subst len
    exact ⟨value x, y, by rw [toBytes_value]; exact whole, value_lt x, rest⟩
  unfold headerSize at enough
  obtain ⟨found, p₁, rfl, found_len, len₁⟩ := front 4 p (by omega)
  obtain ⟨reqId, p₂, rfl, id_fits, len₂⟩ := number 8 p₁ (by omega)
  obtain ⟨jsonLen, p₃, rfl, json_fits, len₃⟩ := number 4 p₂ (by omega)
  obtain ⟨count, p₄, rfl, count_fits, len₄⟩ := number 2 p₃ (by omega)
  obtain ⟨reserved, rest, rfl, reserved_len, _⟩ := front 2 p₄ (by omega)
  exact ⟨found, reqId, jsonLen, count, reserved, rest, found_len, reserved_len, id_fits, json_fits,
    count_fits, by simp [headerBytes]⟩

theorem lengths_split {n : Nat} {rest : Bytes} (enough : n * 8 ≤ rest.length) :
    ∃ (lens : List Nat) (back : Bytes), rest = lengthTable lens ++ back ∧ lens.length = n ∧
      ∀ len ∈ lens, len < 256 ^ 8 := by
  induction n generalizing rest with
  | zero => exact ⟨[], rest, by simp⟩
  | succ n ih =>
    have len₁ : (rest.take 8).length = 8 := by
      rw [List.length_take]
      omega
    have enough' : n * 8 ≤ (rest.drop 8).length := by
      rw [List.length_drop]
      omega
    obtain ⟨lens, back, whole, count, small⟩ := ih enough'
    have first : toBytes 8 (value (rest.take 8)) = rest.take 8 := by
      have here := toBytes_value (rest.take 8)
      rwa [len₁] at here
    refine ⟨value (rest.take 8) :: lens, back, ?_, by simp [count], ?_⟩
    · rw [lengthTable_cons, first, List.append_assoc, ← whole, List.take_append_drop]
    · have fits := value_lt (rest.take 8)
      rw [len₁] at fits
      exact List.forall_mem_cons.mpr ⟨fits, small⟩

theorem decodeBody_ok {loads : Bytes → Option Json} {p front rest : Bytes}
    {id reqId jsonLen count : Nat}
    {msg : Json} {blobs : List Bytes} (at_front : front.length = headerSize)
    (whole : p = front ++ rest) :
    decodeBody loads p id jsonLen count = .ok (reqId, msg, blobs) ↔ ∃ json,
      rest = lengthTable (blobs.map List.length) ++ (json ++ blobs.flatten) ∧ reqId = id ∧
        jsonLen = json.length ∧ count = blobs.length ∧ (∀ b ∈ blobs, b.length < 256 ^ 8) ∧
        loads json = some msg ∧ msg.isObj = true := by
  constructor
  · intro h
    obtain ⟨_, table, h⟩ := frame_bind_ok.mp h
    have table := require_ok.mp table
    simp only [decide_eq_true_eq, whole, List.length_append, at_front] at table
    obtain ⟨lens, rest', rfl, rfl, small⟩ := lengths_split (Nat.le_of_add_le_add_left table)
    obtain ⟨_, lengths, h⟩ := frame_bind_ok.mp h
    cases (readLengths_part small whole at_front).symm.trans lengths
    obtain ⟨_, text_ok, h⟩ := frame_bind_ok.mp h
    have text := require_ok.mp text_ok
    simp only [decide_eq_true_eq] at text
    clear text_ok
    rw [← List.append_assoc] at whole
    have at_text : (front ++ lengthTable lens).length = headerSize + lens.length * 8 := by
      rw [List.length_append, lengthTable_length, at_front]
    generalize read : slice p (headerSize + lens.length * 8) (headerSize + lens.length * 8 + jsonLen) =
      json at h text
    have rest_split : rest' = json ++ rest'.drop jsonLen := by
      rw [← read, ← at_text, whole]
      simp [slice]
    rw [rest_split, ← List.append_assoc] at whole
    cases parsed : loads json with
    | none => simp [parsed] at h
    | some found =>
      simp only [parsed] at h
      obtain ⟨_, object, h⟩ := frame_bind_ok.mp h
      obtain ⟨⟨taken, stop⟩, blobs_ok, h⟩ := frame_bind_ok.mp h
      obtain ⟨_, trailing, same⟩ := frame_bind_ok.mp h
      cases same
      have trailing := require_ok.mp trailing
      simp only [decide_eq_true_eq] at trailing
      have at_blobs : ((front ++ lengthTable lens) ++ json).length =
          headerSize + lens.length * 8 + jsonLen := by
        rw [List.length_append, at_text, text]
      obtain ⟨back, whole', rfl, at_stop⟩ := (readBlobs_part at_blobs).mpr ⟨⟨_, whole⟩, blobs_ok⟩
      have nothing : back = [] := by
        have len := congrArg List.length whole'
        rw [List.length_append, at_blobs, List.length_append] at len
        apply List.length_eq_zero_iff.mp
        omega
      have tail : rest' = json ++ taken.flatten := by
        have same := List.append_cancel_left (whole.symm.trans whole')
        rw [rest_split, same, nothing, List.append_nil]
      refine ⟨json, by rw [tail], rfl, text.symm, by rw [List.length_map], ?_, parsed,
        require_ok.mp object⟩
      intro b mem
      exact small _ (List.mem_map_of_mem mem)
  · rintro ⟨json, rfl, rfl, rfl, rfl, sizes, parsed, object⟩
    have small : ∀ len ∈ blobs.map List.length, len < 256 ^ 8 := by
      intro len mem
      obtain ⟨b, here, rfl⟩ := List.mem_map.mp mem
      exact sizes b here
    have lengths := readLengths_part small whole at_front
    rw [List.length_map] at lengths
    have at_text : (front ++ lengthTable (blobs.map List.length)).length =
        headerSize + blobs.length * 8 := by
      rw [List.length_append, lengthTable_length, at_front, List.length_map]
    rw [← List.append_assoc] at whole
    have text := slice_part whole at_text
    rw [← List.append_assoc] at whole
    have at_blobs : ((front ++ lengthTable (blobs.map List.length)) ++ json).length =
        headerSize + blobs.length * 8 + json.length := by
      rw [List.length_append, at_text]
    have total : p.length = headerSize + blobs.length * 8 + json.length + blobs.flatten.length := by
      rw [whole, List.length_append, at_blobs]
    obtain ⟨_, blobs_ok⟩ := (readBlobs_part at_blobs).mp ⟨[], by simpa using whole, rfl, total⟩
    unfold decodeBody
    refine frame_bind_ok.mpr ⟨(), require_ok.mpr (by simp only [decide_eq_true_eq]; omega), ?_⟩
    refine frame_bind_ok.mpr ⟨_, lengths, ?_⟩
    refine frame_bind_ok.mpr ⟨(), require_ok.mpr (by simp only [text, decide_true]), ?_⟩
    simp only [text, parsed]
    refine frame_bind_ok.mpr ⟨(), require_ok.mpr object, ?_⟩
    refine frame_bind_ok.mpr ⟨_, blobs_ok, ?_⟩
    exact frame_bind_ok.mpr ⟨(), require_ok.mpr (by simp), rfl⟩

theorem decodeFrame_header {loads : Bytes → Option Json} {p found reserved rest : Bytes}
    {reqId jsonLen count : Nat} (four : found.length = 4) (two : reserved.length = 2)
    (id_fits : reqId < 256 ^ 8) (json_fits : jsonLen < 256 ^ 4) (count_fits : count < 256 ^ 2)
    (whole : p = headerBytes found reqId jsonLen count reserved ++ rest) :
    decodeFrame loads p = if found = magic then decodeBody loads p reqId jsonLen count
      else .error (.protocolError .badMagic) := by
  have long : headerSize ≤ p.length := by
    rw [whole, List.length_append, headerBytes_length four two]
    omega
  simp only [headerBytes, List.append_assoc] at whole
  have at_start : p = [] ++ (found ++ (toBytes 8 reqId ++ (toBytes 4 jsonLen ++ (toBytes 2 count ++
    (reserved ++ rest))))) := whole
  have at_magic := slice_part at_start rfl
  have at_id := unpackFrom_part id_fits whole four
  rw [← List.append_assoc] at whole
  have at_12 : (found ++ toBytes 8 reqId).length = 12 := by simp [four]
  have at_json := unpackFrom_part json_fits whole at_12
  rw [← List.append_assoc] at whole
  have at_16 : ((found ++ toBytes 8 reqId) ++ toBytes 4 jsonLen).length = 16 := by simp [four]
  have at_count := unpackFrom_part count_fits whole at_16
  simp only [List.length_nil, Nat.zero_add, four] at at_magic
  have long_ok : require (decide (headerSize ≤ p.length)) .shortHeader = .ok () :=
    require_ok.mpr (by simpa using long)
  simp only [decodeFrame, long_ok, at_id, at_json, at_count, at_magic, bind, Except.bind]
  by_cases same : found = magic
  · simp [same, require]
  · simp [same, require]

theorem decodeFrame_ok {loads : Bytes → Option Json} {p : Bytes} {reqId : Nat} {msg : Json}
    {blobs : List Bytes} : decodeFrame loads p = .ok (reqId, msg, blobs) ↔
      ∃ json, Framed p reqId json blobs ∧ loads json = some msg ∧ msg.isObj = true := by
  constructor
  · intro h
    obtain ⟨_, long, _⟩ := frame_bind_ok.mp h
    have long : headerSize ≤ p.length := by simpa using require_ok.mp long
    obtain ⟨found, id, jsonLen, count, reserved, rest, four, two, id_fits, json_fits, count_fits,
      whole⟩ := header_split long
    rw [decodeFrame_header four two id_fits json_fits count_fits whole] at h
    split at h
    case isFalse => cases h
    case isTrue same =>
    subst same
    obtain ⟨json, rfl, rfl, rfl, rfl, sizes, parsed, object⟩ :=
      (decodeBody_ok (headerBytes_length four two ..) whole).mp h
    exact ⟨json, ⟨⟨reserved, two, whole⟩, id_fits, json_fits, count_fits, sizes⟩, parsed, object⟩
  · rintro ⟨json, ⟨⟨reserved, two, whole⟩, id_fits, json_fits, count_fits, sizes⟩, parsed, object⟩
    rw [decodeFrame_header rfl two id_fits json_fits count_fits whole, if_pos rfl]
    exact (decodeBody_ok (headerBytes_length rfl two ..) whole).mpr
      ⟨json, rfl, rfl, rfl, rfl, sizes, parsed, object⟩

end NxTinygrad.Protocol
