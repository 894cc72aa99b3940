import NxTinygrad.Protocol

/- What one side writes and the other reads, and which strings are frames at all. -/
namespace NxTinygrad.Framing
open BigEndian Protocol

/-- Every number the encoder writes fits its field. -/
structure Fits (json : Bytes) (blobs : List Bytes) : Prop where
  json : json.length < 256 ^ 4
  count : blobs.length < 256 ^ 2
  sizes : ∀ b ∈ blobs, b.length < 256 ^ 8

theorem encode_layout (jsonText : Json → Bytes) (reqId : Nat) (msg : Json) (blobs : List Bytes) :
    encode jsonText reqId msg blobs = headerBytes magic reqId (jsonText msg).length blobs.length
      (toBytes 2 0) ++ (lengthTable (blobs.map List.length) ++ (jsonText msg ++ blobs.flatten)) := by
  simp [encode, headerBytes, lengthTable, List.flatMap_map]

theorem framed_length {p json : Bytes} {reqId : Nat} {blobs : List Bytes}
    (framed : Framed p reqId json blobs) :
    p.length = headerSize + blobs.length * 8 + json.length + blobs.flatten.length := by
  obtain ⟨reserved, two, rfl⟩ := framed.layout
  rw [List.length_append, headerBytes_length rfl two]
  simp only [List.length_append, lengthTable_length, List.length_map]
  omega

theorem framed_unique {p json json' : Bytes} {reqId reqId' : Nat} {blobs blobs' : List Bytes}
    (framed : Framed p reqId json blobs) (framed' : Framed p reqId' json' blobs') :
    reqId = reqId' ∧ json = json' ∧ blobs = blobs' := by
  have read : decode (fun _ => some .null) p = .ok (reqId, .null, blobs) :=
    decode_ok.mpr ⟨json, framed, rfl⟩
  have read' : decode (fun _ => some .null) p = .ok (reqId', .null, blobs') :=
    decode_ok.mpr ⟨json', framed', rfl⟩
  cases read.symm.trans read'
  have len := framed_length framed
  rw [framed_length framed'] at len
  obtain ⟨reserved, two, layout⟩ := framed.layout
  obtain ⟨reserved', two', layout'⟩ := framed'.layout
  have heads := headerBytes_length (rfl : magic.length = 4) two reqId json.length blobs.length
  have heads' := headerBytes_length (rfl : magic.length = 4) two' reqId json'.length blobs.length
  obtain ⟨_, body⟩ := List.append_inj (layout.symm.trans layout') (heads.trans heads'.symm)
  obtain ⟨_, tail⟩ := List.append_inj body rfl
  obtain ⟨same, _⟩ := List.append_inj tail (by omega)
  exact ⟨rfl, same, rfl⟩

theorem encode_length (jsonText : Json → Bytes) (reqId : Nat) (msg : Json) (blobs : List Bytes) :
    (encode jsonText reqId msg blobs).length =
      headerSize + blobs.length * 8 + (jsonText msg).length + blobs.flatten.length := by
  have two : (toBytes 2 0).length = 2 := toBytes_length 2 0
  rw [encode_layout, List.length_append, headerBytes_length rfl two]
  simp only [List.length_append, lengthTable_length, List.length_map]
  omega

theorem fits_of_framed {jsonText : Json → Bytes} {reqId id : Nat} {msg : Json} {blobs : List Bytes}
    {json : Bytes} (framed : Framed (encode jsonText reqId msg blobs) id json blobs) :
    Fits (jsonText msg) blobs := by
  have total := framed_length framed
  rw [encode_length] at total
  have small := framed.json
  exact ⟨by omega, framed.count, framed.sizes⟩

theorem framed_of_fits {jsonText : Json → Bytes} {reqId : Nat} {msg : Json} {blobs : List Bytes}
    (id_fits : reqId < 256 ^ 8) (fits : Fits (jsonText msg) blobs) :
    Framed (encode jsonText reqId msg blobs) reqId (jsonText msg) blobs where
  layout := ⟨toBytes 2 0, toBytes_length 2 0, encode_layout ..⟩
  reqId := id_fits
  json := fits.json
  count := fits.count
  sizes := fits.sizes

theorem pack_ok {w n : Nat} {bs : Bytes} : pack w n = .ok bs ↔ n < 256 ^ w ∧ bs = toBytes w n := by
  unfold pack
  split
  · rename_i fits
    simp [fits, eq_comm]
  · rename_i large
    simp [large]

theorem packLengths_ok {blobs : List Bytes} {bs : Bytes} (h : packLengths blobs = .ok bs) :
    (∀ b ∈ blobs, b.length < 256 ^ 8) ∧ bs = lengthTable (blobs.map List.length) := by
  induction blobs generalizing bs with
  | nil =>
    cases h
    simp
  | cons b rest ih =>
    obtain ⟨here, packed, h⟩ := frame_bind_ok.mp h
    obtain ⟨more, tail, same⟩ := frame_bind_ok.mp h
    cases same
    obtain ⟨fits, rfl⟩ := pack_ok.mp packed
    obtain ⟨small, rfl⟩ := ih tail
    exact ⟨List.forall_mem_cons.mpr ⟨fits, small⟩, rfl⟩

theorem encodeFrame_framed {dumps : Json → Bytes} {reqId : Nat} {msg : Json} {blobs : List Bytes}
    {p : Bytes} (h : encodeFrame dumps reqId msg blobs = .ok p) : Framed p reqId (dumps msg) blobs := by
  obtain ⟨idField, at_id, h⟩ := frame_bind_ok.mp h
  obtain ⟨jsonField, at_json, h⟩ := frame_bind_ok.mp h
  obtain ⟨countField, at_count, h⟩ := frame_bind_ok.mp h
  obtain ⟨lengths, at_lengths, same⟩ := frame_bind_ok.mp h
  cases same
  obtain ⟨id_fits, rfl⟩ := pack_ok.mp at_id
  obtain ⟨json_fits, rfl⟩ := pack_ok.mp at_json
  obtain ⟨count_fits, rfl⟩ := pack_ok.mp at_count
  obtain ⟨sizes, rfl⟩ := packLengths_ok at_lengths
  refine ⟨⟨[0, 0], rfl, ?_⟩, id_fits, json_fits, count_fits, sizes⟩
  simp [headerBytes]

/-- Both directions give back what was sent exactly when everything fits: Elixir wraps
    around silently, Python raises. -/
theorem round_trip_iff {jsonText dumps : Json → Bytes} {parse loads : Bytes → Option Json} {reqId : Nat}
    {msg : Json} {blobs : List Bytes} (id_fits : reqId < 2 ^ 64) (object : msg.isObj = true)
    (there : loads (jsonText msg) = some msg) (back : parse (dumps msg) = some msg) :
    (decodeFrame loads (encode jsonText reqId msg blobs) = .ok (reqId, msg, blobs) ∧
      ∀ p, encodeFrame dumps reqId msg blobs = .ok p → decode parse p = .ok (reqId, msg, blobs)) ↔
      (jsonText msg).length < 2 ^ 32 ∧ blobs.length < 2 ^ 16 ∧ ∀ b ∈ blobs, b.length < 2 ^ 64 := by
  have id_fits : reqId < 256 ^ 8 := by omega
  constructor
  · intro h
    obtain ⟨json, framed, _⟩ := decodeFrame_ok.mp h.1
    obtain ⟨json_fits, count_fits, sizes⟩ := fits_of_framed framed
    exact ⟨by omega, by omega, fun b mem => by have := sizes b mem; omega⟩
  · intro h
    obtain ⟨json_fits, count_fits, sizes⟩ := h
    have fits : Fits (jsonText msg) blobs :=
      ⟨by omega, by omega, fun b mem => by have := sizes b mem; omega⟩
    constructor
    · exact decodeFrame_ok.mpr ⟨_, framed_of_fits id_fits fits, there, object⟩
    · intro p written
      exact decode_ok.mpr ⟨_, encodeFrame_framed written, back⟩

def emptyText (_ : Json) : Bytes := [0x7b, 0x7d]

def readEmpty (text : Bytes) : Option Json := if text = [0x7b, 0x7d] then some (.obj []) else none

/-- 65536 blobs are counted as none. -/
theorem many_blobs_lost :
    ¬ (decodeFrame readEmpty (encode emptyText 7 (.obj []) (List.replicate 65536 [])) =
    .ok (7, .obj [], List.replicate 65536 [])) := by
  intro h
  obtain ⟨_, framed, _⟩ := decodeFrame_ok.mp h
  have count := framed.count
  rw [List.length_replicate] at count
  omega

theorem two_blobs_kept : decodeFrame readEmpty (encode emptyText 7 (.obj []) [[1, 2], []]) =
    .ok (7, .obj [], [[1, 2], []]) :=
  ((@round_trip_iff emptyText emptyText readEmpty readEmpty 7 (.obj []) [[1, 2], []] (by decide) rfl rfl
    rfl).mpr (by decide)).1

def Reported {α : Type} (r : Except FrameError α) : Prop :=
  ∀ e, r = .error e → ∃ reason, e = .protocolError reason

theorem reported_ok {α : Type} (a : α) : Reported (.ok a : Except FrameError α) := by
  intro e h
  cases h

theorem reported_require (cond : Bool) (reason : Malformed) : Reported (require cond reason) := by
  intro e h
  unfold require at h
  split at h
  · cases h
  · cases h
    exact ⟨reason, rfl⟩

theorem reported_bind {α β : Type} {x : Except FrameError α} {f : α → Except FrameError β}
    (first : Reported x)
    (next : ∀ a, x = .ok a → Reported (f a)) : Reported (x >>= f) := by
  cases x with
  | error e =>
    intro e' h
    cases h
    exact first e rfl
  | ok a => exact next a rfl

theorem reported_readBlobs {p : Bytes} {lens : List Nat} {start : Nat} :
    Reported (readBlobs p lens start) := by
  induction lens generalizing start with
  | nil => exact reported_ok _
  | cons len lens ih =>
    simp only [readBlobs]
    split
    · intro e h
      cases h
      exact ⟨_, rfl⟩
    · exact reported_bind ih fun _ _ => reported_ok _

theorem reported_decodeBody {loads : Bytes → Option Json} {p front rest : Bytes}
    {id jsonLen count : Nat}
    (at_front : front.length = headerSize) (whole : p = front ++ rest) :
    Reported (decodeBody loads p id jsonLen count) := by
  refine reported_bind (reported_require _ _) fun _ table => ?_
  have table := require_ok.mp table
  simp only [decide_eq_true_eq, whole, List.length_append, at_front] at table
  obtain ⟨lens, rest', rfl, rfl, small⟩ := lengths_split (Nat.le_of_add_le_add_left table)
  rw [readLengths_part small whole at_front]
  refine reported_bind (reported_ok _) fun r read => ?_
  cases read
  refine reported_bind (reported_require _ _) fun _ _ => ?_
  dsimp only
  split
  · intro e h
    cases h
    exact ⟨_, rfl⟩
  · refine reported_bind (reported_require _ _) fun _ _ => ?_
    refine reported_bind reported_readBlobs fun _ _ => ?_
    exact reported_bind (reported_require _ _) fun _ _ => reported_ok _

theorem reported_decodeFrame (loads : Bytes → Option Json) (p : Bytes) :
    Reported (decodeFrame loads p) := by
  by_cases long : headerSize ≤ p.length
  · obtain ⟨found, id, jsonLen, count, reserved, rest, four, two, id_fits, json_fits, count_fits,
      whole⟩ := header_split long
    rw [decodeFrame_header four two id_fits json_fits count_fits whole]
    split
    · exact reported_decodeBody (headerBytes_length four two ..) whole
    · intro e h
      cases h
      exact ⟨_, rfl⟩
  · unfold decodeFrame
    refine reported_bind (reported_require _ _) fun _ ok => ?_
    exact absurd (by simpa using require_ok.mp ok) long

/-- `p` is a frame whose metadata is the object `msg`. -/
def IsFrame (parse : Bytes → Option Json) (p : Bytes) (reqId : Nat) (msg : Json) (blobs : List Bytes) :
    Prop :=
  ∃ json, Framed p reqId json blobs ∧ parse json = some msg ∧ msg.isObj = true

/-- `p` is a frame whose metadata is JSON but no object. -/
def BareMetadata (parse : Bytes → Option Json) (p : Bytes) : Prop :=
  ∃ reqId json msg blobs, Framed p reqId json blobs ∧ parse json = some msg ∧ msg.isObj = false

/-- Both decoders accept just the frames, with equal results and no other failure than a
    reported one, on every string but those whose metadata is not an object. -/
theorem decoders_agree_iff (parse : Bytes → Option Json) (p : Bytes) :
    ((∀ reqId msg blobs, decode parse p = .ok (reqId, msg, blobs) ↔ IsFrame parse p reqId msg blobs) ∧
      (∀ reqId msg blobs, decodeFrame parse p = .ok (reqId, msg, blobs) ↔
      IsFrame parse p reqId msg blobs) ∧
      Reported (decodeFrame parse p)) ↔ ¬ BareMetadata parse p := by
  constructor
  · intro h bare
    obtain ⟨reqId, json, msg, blobs, framed, parsed, bare⟩ := bare
    obtain ⟨_, _, _, object⟩ := (h.1 reqId msg blobs).mp (decode_ok.mpr ⟨json, framed, parsed⟩)
    rw [bare] at object
    cases object
  · intro none_bare
    refine ⟨fun reqId msg blobs => ?_, fun reqId msg blobs => decodeFrame_ok,
      reported_decodeFrame parse p⟩
    rw [decode_ok]
    constructor
    · rintro ⟨json, framed, parsed⟩
      refine ⟨json, framed, parsed, ?_⟩
      cases object : msg.isObj with
      | true => rfl
      | false => exact absurd ⟨reqId, json, msg, blobs, framed, parsed, object⟩ none_bare
    · rintro ⟨json, framed, parsed, _⟩
      exact ⟨json, framed, parsed⟩

def readOne (text : Bytes) : Option Json := if text = [0x31] then some (.int 1) else none

/-- Elixir takes a number for metadata, Python takes nothing but an object. -/
theorem number_as_metadata :
    decode readOne (encode (fun _ => [0x31]) 5 (.int 1) []) = .ok (5, .int 1, []) ∧
      ∀ r, decodeFrame readOne (encode (fun _ => [0x31]) 5 (.int 1) []) ≠ .ok r := by
  constructor
  · exact decode_ok.mpr ⟨[0x31], framed_of_fits (by decide) ⟨by decide, by decide, by decide⟩, rfl⟩
  · rintro ⟨reqId, msg, blobs⟩ h
    obtain ⟨json, _, parsed, object⟩ := decodeFrame_ok.mp h
    unfold readOne at parsed
    split at parsed
    · cases parsed
      cases object
    · cases parsed

end NxTinygrad.Framing
