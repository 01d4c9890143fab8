/-
Lando/DerpFrame.lean

DERP framing (`derp/frame.rs`): `type u8 | length u32 be | payload`.

The reader is the incremental reader of `Framing` at the DERP format: headers
of five bytes, control frames cut at 512 bytes, a limit on the declared
length that is checked as soon as the header is complete, and every frame
without payload handed back as a control frame, whatever its type.  All other
frames of a packet-carrying or unknown type are streamed.

    kind :: toBE 4 |payload| ++ payload        on the wire,
    Control kind (payload.take 512)            or
    Body kind |payload| chunk end  …           from the reader.
-/
import Lando.Bytes
import Lando.Framing

namespace Lando.Derp

open Framing

/-! ### The format -/

/-- `HEADER_LEN`. -/
def headerLen : ℕ := 5

/-- Largest frame that is processed. -/
def maxFrameLen : ℕ := 64 * 1024

/-- Frames captured whole are bounded by this. -/
def controlFrameMax : ℕ := 512

/-- Length of a public key inside DERP frames. -/
def keyLen : ℕ := 32

/-- `derp::MAGIC`. -/
def magic : List UInt8 := "DERP🔑".toUTF8.toList

/-- `FrameType`. -/
inductive FrameType
  | serverKey
  | clientInfo
  | serverInfo
  | sendPacket
  | recvPacket
  | keepAlive
  | notePreferred
  | peerGone
  | peerPresent
  | forwardPacket
  | watchConns
  | closePeer
  | ping
  | pong
  | health
  | restarting
  /-- Anything not modelled by the protocol; consumed and ignored. -/
  | unknown
  deriving DecidableEq, Repr

namespace FrameType

/-- `FrameType::from_u8`; other numbers are `unknown`. -/
def fromU8 (v : UInt8) : FrameType :=
  match v with
  | 0x01 => serverKey
  | 0x02 => clientInfo
  | 0x03 => serverInfo
  | 0x04 => sendPacket
  | 0x05 => recvPacket
  | 0x06 => keepAlive
  | 0x07 => notePreferred
  | 0x08 => peerGone
  | 0x09 => peerPresent
  | 0x0a => forwardPacket
  | 0x10 => watchConns
  | 0x11 => closePeer
  | 0x12 => ping
  | 0x13 => pong
  | 0x14 => health
  | 0x15 => restarting
  | _ => unknown

/-- The discriminant, `kind as u8`. -/
def toU8 : FrameType → UInt8
  | serverKey => 0x01
  | clientInfo => 0x02
  | serverInfo => 0x03
  | sendPacket => 0x04
  | recvPacket => 0x05
  | keepAlive => 0x06
  | notePreferred => 0x07
  | peerGone => 0x08
  | peerPresent => 0x09
  | forwardPacket => 0x0a
  | watchConns => 0x10
  | closePeer => 0x11
  | ping => 0x12
  | pong => 0x13
  | health => 0x14
  | restarting => 0x15
  | unknown => 0xff

/-- True for frames small enough to hand back in one piece. -/
def isControl : FrameType → Bool
  | sendPacket | recvPacket | forwardPacket | unknown => false
  | _ => true

theorem fromU8_toU8 (kind : FrameType) : fromU8 kind.toU8 = kind := by
  cases kind <;> rfl

end FrameType

/-- `DerpError`. -/
inductive DerpError
  | frameTooLarge
  | badServerKey
  | crypto
  | shortBuffer
  deriving DecidableEq, Repr

/-- A complete header: the reader's `kind` and `total`. -/
structure Header where
  kind : FrameType
  total : ℕ
  deriving DecidableEq, Repr

/-- The header in five bytes. -/
def parseHeader (header : List UInt8) : Header where
  kind := .fromU8 (header.headD 0)
  total := Bytes.fromBE (header.drop 1)

/-- The DERP frame format. -/
def format : Format UInt8 Header DerpError where
  headerLen := headerLen
  headerLen_pos := by decide
  decode := parseHeader
  length h := h.total
  -- refused before anything is reserved: the length is attacker-controlled
  refuse h := if h.total > maxFrameLen then some .frameTooLarge else none
  control h := h.kind.isControl
  controlMax := controlFrameMax
  controlMax_pos := by decide
  emptyControl _ := true

/-! ### The reader -/

/-- A frame the reader produced. -/
inductive Frame
  /-- A small frame, captured whole. -/
  | control (kind : FrameType) (payload : List UInt8)
  /-- Part of a streamed payload. -/
  | body (kind : FrameType) (totalLen : ℕ) (chunk : List UInt8) (last : Bool)
  deriving DecidableEq, Repr

/-- What `next` returns for an item of the reader. -/
def Frame.ofItem : Item UInt8 Header → Frame
  | .control h payload => .control h.kind payload
  | .body h chunk last => .body h.kind h.total chunk last

/-- `FrameReader`: the header bytes received so far, the `kind` and `total`
of the frame, what remains of it and the captured control payload. -/
abbrev FrameReader := Reader UInt8 Header

/-- `FrameReader::new`, between two frames. -/
def FrameReader.new : FrameReader := .start ⟨.unknown, 0⟩

/-- Consumes bytes, returning how many were used and at most one frame. -/
def FrameReader.feed (r : FrameReader) (input : List UInt8) :
    FrameReader × Except DerpError (ℕ × Option Frame) :=
  let (r, res) := format.feed r input
  (r, res.map fun out => (out.1, out.2.map Frame.ofItem))

/-- Extracts the server's public key from a `ServerKey` payload. -/
def parseServerKey (payload : List UInt8) : Except DerpError (Vector UInt8 32) :=
  if payload.length < magic.length + keyLen ∨ ¬ magic.isPrefixOf payload then
    .error .badServerKey
  else .ok (Bytes.read 32 payload magic.length)

/-- Writes a frame header into `out`, returning the buffer and the bytes
written. -/
def writeHeader (out : List UInt8) (kind : FrameType) (len : UInt32) :
    Except DerpError (List UInt8 × ℕ) :=
  if out.length < headerLen then .error .shortBuffer
  else .ok (Bytes.blit (Bytes.blit out 0 [kind.toU8]) 1 (Bytes.toBE 4 len.toNat), headerLen)

/-! ### Frames on the wire -/

/-- A frame as a peer sends it: any type byte, and a payload within the
limit. -/
structure RawFrame where
  kind : UInt8
  payload : List UInt8
  fits : payload.length ≤ maxFrameLen

namespace RawFrame

/-- The five bytes in front of the payload. -/
def head (f : RawFrame) : List UInt8 := f.kind :: Bytes.toBE 4 f.payload.length

/-- The frame as it is sent. -/
def wire (f : RawFrame) : List UInt8 := f.head ++ f.payload

/-- What `next` says of the frame's type. -/
def type (f : RawFrame) : FrameType := .fromU8 f.kind

/-- Frames handed back in one piece. -/
def whole (f : RawFrame) : Bool := f.type.isControl || f.payload.isEmpty

/-- What the reader hands back for one frame: one control frame, or chunks
that make up the payload, the last one marked. -/
def Delivered (f : RawFrame) (frames : List Frame) : Prop :=
  if f.whole then frames = [.control f.type (f.payload.take controlFrameMax)]
  else ∃ (chunks : List (List UInt8)) (final : List UInt8),
    frames = chunks.map (.body f.type f.payload.length · false) ++
        [.body f.type f.payload.length final true] ∧
      chunks.flatten ++ final = f.payload ∧ ∀ c ∈ chunks ++ [final], c ≠ []

/-- The frame with its payload in one piece. -/
def assembled (f : RawFrame) : Frame :=
  if f.whole then .control f.type (f.payload.take controlFrameMax)
  else .body f.type f.payload.length f.payload true

end RawFrame

/-- The byte stream of a list of frames. -/
def wires (frames : List RawFrame) : List UInt8 := (frames.map RawFrame.wire).flatten

/-- What the reader hands back for a list of frames. -/
def Delivered : List RawFrame → List Frame → Prop
  | [], out => out = []
  | f :: frames, out =>
      ∃ first rest, out = first ++ rest ∧ f.Delivered first ∧ Delivered frames rest

/-- Joins the chunks of each payload, `acc` being what came before. -/
def join (acc : List UInt8) : List Frame → List Frame
  | [] => []
  | .control kind payload :: out => .control kind payload :: join acc out
  | .body _ _ chunk false :: out => join (acc ++ chunk) out
  | .body kind totalLen chunk true :: out =>
      .body kind totalLen (acc ++ chunk) true :: join [] out

theorem wires_cons (f : RawFrame) (frames : List RawFrame) :
    wires (f :: frames) = f.wire ++ wires frames := rfl

theorem wires_append (fs gs : List RawFrame) : wires (fs ++ gs) = wires fs ++ wires gs := by
  rw [wires, List.map_append, List.flatten_append, ← wires, ← wires]

theorem RawFrame.length_head (f : RawFrame) : f.head.length = headerLen := by
  rw [RawFrame.head, List.length_cons, Bytes.length_toBE, headerLen]

theorem RawFrame.parseHeader_head (f : RawFrame) :
    parseHeader f.head = ⟨f.type, f.payload.length⟩ := by
  have hlt : f.payload.length < 256 ^ 4 := Nat.lt_of_le_of_lt f.fits (by decide)
  rw [parseHeader, RawFrame.head, List.headD_cons, List.drop_one, List.tail_cons,
    Bytes.fromBE_toBE hlt, RawFrame.type]

/-- `write_header` writes the header that `RawFrame` describes. -/
theorem writeHeader_eq {out : List UInt8} (f : RawFrame) (kind : FrameType)
    (hkind : f.kind = kind.toU8) (hout : headerLen ≤ out.length) :
    (writeHeader out kind (.ofNat f.payload.length)).map (fun res => res.1.take res.2) =
      .ok f.head := by
  have hlt : f.payload.length < UInt32.size := Nat.lt_of_le_of_lt f.fits (by decide)
  have hhead : f.head = [kind.toU8] ++ Bytes.toBE 4 f.payload.length := by
    rw [RawFrame.head, hkind]
    rfl
  have hbuf : ∃ rest, Bytes.blit (Bytes.blit out 0 [kind.toU8]) 1
      (Bytes.toBE 4 f.payload.length) = f.head ++ rest := by
    rw [hhead]
    exact ⟨_, rfl⟩
  obtain ⟨rest, hbuf⟩ := hbuf
  rw [writeHeader, if_neg (Nat.not_lt.mpr hout), UInt32.toNat_ofNat_of_lt' hlt, hbuf]
  show Except.ok ((f.head ++ rest).take headerLen) = _
  rw [← f.length_head, List.take_left]

/-- The frame, for the format. -/
def RawFrame.toWire (f : RawFrame) : Wire format where
  head := f.head
  payload := f.payload
  head_length := f.length_head
  accepted := by
    show (if (parseHeader f.head).total > maxFrameLen then some DerpError.frameTooLarge
      else none) = none
    rw [f.parseHeader_head, if_neg (Nat.not_lt.mpr f.fits)]
  payload_length := by
    show f.payload.length = (parseHeader f.head).total
    rw [f.parseHeader_head]

theorem stream_toWire (frames : List RawFrame) :
    stream (frames.map RawFrame.toWire) = wires frames := by
  rw [stream, List.map_map]
  rfl

/-- Every frame of the format is one. -/
theorem exists_toWire (f : Wire format) : ∃ raw : RawFrame, raw.toWire = f := by
  have hlen : f.head.length = 5 := f.head_length
  have htotal : f.payload.length = (parseHeader f.head).total := f.payload_length
  have haccepted : (if (parseHeader f.head).total > maxFrameLen then
      some DerpError.frameTooLarge else none) = none := f.accepted
  have hfits : f.payload.length ≤ maxFrameLen := by
    rw [htotal]
    split_ifs at haccepted with h
    exact Nat.not_lt.mp h
  obtain ⟨kind, len, hhead⟩ := List.exists_cons_of_length_eq_add_one hlen
  rw [hhead, parseHeader, List.drop_one, List.tail_cons] at htotal
  rw [hhead, List.length_cons] at hlen
  refine ⟨⟨kind, f.payload, hfits⟩, Wire.ext' ?_ rfl⟩
  show kind :: Bytes.toBE 4 f.payload.length = f.head
  rw [htotal, hhead, ← Nat.succ.inj hlen, Bytes.toBE_fromBE]

/-! ### What the reader hands back -/

theorem RawFrame.header_toWire (f : RawFrame) :
    f.toWire.header = ⟨f.type, f.payload.length⟩ := f.parseHeader_head

theorem RawFrame.whole_toWire (f : RawFrame) : format.whole f.toWire.header = f.whole := by
  rw [f.header_toWire]
  show (if f.payload.length = 0 then true else f.type.isControl) = _
  rw [RawFrame.whole]
  cases f.payload with
  | nil => rw [List.isEmpty_nil, Bool.or_true]; rfl
  | cons b bs => rw [List.isEmpty_cons, Bool.or_false]; rfl

theorem FrameReader.feed_refines : Refines FrameReader.feed format.feed id Frame.ofItem :=
  fun _ _ => ⟨rfl, rfl⟩

theorem RawFrame.delivered {f : RawFrame} {items : List (Item UInt8 Header)}
    (h : f.toWire.Rendered [] items) : f.Delivered (items.map Frame.ofItem) := by
  unfold Wire.Rendered at h
  unfold RawFrame.Delivered
  rw [f.whole_toWire, f.header_toWire] at h
  split_ifs at h ⊢ with hw
  · rw [h.2]
    rfl
  · obtain ⟨chunks, final, rfl, hpay, hchunks, hfinal⟩ := h
    refine ⟨chunks, final, ?_, hpay, ?_⟩
    · rw [List.map_append, List.map_map]
      rfl
    · intro c hc
      rcases List.mem_append.mp hc with hc | hc
      · exact hchunks c hc
      · rw [List.mem_singleton.mp hc]
        -- an empty last chunk would be that of an empty payload, handed back whole
        intro he
        have hnil : f.payload = [] := hfinal he
        rw [RawFrame.whole, hnil, List.isEmpty_nil, Bool.or_true] at hw
        exact hw rfl

theorem delivered_of_rendering {frames : List RawFrame} {items : List (Item UInt8 Header)}
    (h : Rendering [] (frames.map RawFrame.toWire) items) :
    Delivered frames (items.map Frame.ofItem) := by
  induction frames generalizing items with
  | nil =>
    rw [h.2]
    rfl
  | cons f frames ih =>
    obtain ⟨first, rest, rfl, hfirst, hrest⟩ := h
    exact ⟨_, _, List.map_append, RawFrame.delivered hfirst, ih hrest⟩

theorem join_ofItem (acc : List UInt8) (items : List (Item UInt8 Header)) :
    join acc (items.map Frame.ofItem) = (assemble acc items).map Frame.ofItem := by
  induction items generalizing acc with
  | nil => rfl
  | cons item items ih =>
    rcases item with ⟨h, payload⟩ | ⟨h, chunk, last⟩
    · exact congrArg _ (ih acc)
    · cases last with
      | false => exact ih (acc ++ chunk)
      | true => exact congrArg _ (ih [])

theorem RawFrame.joined_toWire (f : RawFrame) : Frame.ofItem f.toWire.joined = f.assembled := by
  rw [Wire.joined, RawFrame.assembled, f.whole_toWire, f.header_toWire]
  split_ifs <;> rfl

/-- A complete frame as a datapath receives it: its kind and its payload. -/
abbrev Raw := FrameType × List UInt8

/-- The frame in one piece; a control frame is cut at the limit. -/
def rawOf (f : Wire format) : Raw :=
  (f.header.kind,
    if format.whole f.header then f.payload.take controlFrameMax else f.payload)

/-- The frame as a receiver with enough room gets it. -/
def RawFrame.raw (f : RawFrame) : Raw :=
  (f.type, if f.whole then f.payload.take controlFrameMax else f.payload)

theorem rawOf_toWire (f : RawFrame) : rawOf f.toWire = f.raw := by
  rw [rawOf, RawFrame.raw, f.whole_toWire, f.header_toWire]
  rfl

/-- A header that declares too much. -/
def Oversized (header : List UInt8) : Prop :=
  header.length = headerLen ∧ maxFrameLen < (parseHeader header).total

theorem refuse_eq_some_iff {header : List UInt8} {e : DerpError} :
    format.refuse (format.decode header) = some e ↔
      e = .frameTooLarge ∧ maxFrameLen < (parseHeader header).total := by
  show (if (parseHeader header).total > maxFrameLen then some DerpError.frameTooLarge
    else none) = some e ↔ _
  split_ifs with h
  · exact ⟨fun he => ⟨(Option.some.inj he).symm, h⟩, fun he => by rw [he.1]⟩
  · exact ⟨nofun, fun he => absurd he.2 h⟩

/-- The frames of a stream, and only them. -/
theorem feedAll_wires {frames : List RawFrame} {inputs : List (List UInt8)}
    (hbytes : inputs.flatten = wires frames) :
    ∃ r out, feedAll FrameReader.feed .new inputs = (r, out, .more) ∧ Delivered frames out ∧
      join [] out = frames.map RawFrame.assembled := by
  rw [← stream_toWire] at hbytes
  obtain ⟨r, items, he, -, hr⟩ :=
    feedAll_stream (At.start format ⟨.unknown, 0⟩) _ inputs hbytes
  obtain ⟨r', -, he'⟩ := FrameReader.feed_refines.feedAll_eq he
  refine ⟨r', _, he', delivered_of_rendering hr, ?_⟩
  rw [join_ofItem, hr.assemble, List.map_map, List.map_map]
  exact List.map_congr_left fun f _ => f.joined_toWire

/-- The frames before an oversized header, and then the error. -/
theorem feedAll_oversized {frames : List RawFrame} {header rest : List UInt8}
    {inputs : List (List UInt8)} (hbytes : inputs.flatten = wires frames ++ (header ++ rest))
    (hover : Oversized header) :
    ∃ r out, feedAll FrameReader.feed .new inputs = (r, out, .failed .frameTooLarge) ∧
      Delivered frames out := by
  rw [← stream_toWire] at hbytes
  obtain ⟨r, items, he, -, hr⟩ :=
    feedAll_refused (At.start format ⟨.unknown, 0⟩) hbytes hover.1
      (refuse_eq_some_iff.mpr ⟨rfl, hover.2⟩)
  obtain ⟨r', -, he'⟩ := FrameReader.feed_refines.feedAll_eq he
  exact ⟨r', _, he', delivered_of_rendering hr⟩

/-- Calls fail only at an oversized header. -/
theorem feedAll_failed_oversized {inputs : List (List UInt8)} {e : DerpError}
    (h : (feedAll FrameReader.feed .new inputs).2.2 = .failed e) :
    e = .frameTooLarge ∧ ∃ (frames : List RawFrame) (header rest : List UInt8),
      inputs.flatten = wires frames ++ (header ++ rest) ∧ Oversized header := by
  rw [(FrameReader.feed_refines.feedAll .new inputs).2.2] at h
  obtain ⟨fs, header, rest, hbytes, hlen, herr⟩ :=
    feedAll_failed (At.start format ⟨.unknown, 0⟩) h
  obtain ⟨rfl, hlarge⟩ := refuse_eq_some_iff.mp herr
  have hraw : ∃ frames : List RawFrame, frames.map RawFrame.toWire = fs := by
    clear hbytes
    induction fs with
    | nil => exact ⟨[], rfl⟩
    | cons f fs ih =>
      obtain ⟨raw, rfl⟩ := exists_toWire f
      obtain ⟨frames, rfl⟩ := ih
      exact ⟨raw :: frames, rfl⟩
  obtain ⟨frames, rfl⟩ := hraw
  rw [stream_toWire] at hbytes
  exact ⟨rfl, frames, header, rest, hbytes, hlen, hlarge⟩

/-- Every reader that calls lead to stands behind the bytes of an unfinished
frame. -/
theorem FrameReader.place {r : FrameReader} (h : Reach FrameReader.feed .new r) :
    ∃ p, At format r p :=
  (FrameReader.feed_refines.reach h).place (At.start format ⟨.unknown, 0⟩)

theorem FrameReader.feed_none {r r' : FrameReader} {input : List UInt8} {n : ℕ}
    (h : Reach FrameReader.feed .new r) (he : r.feed input = (r', .ok (n, none))) :
    n = input.length := by
  obtain ⟨p, hp⟩ := FrameReader.place h
  rcases hf : format.feed r input with ⟨s, out⟩
  rw [FrameReader.feed, hf] at he
  obtain ⟨rfl, hout⟩ := Prod.mk.inj he
  rcases out with e | ⟨m, item⟩
  · cases hout
  · obtain ⟨rfl, hitem⟩ := Prod.mk.inj (Except.ok.inj hout)
    cases item with
    | none => exact Framing.feed_none hp hf
    | some item => cases hitem

/-- The error is decided by the header alone. -/
theorem FrameReader.feed_error {r : FrameReader} {input : List UInt8} {e : DerpError}
    (h : Reach FrameReader.feed .new r) (he : (r.feed input).2 = .error e) :
    e = .frameTooLarge ∧ ∃ n, n ≤ input.length ∧ Oversized (r.header ++ input.take n) ∧
      r.feed (input.take n) = r.feed input := by
  obtain ⟨p, hp⟩ := FrameReader.place h
  have he' : (format.feed r input).2 = .error e := by
    rcases hf : (format.feed r input).2 with e' | o
    · rw [FrameReader.feed] at he
      simp only [hf] at he
      rw [Except.error.inj he]
    · rw [FrameReader.feed] at he
      simp only [hf] at he
      cases he
  obtain ⟨n, hn, rfl, hlen, herr, hsame⟩ := feed_error_take hp he'
  obtain ⟨rfl, hlarge⟩ := refuse_eq_some_iff.mp herr
  refine ⟨rfl, n, hn, ⟨hlen, hlarge⟩, ?_⟩
  rw [FrameReader.feed, FrameReader.feed, hsame]

/-- **The DERP reader reads DERP frames.**  However the bytes are cut into
inputs, the calls hand back exactly the frames; joined, they do not depend on
the cuts.  A call without a frame used all of its input.  The calls fail
exactly when a header declares more than the limit; the frames before it have
then been handed back, and nothing behind it was looked at. -/
theorem reads_derp_frames :
    (∀ (frames : List RawFrame) (inputs : List (List UInt8)), inputs.flatten = wires frames →
      ∃ r out, feedAll FrameReader.feed .new inputs = (r, out, .more) ∧ Delivered frames out ∧
        join [] out = frames.map RawFrame.assembled) ∧
    (∀ (r r' : FrameReader) (input : List UInt8) (n : ℕ), Reach FrameReader.feed .new r →
      r.feed input = (r', .ok (n, none)) → n = input.length) ∧
    (∀ (inputs : List (List UInt8)) (e : DerpError),
      (feedAll FrameReader.feed .new inputs).2.2 = .failed e ↔
        e = .frameTooLarge ∧ ∃ (frames : List RawFrame) (header rest : List UInt8),
          inputs.flatten = wires frames ++ (header ++ rest) ∧ Oversized header) ∧
    (∀ (frames : List RawFrame) (header rest : List UInt8) (inputs : List (List UInt8)),
      inputs.flatten = wires frames ++ (header ++ rest) → Oversized header →
        Delivered frames (feedAll FrameReader.feed .new inputs).2.1) ∧
    (∀ (r : FrameReader) (input : List UInt8) (e : DerpError), Reach FrameReader.feed .new r →
      (r.feed input).2 = .error e → ∃ n, n ≤ input.length ∧
        Oversized (r.header ++ input.take n) ∧ r.feed (input.take n) = r.feed input) := by
  refine ⟨fun frames inputs => feedAll_wires, fun r r' input n => FrameReader.feed_none, ?_, ?_, ?_⟩
  · intro inputs e
    refine ⟨feedAll_failed_oversized, ?_⟩
    rintro ⟨rfl, frames, header, rest, hbytes, hover⟩
    obtain ⟨r, out, he, -⟩ := feedAll_oversized hbytes hover
    rw [he]
  · intro frames header rest inputs hbytes hover
    obtain ⟨r, out, he, hd⟩ := feedAll_oversized hbytes hover
    rw [he]
    exact hd
  · intro r input e hr he
    exact (FrameReader.feed_error hr he).2

end Lando.Derp
