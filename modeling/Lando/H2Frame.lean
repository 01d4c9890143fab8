/-
Lando/H2Frame.lean

HTTP/2 framing (`h2.rs`): a 9-byte header, then the payload.

The reader is the incremental reader of `Framing` at the HTTP/2 format:
control frames cut at 128 bytes, no header refused, and a frame without
payload handed back as what its kind says.  Around it stands the count of
DATA bytes consumed since the last window update, which no frame depends on.

    toBE 3 |payload| ++ [kind, flags] ++ toBE 4 streamId ++ payload

is a frame on the wire; the top bit of the stream id is reserved and ignored.
-/
import Lando.Bytes
import Lando.Framing

namespace Lando.H2

open Framing

/-! ### The format -/

/-- `FRAME_HEADER_LEN`. -/
def frameHeaderLen : ℕ := 9

namespace frameType

/-- DATA. -/
def data : UInt8 := 0x0

/-- HEADERS. -/
def headers : UInt8 := 0x1

/-- RST_STREAM. -/
def rstStream : UInt8 := 0x3

/-- SETTINGS. -/
def settings : UInt8 := 0x4

/-- PING. -/
def ping : UInt8 := 0x6

/-- GOAWAY. -/
def goaway : UInt8 := 0x7

/-- WINDOW_UPDATE. -/
def windowUpdate : UInt8 := 0x8

end frameType

namespace flag

/-- On DATA: the last frame of the stream. -/
def endStream : UInt8 := 0x1

/-- On SETTINGS and PING: an answer. -/
def ack : UInt8 := 0x1

/-- On HEADERS: no CONTINUATION follows. -/
def endHeaders : UInt8 := 0x4

end flag

namespace setting

/-- SETTINGS_HEADER_TABLE_SIZE. -/
def headerTableSize : UInt16 := 0x1

/-- SETTINGS_ENABLE_PUSH. -/
def enablePush : UInt16 := 0x2

/-- SETTINGS_INITIAL_WINDOW_SIZE. -/
def initialWindowSize : UInt16 := 0x4

/-- SETTINGS_MAX_FRAME_SIZE. -/
def maxFrameSize : UInt16 := 0x5

end setting

/-- Largest control frame retained in full. -/
def controlFrameMax : ℕ := 128

/-- `FrameHeader`. -/
structure FrameHeader where
  length : UInt32
  kind : UInt8
  flags : UInt8
  streamId : UInt32
  deriving DecidableEq, Repr

/-- `end_stream`. -/
def FrameHeader.isEndStream (h : FrameHeader) : Bool := h.flags &&& flag.endStream != 0

/-- Frames captured whole. -/
def isControl (kind : UInt8) : Bool :=
  kind == frameType.settings || kind == frameType.ping || kind == frameType.windowUpdate ||
    kind == frameType.goaway || kind == frameType.rstStream

/-- The bits of a stream id that count. -/
def streamIdMask : UInt32 := 0x7fffffff

/-- The header in nine bytes. -/
def parseHeader (buf : List UInt8) : FrameHeader where
  length := .ofNat (Bytes.fromBE (0 :: Bytes.slice buf 0 3))
  kind := buf.getD 3 0
  flags := buf.getD 4 0
  -- the top bit is reserved and must be ignored, not rejected
  streamId := .ofNat (Bytes.fromBE (Bytes.slice buf 5 9)) &&& streamIdMask

/-- The HTTP/2 frame format. -/
def format : Format UInt8 FrameHeader Empty where
  headerLen := frameHeaderLen
  headerLen_pos := by decide
  decode := parseHeader
  length h := h.length.toNat
  refuse _ := none
  control h := isControl h.kind
  controlMax := controlFrameMax
  controlMax_pos := by decide
  -- SETTINGS ACK is one, DATA with only END_STREAM is not
  emptyControl h := isControl h.kind

/-! ### The reader -/

/-- One thing the reader produced: a small frame, captured whole, or part of
a streamed payload. -/
abbrev Item := Framing.Item UInt8 FrameHeader

/-- `FrameReader`. -/
structure FrameReader where
  reader : Reader UInt8 FrameHeader
  /-- Bytes of DATA payload consumed since the last window update. -/
  pendingWindow : UInt32
  deriving DecidableEq

namespace FrameReader

/-- `FrameReader::new`, between two frames. -/
def new : FrameReader where
  reader := .start ⟨0, 0, 0, 0⟩
  pendingWindow := 0

/-- Total DATA bytes received since the last call. -/
def takePendingWindow (r : FrameReader) : FrameReader × UInt32 :=
  ({ r with pendingWindow := 0 }, r.pendingWindow)

/-- Flow control accounts for the whole DATA payload. -/
def account (pendingWindow : UInt32) : Option Item → UInt32
  | some (.body header chunk _) =>
      if header.kind = frameType.data then pendingWindow + .ofNat chunk.length else pendingWindow
  | _ => pendingWindow

/-- Consumes bytes from `input`, returning how many were used and at most one
item. -/
def feed (r : FrameReader) (input : List UInt8) : FrameReader × ℕ × Option Item :=
  match format.feed r.reader input with
  | (reader, .ok (used, item)) => (⟨reader, account r.pendingWindow item⟩, used, item)
  | (_, .error e) => nomatch e

/-- A call of `feed`, which cannot fail. -/
def call (r : FrameReader) (input : List UInt8) :
    FrameReader × Except Empty (ℕ × Option Item) :=
  ((r.feed input).1, .ok (r.feed input).2)

theorem call_refines : Refines call format.feed reader id := by
  intro r input
  unfold call feed
  rcases format.feed r.reader input with ⟨reader, e | ⟨used, item⟩⟩
  · exact nomatch e
  · refine ⟨rfl, ?_⟩
    show Except.ok (used, item) = Except.ok (used, item.map id)
    rw [Option.map_id_fun, id]

end FrameReader

/-! ### Frames on the wire -/

/-- A frame as a peer sends it. -/
structure RawFrame where
  kind : UInt8
  flags : UInt8
  streamId : UInt32
  payload : List UInt8
  id_lt : streamId.toNat < 2 ^ 31
  fits : payload.length < 2 ^ 24

namespace RawFrame

/-- What a reader learns of the frame. -/
def header (f : RawFrame) : FrameHeader := ⟨.ofNat f.payload.length, f.kind, f.flags, f.streamId⟩

/-- The nine bytes in front of the payload. -/
def head (f : RawFrame) : List UInt8 :=
  Bytes.toBE 3 f.payload.length ++ [f.kind, f.flags] ++ Bytes.toBE 4 f.streamId.toNat

/-- The frame as it is sent. -/
def wire (f : RawFrame) : List UInt8 := f.head ++ f.payload

/-- What the reader hands back for one frame: one control item, or chunks
that make up the payload, the last one marked; the chunk of an empty payload
is empty. -/
def Delivered (f : RawFrame) (items : List Item) : Prop :=
  if isControl f.kind then items = [.control f.header (f.payload.take controlFrameMax)]
  else ∃ (chunks : List (List UInt8)) (final : List UInt8),
    items = chunks.map (.body f.header · false) ++ [.body f.header final true] ∧
      chunks.flatten ++ final = f.payload ∧ (∀ c ∈ chunks, c ≠ []) ∧
        (final = [] → f.payload = [])

/-- The frame with its payload in one piece. -/
def assembled (f : RawFrame) : Item :=
  if isControl f.kind then .control f.header (f.payload.take controlFrameMax)
  else .body f.header f.payload true

end RawFrame

/-- The byte stream of a list of frames. -/
def wires (frames : List RawFrame) : List UInt8 := (frames.map RawFrame.wire).flatten

/-- What the reader hands back for a list of frames. -/
def Delivered : List RawFrame → List Item → Prop
  | [], items => items = []
  | f :: frames, items =>
      ∃ first rest, items = first ++ rest ∧ f.Delivered first ∧ Delivered frames rest

theorem and_streamIdMask {id : UInt32} (h : id.toNat < 2 ^ 31) : id &&& streamIdMask = id := by
  apply UInt32.toNat.inj
  rw [UInt32.toNat_and]
  show id.toNat &&& (2 ^ 31 - 1) = id.toNat
  rw [Nat.and_two_pow_sub_one_eq_mod, Nat.mod_eq_of_lt h]

theorem RawFrame.length_head (f : RawFrame) : f.head.length = frameHeaderLen := by
  rw [RawFrame.head, List.length_append, List.length_append, Bytes.length_toBE, Bytes.length_toBE]
  rfl

theorem parseHeader_parts {len id : List UInt8} (hlen : len.length = 3) (hid : id.length = 4)
    (kind flags : UInt8) :
    parseHeader (len ++ [kind, flags] ++ id) =
      ⟨.ofNat (Bytes.fromBE (0 :: len)), kind, flags, .ofNat (Bytes.fromBE id) &&& streamIdMask⟩ := by
  match len, hlen, id, hid with
  | [_, _, _], _, [_, _, _, _], _ => rfl

theorem RawFrame.parseHeader_head (f : RawFrame) : parseHeader f.head = f.header := by
  have hlen : f.payload.length < 256 ^ 3 := Nat.lt_of_lt_of_le f.fits (by decide)
  have hid : f.streamId.toNat < 256 ^ 4 := Nat.lt_trans f.id_lt (by decide)
  rw [RawFrame.head, parseHeader_parts (Bytes.length_toBE _ _) (Bytes.length_toBE _ _),
    Bytes.fromBE_zero_cons, Bytes.fromBE_toBE hlen, Bytes.fromBE_toBE hid, UInt32.ofNat_toNat,
    and_streamIdMask f.id_lt, RawFrame.header]

/-- The frame, for the format. -/
def RawFrame.toWire (f : RawFrame) : Wire format where
  head := f.head
  payload := f.payload
  head_length := f.length_head
  accepted := rfl
  payload_length := by
    have hlt : f.payload.length < UInt32.size := Nat.lt_trans f.fits (by decide)
    show f.payload.length = (parseHeader f.head).length.toNat
    rw [f.parseHeader_head, RawFrame.header, UInt32.toNat_ofNat_of_lt' hlt]

theorem stream_toWire (frames : List RawFrame) :
    stream (frames.map RawFrame.toWire) = wires frames := by
  rw [stream, List.map_map]
  rfl

/-! ### What the reader hands back -/

theorem RawFrame.header_toWire (f : RawFrame) : f.toWire.header = f.header := f.parseHeader_head

theorem RawFrame.whole_toWire (f : RawFrame) : format.whole f.toWire.header = isControl f.kind := by
  rw [f.header_toWire]
  exact ite_self _

theorem delivered_of_rendering {frames : List RawFrame} {items : List Item}
    (h : Rendering [] (frames.map RawFrame.toWire) items) : Delivered frames items := by
  induction frames generalizing items with
  | nil => exact h.2
  | cons f frames ih =>
    obtain ⟨first, rest, rfl, hfirst, hrest⟩ := h
    refine ⟨first, rest, rfl, ?_, ih hrest⟩
    unfold Wire.Rendered at hfirst
    unfold RawFrame.Delivered
    rw [f.whole_toWire, f.header_toWire] at hfirst
    split_ifs at hfirst ⊢ with hc
    · exact hfirst.2
    · exact hfirst

theorem RawFrame.joined_toWire (f : RawFrame) : f.toWire.joined = f.assembled := by
  rw [Wire.joined, RawFrame.assembled, f.whole_toWire, f.header_toWire]
  split_ifs <;> rfl

/-- The frames of a stream, and only them. -/
theorem feedAll_wires {frames : List RawFrame} {inputs : List (List UInt8)}
    (hbytes : inputs.flatten = wires frames) :
    ∃ r items, feedAll FrameReader.call .new inputs = (r, items, .more) ∧
      Delivered frames items ∧ assemble [] items = frames.map RawFrame.assembled := by
  rw [← stream_toWire] at hbytes
  obtain ⟨r, items, he, -, hr⟩ :=
    feedAll_stream (At.start format ⟨0, 0, 0, 0⟩) _ inputs hbytes
  obtain ⟨r', -, he'⟩ := FrameReader.call_refines.feedAll_eq (r := .new) he
  rw [List.map_id_fun, id] at he'
  refine ⟨r', items, he', delivered_of_rendering hr, ?_⟩
  rw [hr.assemble, List.map_map]
  exact List.map_congr_left fun f _ => f.joined_toWire

theorem FrameReader.feed_none {r r' : FrameReader} {input : List UInt8} {n : ℕ}
    (h : Reach FrameReader.call .new r) (he : r.feed input = (r', n, none)) :
    n = input.length := by
  obtain ⟨p, hp⟩ := (FrameReader.call_refines.reach h).place (At.start format ⟨0, 0, 0, 0⟩)
  rw [FrameReader.feed] at he
  rcases hf : format.feed r.reader input with ⟨reader, e | ⟨used, item⟩⟩
  · exact nomatch e
  · rw [hf] at he
    obtain ⟨-, hout⟩ := Prod.mk.inj he
    obtain ⟨rfl, rfl⟩ := Prod.mk.inj hout
    exact Framing.feed_none hp hf

end Lando.H2
