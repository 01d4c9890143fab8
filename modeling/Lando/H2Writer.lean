/-
Lando/H2Writer.lean

Writing HTTP/2 frames (`h2.rs`), and reading them back.

A `Writer` fills a buffer from the front; every method is a sequence of
`put`s that stops at the first one without room.  `Writes m bytes` says all
there is to say about such a method: with room for `bytes` it appends exactly
them, and without it reports `ShortBuffer`.  `Writes` composes
(`Writes.seq`), so a method's specification is the list of its `put`s, and a
frame-writing method writes the wire form of one frame (`Cmd.writes`).
-/
import Lando.H2Frame

namespace Lando.H2

/-! ### The writer -/

/-- `H2Error`. -/
inductive H2Error
  | shortBuffer
  deriving DecidableEq, Repr

/-- `Writer`: the buffer, and how much of it is filled. -/
structure Writer where
  buf : List UInt8
  pos : ℕ
  pos_le : pos ≤ buf.length

/-- Methods that change a writer and may fail. -/
abbrev WriterM := ExceptT H2Error (StateM Writer)

namespace Writer

/-- `Writer::new`: nothing is written yet. -/
def new (buf : List UInt8) : Writer := ⟨buf, 0, Nat.zero_le _⟩

/-- What has been written. -/
def written (w : Writer) : List UInt8 := w.buf.take w.pos

/-- Bytes at the current place, if there is room for all of them. -/
def put (bytes : List UInt8) : WriterM Unit := do
  let w ← get
  if h : w.pos + bytes.length > w.buf.length then throw .shortBuffer
  else
    set (⟨Bytes.blit w.buf w.pos bytes, w.pos + bytes.length, by
      rw [Bytes.length_blit (Nat.not_lt.mp h)]
      exact Nat.not_lt.mp h⟩ : Writer)

/-- One byte. -/
def putU8 (b : UInt8) : WriterM Unit := put [b]

/-- `frame_header`: of the length, the low three bytes. -/
def frameHeader (length : UInt32) (kind flags : UInt8) (streamId : UInt32) : WriterM Unit := do
  let l := Bytes.toBE 4 length.toNat
  put (l.tail ++ [kind, flags])
  put (Bytes.toBE 4 streamId.toNat)

/-- The entries of SETTINGS, one after the other. -/
def putSettings : List (UInt16 × UInt32) → WriterM Unit
  | [] => pure ()
  | (id, val) :: entries => do
      put (Bytes.toBE 2 id.toNat)
      put (Bytes.toBE 4 val.toNat)
      putSettings entries

/-- Our settings.  `HEADER_TABLE_SIZE = 0` forbids the server from using the
HPACK dynamic table. -/
def settingsEntries (initialWindow maxFrame : UInt32) : List (UInt16 × UInt32) :=
  [(setting.headerTableSize, 0),
   (setting.enablePush, 0),
   (setting.initialWindowSize, initialWindow),
   (setting.maxFrameSize, maxFrame)]

/-- `settings`: what a client asks of the server. -/
def settings (initialWindow maxFrame : UInt32) : WriterM Unit := do
  let entries := settingsEntries initialWindow maxFrame
  frameHeader (.ofNat (entries.length * 6)) frameType.settings 0 0
  putSettings entries

/-- `settings_ack`: SETTINGS without entries. -/
def settingsAck : WriterM Unit := frameHeader 0 frameType.settings flag.ack 0

/-- The first eight bytes, filled up with zeros. -/
def pingData (payload : List UInt8) : List UInt8 :=
  Bytes.blit (List.replicate 8 0) 0 (payload.take 8)

/-- `ping_ack`: the data of the ping, sent back. -/
def pingAck (payload : List UInt8) : WriterM Unit := do
  frameHeader 8 frameType.ping flag.ack 0
  put (pingData payload)

/-- `window_update`, on a stream or on the connection (0). -/
def windowUpdate (streamId increment : UInt32) : WriterM Unit := do
  frameHeader 4 frameType.windowUpdate 0 streamId
  put (Bytes.toBE 4 (increment &&& 0x7fffffff).toNat)

/-- `data`: one DATA frame. -/
def data (streamId : UInt32) (payload : List UInt8) (endStream : Bool) : WriterM Unit := do
  let flags := if endStream then flag.endStream else 0
  frameHeader (.ofNat payload.length) frameType.data flags streamId
  put payload

/-! ### Header blocks -/

/-- The bytes of an HPACK integer behind its prefix. -/
def encodeRest (rest : ℕ) : WriterM Unit :=
  if 128 ≤ rest then do
    putU8 (.ofNat (rest % 128) + 128)
    encodeRest (rest / 128)
  else putU8 (.ofNat rest)
termination_by rest
decreasing_by omega

/-- HPACK integer encoding with a prefix of `prefixBits` bits. -/
def encodeInteger (value : UInt32) (prefixBits : ℕ) (flags : UInt8) : WriterM Unit := do
  let max := 2 ^ prefixBits - 1
  if value.toNat < max then putU8 (flags ||| .ofNat value.toNat)
  else do
    putU8 (flags ||| .ofNat max)
    encodeRest (value.toNat - max)

/-- Literal header field, never indexed, with the name taken from the static
table. -/
def literal (nameIndex : UInt8) (value : List UInt8) : WriterM Unit := do
  encodeInteger (.ofNat nameIndex.toNat) 4 0x10
  encodeInteger (.ofNat value.length) 7 0x00
  put value

/-- Literal header field with a new name. -/
def literalNamed (name value : List UInt8) : WriterM Unit := do
  putU8 0x10
  encodeInteger (.ofNat name.length) 7 0x00
  put name
  encodeInteger (.ofNat value.length) 7 0x00
  put value

/-- The digits of `v`, written in front of index `i`. -/
def writeDigits (buf : List UInt8) (i v : ℕ) : List UInt8 × ℕ :=
  if v = 0 then (buf, i)
  else writeDigits (buf.set (i - 1) (48 + .ofNat (v % 10))) (i - 1) (v / 10)
termination_by v
decreasing_by omega

/-- Decimal-renders a `usize` into a buffer of 20 bytes, returning the used
prefix. -/
def writeUsize (v : UInt64) : List UInt8 :=
  let buf := List.replicate 20 0
  if v = 0 then (buf.set 0 48).take 1
  else
    let (buf, i) := writeDigits buf 20 v.toNat
    (Bytes.blit buf 0 (Bytes.slice buf i 20)).take (20 - i)

/-- The header block of a POST request. -/
def postBlock (authority path : List UInt8) (contentLength : UInt64) : WriterM Unit := do
  putU8 0x83
  putU8 0x86
  literal 4 path
  literal 1 authority
  literalNamed "content-type".toUTF8.toList "application/json".toUTF8.toList
  literalNamed "content-length".toUTF8.toList (writeUsize contentLength)

/-- Runs a method on a writer. -/
def exec (m : WriterM Unit) (w : Writer) : Except H2Error Unit × Writer := m.run.run w

/-- A `POST` request HEADERS frame.  The block comes first: the frame header
needs its length. -/
def postHeaders (streamId : UInt32) (authority path : String) (contentLength : UInt64) :
    WriterM Unit :=
  match exec (postBlock authority.toUTF8.toList path.toUTF8.toList contentLength)
      (new (List.replicate 256 0)) with
  | (.error e, _) => throw e
  | (.ok (), b) => do
      frameHeader (.ofNat b.pos) frameType.headers flag.endHeaders streamId
      put b.written

end Writer

/-! ### What a method writes -/

open Writer

/-- Method `m` writes `bytes` where there is room, and fails where not. -/
structure Writes (m : WriterM Unit) (bytes : List UInt8) : Prop where
  ok : ∀ w : Writer, w.pos + bytes.length ≤ w.buf.length →
    ∃ w', exec m w = (.ok (), w') ∧ w'.written = w.written ++ bytes ∧
      w'.buf.length = w.buf.length
  short : ∀ w : Writer, w.buf.length < w.pos + bytes.length →
    ∃ w', exec m w = (.error .shortBuffer, w')

theorem Writer.length_written (w : Writer) : w.written.length = w.pos := by
  rw [written, List.length_take, Nat.min_eq_left w.pos_le]

theorem exec_bind (m m' : WriterM Unit) (w : Writer) :
    exec (m >>= fun _ => m') w =
      match exec m w with
      | (.ok (), w') => exec m' w'
      | (.error e, w') => (.error e, w') := by
  unfold exec
  rw [ExceptT.run_bind, StateT.run_bind]
  rcases m.run.run w with ⟨_ | _, w'⟩ <;> rfl

namespace Writes

theorem nil : Writes (pure ()) [] where
  ok w _ := ⟨w, rfl, (List.append_nil _).symm, rfl⟩
  short w h := absurd w.pos_le (Nat.not_le.mpr h)

theorem put (bytes : List UInt8) : Writes (Writer.put bytes) bytes where
  ok w h := by
    have hn : ¬ w.pos + bytes.length > w.buf.length := Nat.not_lt.mpr h
    refine ⟨⟨Bytes.blit w.buf w.pos bytes, w.pos + bytes.length, ?_⟩, ?_, ?_, ?_⟩
    · rw [Bytes.length_blit h]
      exact h
    · show (dite _ _ _ : WriterM Unit).run.run w = _
      rw [dif_neg hn]
      rfl
    · have hlen : (w.buf.take w.pos ++ bytes).length = w.pos + bytes.length := by
        rw [List.length_append, ← Writer.written, w.length_written]
      show (w.buf.take w.pos ++ bytes ++ w.buf.drop _).take (w.pos + bytes.length) = _
      rw [← hlen, List.take_left, Writer.written]
    · exact Bytes.length_blit h
  short w h := by
    refine ⟨w, ?_⟩
    show (dite _ _ _ : WriterM Unit).run.run w = _
    rw [dif_pos h]
    rfl

theorem seq {m m' : WriterM Unit} {a b : List UInt8} (h : Writes m a) (h' : Writes m' b) :
    Writes (m >>= fun _ => m') (a ++ b) where
  ok w hw := by
    rw [List.length_append] at hw
    obtain ⟨w₁, he₁, hw₁, hl₁⟩ := h.ok w (by omega)
    have hpos : w₁.pos = w.pos + a.length := by
      rw [← w₁.length_written, hw₁, List.length_append, w.length_written]
    obtain ⟨w₂, he₂, hw₂, hl₂⟩ := h'.ok w₁ (by omega)
    refine ⟨w₂, ?_, ?_, hl₂.trans hl₁⟩
    · rw [exec_bind, he₁]
      exact he₂
    · rw [hw₂, hw₁, List.append_assoc]
  short w hw := by
    rw [List.length_append] at hw
    rcases Nat.lt_or_ge w.buf.length (w.pos + a.length) with hlt | hge
    · obtain ⟨w₁, he₁⟩ := h.short w hlt
      refine ⟨w₁, ?_⟩
      rw [exec_bind, he₁]
    · obtain ⟨w₁, he₁, hw₁, hl₁⟩ := h.ok w hge
      have hpos : w₁.pos = w.pos + a.length := by
        rw [← w₁.length_written, hw₁, List.length_append, w.length_written]
      obtain ⟨w₂, he₂⟩ := h'.short w₁ (by omega)
      refine ⟨w₂, ?_⟩
      rw [exec_bind, he₁]
      exact he₂

/-- The same bytes, written differently. -/
theorem congr {m : WriterM Unit} {a b : List UInt8} (h : Writes m a) (hab : a = b) :
    Writes m b := hab ▸ h

end Writes

/-- The bytes of an HPACK integer behind its prefix. -/
def restBytes (rest : ℕ) : List UInt8 :=
  if 128 ≤ rest then (.ofNat (rest % 128) + 128) :: restBytes (rest / 128) else [.ofNat rest]
termination_by rest
decreasing_by omega

/-- What `putInt` writes: an HPACK integer. -/
def integerBytes (value : UInt32) (prefixBits : ℕ) (flags : UInt8) : List UInt8 :=
  let max := 2 ^ prefixBits - 1
  if value.toNat < max then [flags ||| .ofNat value.toNat]
  else (flags ||| .ofNat max) :: restBytes (value.toNat - max)

/-- What `literal` writes: a name of the static table and a value. -/
def literalBytes (nameIndex : UInt8) (value : List UInt8) : List UInt8 :=
  integerBytes (.ofNat nameIndex.toNat) 4 0x10 ++ (integerBytes (.ofNat value.length) 7 0x00 ++ value)

/-- What `literalNamed` writes: a name and a value. -/
def literalNamedBytes (name value : List UInt8) : List UInt8 :=
  0x10 :: (integerBytes (.ofNat name.length) 7 0x00 ++ (name ++
    (integerBytes (.ofNat value.length) 7 0x00 ++ value)))

/-- The header block of a POST request. -/
def postBlockBytes (authority path : List UInt8) (contentLength : UInt64) : List UInt8 :=
  0x83 :: 0x86 :: (literalBytes 4 path ++ (literalBytes 1 authority ++
    (literalNamedBytes "content-type".toUTF8.toList "application/json".toUTF8.toList ++
      literalNamedBytes "content-length".toUTF8.toList (writeUsize contentLength))))

/-- A SETTINGS payload. -/
def settingsBytes : List (UInt16 × UInt32) → List UInt8
  | [] => []
  | (id, val) :: entries =>
      Bytes.toBE 2 id.toNat ++ (Bytes.toBE 4 val.toNat ++ settingsBytes entries)

theorem writes_putSettings (entries : List (UInt16 × UInt32)) :
    Writes (putSettings entries) (settingsBytes entries) := by
  induction entries with
  | nil => exact .nil
  | cons e entries ih => exact (Writes.put _).seq ((Writes.put _).seq ih)

theorem length_settingsBytes (entries : List (UInt16 × UInt32)) :
    (settingsBytes entries).length = entries.length * 6 := by
  induction entries with
  | nil => rfl
  | cons e entries ih =>
    rw [settingsBytes, List.length_append, List.length_append, Bytes.length_toBE,
      Bytes.length_toBE, ih, List.length_cons]
    omega

theorem writes_encodeRest (rest : ℕ) : Writes (encodeRest rest) (restBytes rest) := by
  induction rest using Nat.strong_induction_on with
  | _ rest ih =>
    rw [encodeRest, restBytes]
    split_ifs with h
    · exact (Writes.put _).seq (ih (rest / 128) (by omega))
    · exact Writes.put _

theorem writes_encodeInteger (value : UInt32) (prefixBits : ℕ) (flags : UInt8) :
    Writes (encodeInteger value prefixBits flags) (integerBytes value prefixBits flags) := by
  unfold encodeInteger integerBytes
  simp only
  split_ifs with h
  · exact Writes.put _
  · exact (Writes.put _).seq (writes_encodeRest _)

theorem writes_literal (nameIndex : UInt8) (value : List UInt8) :
    Writes (literal nameIndex value) (literalBytes nameIndex value) :=
  (writes_encodeInteger _ _ _).seq ((writes_encodeInteger _ _ _).seq (Writes.put _))

theorem writes_literalNamed (name value : List UInt8) :
    Writes (literalNamed name value) (literalNamedBytes name value) :=
  (Writes.put [0x10]).seq ((writes_encodeInteger _ _ _).seq ((Writes.put _).seq
    ((writes_encodeInteger _ _ _).seq (Writes.put _))))

theorem writes_postBlock (authority path : List UInt8) (contentLength : UInt64) :
    Writes (postBlock authority path contentLength) (postBlockBytes authority path contentLength) :=
  (Writes.put [0x83]).seq ((Writes.put [0x86]).seq ((writes_literal 4 path).seq
    ((writes_literal 1 authority).seq ((writes_literalNamed _ _).seq (writes_literalNamed _ _)))))

theorem writes_frameHeader (length : UInt32) (kind flags : UInt8) (streamId : UInt32) :
    Writes (frameHeader length kind flags streamId)
      (Bytes.toBE 3 length.toNat ++ [kind, flags] ++ Bytes.toBE 4 streamId.toNat) := by
  rw [← Bytes.tail_toBE]
  exact (Writes.put _).seq (Writes.put _)

/-! ### Frames written -/

/-- The frame-writing methods. -/
inductive Cmd
  | settings (initialWindow maxFrame : UInt32)
  | settingsAck
  | pingAck (payload : List UInt8)
  | windowUpdate (streamId increment : UInt32)
  | data (streamId : UInt32) (payload : List UInt8) (endStream : Bool)
  | postHeaders (streamId : UInt32) (authority path : String) (contentLength : UInt64)

namespace Cmd

/-- The call of the writer. -/
def write : Cmd → WriterM Unit
  | settings initialWindow maxFrame => Writer.settings initialWindow maxFrame
  | settingsAck => Writer.settingsAck
  | pingAck payload => Writer.pingAck payload
  | windowUpdate streamId increment => Writer.windowUpdate streamId increment
  | data streamId payload endStream => Writer.data streamId payload endStream
  | postHeaders streamId authority path contentLength =>
      Writer.postHeaders streamId authority path contentLength

/-- The type of the frame. -/
def kind : Cmd → UInt8
  | settings .. => frameType.settings
  | settingsAck => frameType.settings
  | pingAck .. => frameType.ping
  | windowUpdate .. => frameType.windowUpdate
  | data .. => frameType.data
  | postHeaders .. => frameType.headers

/-- The flags of the frame. -/
def flags : Cmd → UInt8
  | settings .. => 0
  | settingsAck => flag.ack
  | pingAck .. => flag.ack
  | windowUpdate .. => 0
  | data _ _ endStream => if endStream then flag.endStream else 0
  | postHeaders .. => flag.endHeaders

/-- The stream of the frame. -/
def streamId : Cmd → UInt32
  | settings .. => 0
  | settingsAck => 0
  | pingAck .. => 0
  | windowUpdate streamId _ => streamId
  | data streamId _ _ => streamId
  | postHeaders streamId _ _ _ => streamId

/-- The payload of the frame. -/
def payload : Cmd → List UInt8
  | settings initialWindow maxFrame => settingsBytes (settingsEntries initialWindow maxFrame)
  | settingsAck => []
  | pingAck payload => pingData payload
  | windowUpdate _ increment => Bytes.toBE 4 (increment &&& 0x7fffffff).toNat
  | data _ payload _ => payload
  | postHeaders _ authority path contentLength =>
      postBlockBytes authority.toUTF8.toList path.toUTF8.toList contentLength

/-- A stream id of 31 bits, and a payload that the length field can hold. -/
structure Valid (c : Cmd) : Prop where
  id_lt : c.streamId.toNat < 2 ^ 31
  fits : c.payload.length < 2 ^ 24

/-- A header block must fit in the buffer in which it is built. -/
def Fits : Cmd → Prop
  | postHeaders streamId authority path contentLength =>
      (postHeaders streamId authority path contentLength).payload.length ≤ 256
  | _ => True

/-- The frame that a method is meant to write. -/
def frame (c : { c : Cmd // c.Valid }) : RawFrame :=
  ⟨c.1.kind, c.1.flags, c.1.streamId, c.1.payload, c.2.id_lt, c.2.fits⟩

end Cmd

theorem writes_frame (f : RawFrame) {length : UInt32} {m : WriterM Unit}
    (hlen : length = .ofNat f.payload.length) (h : Writes m f.payload) :
    Writes (frameHeader length f.kind f.flags f.streamId >>= fun _ => m) f.wire := by
  have hlt : f.payload.length < UInt32.size := Nat.lt_trans f.fits (by decide)
  have hhead := writes_frameHeader length f.kind f.flags f.streamId
  rw [hlen, UInt32.toNat_ofNat_of_lt' hlt] at hhead
  rw [hlen]
  exact hhead.seq h

theorem length_pingData (payload : List UInt8) : (pingData payload).length = 8 := by
  rw [pingData, Bytes.length_blit, List.length_replicate]
  rw [List.length_take, List.length_replicate]
  omega

/-- The block of a POST request, built first. -/
theorem postHeaders_eq (streamId : UInt32) (authority path : String) (contentLength : UInt64)
    (h : (Cmd.postHeaders streamId authority path contentLength).Fits) :
    Writer.postHeaders streamId authority path contentLength = (do
      let block := postBlockBytes authority.toUTF8.toList path.toUTF8.toList contentLength
      frameHeader (.ofNat block.length) frameType.headers flag.endHeaders streamId
      Writer.put block) := by
  have hroom : (Writer.new (List.replicate 256 0)).pos + (postBlockBytes
      authority.toUTF8.toList path.toUTF8.toList contentLength).length ≤
        (Writer.new (List.replicate 256 0)).buf.length := by
    rw [Writer.new, List.length_replicate, Nat.zero_add]
    exact h
  obtain ⟨b, he, hb, -⟩ := (writes_postBlock _ _ _).ok _ hroom
  have hw : b.written = postBlockBytes authority.toUTF8.toList path.toUTF8.toList contentLength := hb
  unfold Writer.postHeaders
  rw [he]
  simp only [← b.length_written, hw]

theorem postHeaders_short (streamId : UInt32) (authority path : String) (contentLength : UInt64)
    (h : ¬ (Cmd.postHeaders streamId authority path contentLength).Fits) :
    Writer.postHeaders streamId authority path contentLength = throw .shortBuffer := by
  have hroom : (Writer.new (List.replicate 256 0)).buf.length <
      (Writer.new (List.replicate 256 0)).pos + (postBlockBytes
        authority.toUTF8.toList path.toUTF8.toList contentLength).length := by
    rw [Writer.new, List.length_replicate, Nat.zero_add]
    exact Nat.not_le.mp h
  obtain ⟨b, he⟩ := (writes_postBlock _ _ _).short _ hroom
  unfold Writer.postHeaders
  rw [he]

/-- Each method writes its frame. -/
theorem Cmd.writes (c : { c : Cmd // c.Valid }) (h : c.1.Fits) :
    Writes c.1.write (Cmd.frame c).wire := by
  obtain ⟨c, hv⟩ := c
  cases c with
  | settings initialWindow maxFrame =>
    refine writes_frame (Cmd.frame ⟨.settings initialWindow maxFrame, hv⟩) ?_
      (writes_putSettings _)
    exact congrArg UInt32.ofNat (length_settingsBytes _).symm
  | settingsAck =>
    refine (writes_frameHeader 0 frameType.settings flag.ack 0).congr ?_
    exact (List.append_nil _).symm
  | pingAck payload =>
    refine writes_frame (Cmd.frame ⟨.pingAck payload, hv⟩) ?_ (Writes.put _)
    exact congrArg UInt32.ofNat (length_pingData payload).symm
  | windowUpdate streamId increment =>
    refine writes_frame (Cmd.frame ⟨.windowUpdate streamId increment, hv⟩) ?_ (Writes.put _)
    exact congrArg UInt32.ofNat (Bytes.length_toBE 4 _).symm
  | data streamId payload endStream =>
    exact writes_frame (Cmd.frame ⟨.data streamId payload endStream, hv⟩) rfl (Writes.put _)
  | postHeaders streamId authority path contentLength =>
    show Writes (Writer.postHeaders streamId authority path contentLength) _
    rw [postHeaders_eq streamId authority path contentLength h]
    exact writes_frame (Cmd.frame ⟨.postHeaders streamId authority path contentLength, hv⟩) rfl
      (Writes.put _)

/-- A method whose header block does not fit fails. -/
theorem Cmd.write_error {c : Cmd} (h : ¬ c.Fits) (w : Writer) :
    exec c.write w = (.error .shortBuffer, w) := by
  cases c with
  | postHeaders streamId authority path contentLength =>
    show exec (Writer.postHeaders streamId authority path contentLength) w = _
    rw [postHeaders_short streamId authority path contentLength h]
    rfl
  | _ => exact absurd trivial h

/-- One method after another. -/
def writeAll : List { c : Cmd // c.Valid } → WriterM Unit
  | [] => pure ()
  | c :: cmds => do
      c.1.write
      writeAll cmds

theorem writeAll_writes {cmds : List { c : Cmd // c.Valid }} (h : ∀ c ∈ cmds, c.1.Fits) :
    Writes (writeAll cmds) (wires (cmds.map Cmd.frame)) := by
  induction cmds with
  | nil => exact .nil
  | cons c cmds ih =>
    have hc := Cmd.writes c (h c List.mem_cons_self)
    exact hc.seq (ih fun c' hc' => h c' (List.mem_cons_of_mem c hc'))

theorem writeAll_error {cmds : List { c : Cmd // c.Valid }} {c : { c : Cmd // c.Valid }}
    (hc : c ∈ cmds) (h : ¬ c.1.Fits) (w : Writer) : (exec (writeAll cmds) w).1 ≠ .ok () := by
  induction cmds generalizing w with
  | nil => cases hc
  | cons c' cmds ih =>
    rw [writeAll, exec_bind]
    rcases he : exec c'.1.write w with ⟨e | u, w'⟩
    · exact nofun
    · rcases List.mem_cons.mp hc with rfl | hc
      · rw [Cmd.write_error h] at he
        cases he
      · exact ih hc w'

/-- What was written, when all of it was. -/
theorem writeAll_ok_iff (cmds : List { c : Cmd // c.Valid }) (buf : List UInt8) :
    (exec (writeAll cmds) (.new buf)).1 = .ok () ↔
      (∀ c ∈ cmds, c.1.Fits) ∧ (wires (cmds.map Cmd.frame)).length ≤ buf.length := by
  constructor
  · intro hok
    have hfits : ∀ c ∈ cmds, c.1.Fits := fun c hc =>
      Classical.byContradiction fun h => writeAll_error hc h (.new buf) hok
    refine ⟨hfits, Nat.not_lt.mp fun hlt => ?_⟩
    obtain ⟨w', he⟩ := (writeAll_writes hfits).short (.new buf) (by
      rw [Writer.new, Nat.zero_add]
      exact hlt)
    rw [he] at hok
    cases hok
  · rintro ⟨hfits, hle⟩
    obtain ⟨w', he, -⟩ := (writeAll_writes hfits).ok (.new buf) (by
      rw [Writer.new, Nat.zero_add]
      exact hle)
    rw [he]

theorem writeAll_written {cmds : List { c : Cmd // c.Valid }} {buf : List UInt8} {w : Writer}
    (h : exec (writeAll cmds) (.new buf) = (.ok (), w)) :
    w.written = wires (cmds.map Cmd.frame) := by
  obtain ⟨hfits, hle⟩ := (writeAll_ok_iff cmds buf).mp (by rw [h])
  obtain ⟨w', he, hw, -⟩ := (writeAll_writes hfits).ok (.new buf) (by
    rw [Writer.new, Nat.zero_add]
    exact hle)
  rw [h] at he
  obtain ⟨-, rfl⟩ := Prod.mk.inj he
  exact hw

/-- **HTTP/2 framing.**  However the bytes of frames are cut into inputs, the
reader hands back exactly the frames; joined, they do not depend on the cuts.
A call without an item used all of its input.  What the writer's methods write
is read back as the frames they stand for. -/
theorem reads_h2_frames :
    (∀ (frames : List RawFrame) (inputs : List (List UInt8)), inputs.flatten = wires frames →
      ∃ r items, Framing.feedAll FrameReader.call .new inputs = (r, items, .more) ∧
        Delivered frames items ∧
        Framing.assemble [] items = frames.map RawFrame.assembled) ∧
    (∀ (r r' : FrameReader) (input : List UInt8) (n : ℕ),
      Framing.Reach FrameReader.call .new r → r.feed input = (r', n, none) → n = input.length) ∧
    (∀ (cmds : List { c : Cmd // c.Valid }) (buf : List UInt8),
      ((exec (writeAll cmds) (.new buf)).1 = .ok () ↔
        (∀ c ∈ cmds, c.1.Fits) ∧ (wires (cmds.map Cmd.frame)).length ≤ buf.length) ∧
      ∀ w, exec (writeAll cmds) (.new buf) = (.ok (), w) →
        ∀ inputs : List (List UInt8), inputs.flatten = w.written →
          ∃ r items, Framing.feedAll FrameReader.call .new inputs = (r, items, .more) ∧
            Delivered (cmds.map Cmd.frame) items) := by
  refine ⟨fun frames inputs => feedAll_wires, fun r r' input n => FrameReader.feed_none, ?_⟩
  intro cmds buf
  refine ⟨writeAll_ok_iff cmds buf, fun w hw inputs hbytes => ?_⟩
  rw [writeAll_written hw] at hbytes
  obtain ⟨r, items, he, hd, -⟩ := feedAll_wires hbytes
  exact ⟨r, items, he, hd⟩

end Lando.H2
