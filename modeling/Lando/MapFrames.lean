/-
Lando/MapFrames.lean

The map response stream (`control.rs`): each response is a four byte
little-endian length and that many bytes of JSON.

`MapFrames` keeps no phase: `remaining = 0` stands both for "between frames"
and for "just finished one", and the length bytes seen so far are the first
`lenHave` of a buffer.  Seen through `MapFrames.reader`, it is the incremental
reader of `Framing` at a format that refuses no header and captures no frame
(`call_refines`), so what it hands back for a stream of bodies is what that
reader hands back, however the stream was cut.
-/
import Lando.Bytes
import Lando.Framing

namespace Lando

open Framing

/-! ### The splitter -/

/-- One slice of a map response. -/
structure MapFrame where
  /-- Total length of the frame this chunk belongs to. -/
  totalLen : UInt32
  chunk : List UInt8
  /-- True on the final chunk of the frame. -/
  «end» : Bool
  deriving DecidableEq, Repr

/-- Splits the map response byte stream into frames. -/
structure MapFrames where
  lenBuf : List UInt8
  lenHave : ℕ
  remaining : UInt32
  total : UInt32
  lenBuf_length : lenBuf.length = 4
  lenHave_lt : lenHave < 4

namespace MapFrames

/-- `MapFrames::new`, in front of the first length. -/
def new : MapFrames where
  lenBuf := [0, 0, 0, 0]
  lenHave := 0
  remaining := 0
  total := 0
  lenBuf_length := rfl
  lenHave_lt := by decide

theorem length_lenBuf_blit (m : MapFrames) (input : List UInt8) :
    (Bytes.blit m.lenBuf m.lenHave (input.take (min (4 - m.lenHave) input.length))).length = 4 := by
  have hlen := m.lenBuf_length
  have hhave := m.lenHave_lt
  rw [Bytes.length_blit, hlen]
  rw [List.length_take, hlen]
  omega

/-- The second half of `feed`: a chunk of the body, behind `pos` bytes of the
input. -/
def feedBody (m : MapFrames) (input : List UInt8) (pos : ℕ) : MapFrames × ℕ × Option MapFrame :=
  let avail := input.length - pos
  if avail = 0 then (m, pos, none)
  else
    let take := min m.remaining.toNat avail
    let chunk := Bytes.slice input pos (pos + take)
    let m := { m with remaining := m.remaining - .ofNat take }
    (m, pos + take, some ⟨m.total, chunk, m.remaining == 0⟩)

/-- Consumes bytes, returning how many were used and at most one chunk. -/
def feed (m : MapFrames) (input : List UInt8) : MapFrames × ℕ × Option MapFrame :=
  if m.remaining = 0 then
    let need := 4 - m.lenHave
    let take := min need input.length
    let lenBuf := Bytes.blit m.lenBuf m.lenHave (input.take take)
    if h : m.lenHave + take < 4 then
      ({ m with
          lenBuf := lenBuf
          lenHave := m.lenHave + take
          lenBuf_length := m.length_lenBuf_blit input
          lenHave_lt := h }, take, none)
    else
      let total : UInt32 := .ofNat (Bytes.fromLE lenBuf)
      let m : MapFrames :=
        { lenBuf := lenBuf
          lenHave := 0
          remaining := total
          total := total
          lenBuf_length := m.length_lenBuf_blit input
          lenHave_lt := by decide }
      -- the keep-alive tick of the server
      if total = 0 then (m, take, some ⟨0, [], true⟩)
      else m.feedBody input take
  else m.feedBody input 0

/-- A call of `feed`, which cannot fail. -/
def call (m : MapFrames) (input : List UInt8) :
    MapFrames × Except Empty (ℕ × Option MapFrame) :=
  ((m.feed input).1, .ok (m.feed input).2)

/-- **Progress.**  A call on input uses some of it, in every state. -/
theorem feed_used_pos (m : MapFrames) {input : List UInt8} (h : input ≠ []) :
    0 < (m.feed input).2.1 := by
  have hlen : 0 < input.length := List.length_pos_iff.mpr h
  have hhave := m.lenHave_lt
  have body : ∀ (m : MapFrames) (pos : ℕ), 0 < pos ∨ m.remaining ≠ 0 →
      0 < (m.feedBody input pos).2.1 := by
    intro m pos hpos
    unfold feedBody
    simp only
    split_ifs with havail
    · show 0 < pos
      omega
    · show 0 < pos + min m.remaining.toNat (input.length - pos)
      rcases hpos with hpos | hrem
      · omega
      · have hne : m.remaining.toNat ≠ 0 := fun he => hrem (UInt32.toNat.inj he)
        omega
  unfold feed
  simp only
  split_ifs with hrem hshort hzero
  · show 0 < min (4 - m.lenHave) input.length
    omega
  · show 0 < min (4 - m.lenHave) input.length
    omega
  · exact body _ _ (.inl (by omega))
  · exact body _ _ (.inr hrem)

/-- No call uses more than it was given. -/
theorem feed_used_le (m : MapFrames) (input : List UInt8) : (m.feed input).2.1 ≤ input.length := by
  have body : ∀ (m : MapFrames) (pos : ℕ), pos ≤ input.length →
      (m.feedBody input pos).2.1 ≤ input.length := by
    intro m pos hpos
    unfold feedBody
    simp only
    split_ifs with havail
    · exact hpos
    · show pos + min m.remaining.toNat (input.length - pos) ≤ input.length
      omega
  unfold feed
  simp only
  split_ifs with hrem hshort hzero
  · exact Nat.min_le_right _ _
  · exact Nat.min_le_right _ _
  · exact body _ _ (Nat.min_le_right _ _)
  · exact body _ _ (Nat.zero_le _)

end MapFrames

/-! ### As a reader of a format -/

/-- The map response format: a length, and nothing else in the header. -/
def mapFormat : Format UInt8 UInt32 Empty where
  headerLen := 4
  headerLen_pos := by decide
  decode buf := .ofNat (Bytes.fromLE buf)
  length h := h.toNat
  refuse _ := none
  control _ := false
  -- no frame is kept
  controlMax := 1
  controlMax_pos := Nat.one_pos
  emptyControl _ := false

namespace MapFrames

/-- The reader that a splitter stands for. -/
def reader (m : MapFrames) : Reader UInt8 UInt32 where
  phase := if m.remaining = 0 then .header else .streaming
  header := m.lenBuf.take m.lenHave
  current := m.total
  remaining := m.remaining.toNat
  control := []

/-- The chunk that an item of the reader stands for. -/
def ofItem : Item UInt8 UInt32 → MapFrame
  | .control h payload => ⟨h, payload, true⟩
  | .body h chunk last => ⟨h, chunk, last⟩

theorem toNat_sub_take {remaining : UInt32} {n : ℕ} (h : n ≤ remaining.toNat) :
    (remaining - .ofNat n).toNat = remaining.toNat - n := by
  have hlt := remaining.toNat_lt
  have hn : (UInt32.ofNat n).toNat = n := UInt32.toNat_ofNat_of_lt' (Nat.lt_of_le_of_lt h hlt)
  rw [UInt32.toNat_sub_of_le, hn]
  rw [UInt32.le_iff_toNat_le, hn]
  exact h

/-- The body half of a call is a call on a streamed payload. -/
theorem feedBody_refines {m : MapFrames} (hne : m.remaining ≠ 0) (input : List UInt8) (pos : ℕ) :
    (m.feedBody input pos).1.reader =
        (advance pos (Format.feedStreaming (ε := Empty) m.reader (input.drop pos))).1 ∧
      Except.ok (m.feedBody input pos).2 =
        (advance pos (Format.feedStreaming (ε := Empty) m.reader (input.drop pos))).2.map
          fun o => (o.1, o.2.map ofItem) := by
  have hlen : (input.drop pos).length = input.length - pos := List.length_drop
  unfold feedBody Format.feedStreaming
  simp only [hlen]
  split_ifs with havail
  · exact ⟨rfl, rfl⟩
  have hrem : m.reader.remaining = m.remaining.toNat := rfl
  rw [hrem]
  generalize htake : min m.remaining.toNat (input.length - pos) = take
  have hsub := toNat_sub_take (show take ≤ m.remaining.toNat by omega)
  have hzero : (m.remaining - .ofNat take = 0) ↔ m.remaining.toNat - take = 0 := by
    rw [← hsub]
    exact UInt32.toNat_inj.symm
  have hslice : Bytes.slice input pos (pos + take) = (input.drop pos).take take := by
    rw [Bytes.slice, Nat.add_sub_cancel_left]
  by_cases hlast : m.remaining.toNat - take = 0
  · simp only [hlast, decide_true, cond_true]
    refine ⟨?_, ?_⟩
    · simp [reader, advance, hzero.mpr hlast]
    · simp [reader, advance, Except.map, ofItem, hzero.mpr hlast, hslice]
  · simp only [hlast, decide_false, cond_false]
    have hnz := mt hzero.mp hlast
    refine ⟨?_, ?_⟩
    · simp [reader, advance, hnz, hne, hsub]
    · simp [reader, advance, Except.map, ofItem, hnz, hslice]

/-- A call that does not complete a length keeps its bytes. -/
theorem feed_short {m : MapFrames} {input : List UInt8} (hrem : m.remaining = 0)
    (h : m.lenHave + input.length < 4) :
    ∃ m' : MapFrames, m.feed input = (m', input.length, none) ∧
      m'.lenBuf.take m'.lenHave = m.lenBuf.take m.lenHave ++ input ∧
      m'.remaining = m.remaining ∧ m'.total = m.total := by
  have hlen := m.lenBuf_length
  have hmin : min (4 - m.lenHave) input.length = input.length := by omega
  unfold feed
  rw [if_pos hrem, dif_pos (by rw [hmin]; exact h)]
  refine ⟨_, congrArg (_, ·, _) hmin, ?_, rfl, rfl⟩
  simp only [hmin, List.take_length]
  exact Bytes.take_blit rfl (by omega)

/-- A call that completes a length goes on with the body. -/
theorem feed_length {m : MapFrames} {input : List UInt8} {n : ℕ} {total : UInt32}
    (hrem : m.remaining = 0) (hn : m.lenHave + n = 4) (h : n ≤ input.length)
    (htotal : total = .ofNat (Bytes.fromLE (m.lenBuf.take m.lenHave ++ input.take n))) :
    ∃ m' : MapFrames, m'.lenHave = 0 ∧ m'.remaining = total ∧ m'.total = total ∧
      m.feed input =
        if total = 0 then (m', n, some ⟨0, [], true⟩) else m'.feedBody input n := by
  have hlen := m.lenBuf_length
  have hmin : min (4 - m.lenHave) input.length = n := by omega
  have hbuf : Bytes.blit m.lenBuf m.lenHave (input.take n) =
      m.lenBuf.take m.lenHave ++ input.take n := by
    have hlb := m.length_lenBuf_blit input
    rw [hmin] at hlb
    rw [← Bytes.take_blit (n := 4) ?_ (by omega), ← hlb, List.take_length]
    rw [List.length_take]
    omega
  have hbuf_length := m.length_lenBuf_blit input
  rw [hmin] at hbuf_length
  refine ⟨⟨Bytes.blit m.lenBuf m.lenHave (input.take n), 0, total, total, hbuf_length,
    by decide⟩, rfl, rfl, rfl, ?_⟩
  unfold feed
  rw [if_pos hrem, dif_neg (by omega)]
  subst hmin htotal
  rw [← hbuf]

theorem length_reader_header (m : MapFrames) : m.reader.header.length = m.lenHave := by
  have hlen := m.lenBuf_length
  have hhave := m.lenHave_lt
  show (m.lenBuf.take m.lenHave).length = m.lenHave
  rw [List.length_take]
  omega

theorem feedHeader_short {r : Reader UInt8 UInt32} {input : List UInt8}
    (h : r.header.length + input.length < 4) :
    mapFormat.feedHeader r input =
      ({ r with header := r.header ++ input }, .ok (input.length, none)) := by
  have hmin : min (mapFormat.headerLen - r.header.length) input.length = input.length := by
    show min (4 - r.header.length) input.length = input.length
    omega
  unfold Format.feedHeader
  simp only [hmin, List.take_length, List.length_append]
  exact if_pos h

theorem feedHeader_length {r : Reader UInt8 UInt32} {input : List UInt8} {n : ℕ} {total : UInt32}
    (hn : r.header.length + n = 4) (h : n ≤ input.length)
    (htotal : total = .ofNat (Bytes.fromLE (r.header ++ input.take n))) :
    mapFormat.feedHeader r input =
      if total.toNat = 0 then
        (⟨.header, [], total, total.toNat, []⟩, .ok (n, some (.body total [] true)))
      else advance n (Format.feedStreaming ⟨.streaming, [], total, total.toNat, []⟩ (input.drop n)) := by
  have hmin : min (mapFormat.headerLen - r.header.length) input.length = n := by
    show min (4 - r.header.length) input.length = n
    omega
  have hlen : ¬ (r.header ++ input.take n).length < mapFormat.headerLen := by
    show ¬ _ < 4
    rw [List.length_append, List.length_take]
    omega
  subst htotal
  unfold Format.feedHeader
  simp only [hmin, if_neg hlen]
  rfl

/-- **The splitter is the reader.** -/
theorem call_refines : Refines call mapFormat.feed reader ofItem := by
  intro m input
  have hhave := m.lenHave_lt
  have hlen := m.length_reader_header
  unfold call
  by_cases hrem : m.remaining = 0
  · have hfeed : mapFormat.feed m.reader input = mapFormat.feedHeader m.reader input := by
      rw [Format.feed, reader, if_pos hrem]
    rw [hfeed]
    rcases Nat.lt_or_ge (m.lenHave + input.length) 4 with hshort | hfull
    · obtain ⟨m', he, hbuf, hrem', htotal⟩ := feed_short hrem hshort
      rw [he, feedHeader_short (by rw [hlen]; exact hshort)]
      refine ⟨?_, rfl⟩
      simp only [reader, hbuf, hrem', htotal]
    · obtain ⟨n, hn⟩ : ∃ n, m.lenHave + n = 4 := ⟨4 - m.lenHave, by omega⟩
      have hle : n ≤ input.length := by omega
      obtain ⟨m', hhave', hrem', htotal, he⟩ := feed_length hrem hn hle rfl
      rw [he, feedHeader_length (by rw [hlen]; exact hn) hle rfl]
      have hread : m.reader.header = m.lenBuf.take m.lenHave := rfl
      rw [hread]
      generalize UInt32.ofNat (Bytes.fromLE (m.lenBuf.take m.lenHave ++ input.take n)) = total at *
      by_cases hzero : total = 0
      · subst hzero
        refine ⟨?_, rfl⟩
        simp [reader, hhave', hrem', htotal]
      · have hne : ¬ total.toNat = 0 := fun hz => hzero (UInt32.toNat.inj hz)
        have hr' : m'.reader = ⟨.streaming, [], total, total.toNat, []⟩ := by
          simp [reader, hhave', hrem', htotal, hzero]
        rw [if_neg hzero, if_neg hne, ← hr']
        exact feedBody_refines (by rw [hrem']; exact hzero) input n
  · have hfeed : mapFormat.feed m.reader input =
        advance 0 (Format.feedStreaming m.reader (input.drop 0)) := by
      rw [Format.feed, reader, if_neg hrem, List.drop_zero, advance_zero]
    rw [hfeed, show m.feed input = m.feedBody input 0 from if_neg hrem]
    exact feedBody_refines hrem input 0

end MapFrames

/-! ### Streams of bodies -/

/-- A map response as the server sends it. -/
structure MapBody where
  bytes : List UInt8
  fits : bytes.length < 2 ^ 32

namespace MapBody

/-- The length in front of the body. -/
def totalLen (b : MapBody) : UInt32 := .ofNat b.bytes.length

/-- The length and the body. -/
def wire (b : MapBody) : List UInt8 := Bytes.toLE 4 b.bytes.length ++ b.bytes

/-- The chunks that stand for one body: their bytes are the body, each
carries its length, and only the last one is marked.  No chunk is empty, but
for the one chunk of an empty body. -/
def Delivered (b : MapBody) (frames : List MapFrame) : Prop :=
  ∃ (chunks : List (List UInt8)) (final : List UInt8),
    frames = chunks.map (⟨b.totalLen, ·, false⟩) ++ [⟨b.totalLen, final, true⟩] ∧
      chunks.flatten ++ final = b.bytes ∧ (∀ c ∈ chunks, c ≠ []) ∧ (final = [] → b.bytes = [])

theorem toNat_totalLen (b : MapBody) : b.totalLen.toNat = b.bytes.length :=
  UInt32.toNat_ofNat_of_lt' b.fits

theorem decode_length (b : MapBody) :
    mapFormat.decode (Bytes.toLE 4 b.bytes.length) = b.totalLen := by
  show UInt32.ofNat (Bytes.fromLE _) = b.totalLen
  rw [Bytes.fromLE_toLE (Nat.lt_of_lt_of_le b.fits (by decide)), totalLen]

/-- The body, for the format. -/
def toWire (b : MapBody) : Wire mapFormat where
  head := Bytes.toLE 4 b.bytes.length
  payload := b.bytes
  head_length := Bytes.length_toLE _ _
  accepted := rfl
  payload_length := by
    rw [b.decode_length]
    exact b.toNat_totalLen.symm

/-- The items that stand for the body, as chunks. -/
theorem delivered_of_rendered {b : MapBody} {items : List (Item UInt8 UInt32)}
    (h : b.toWire.Rendered [] items) : b.Delivered (items.map MapFrames.ofItem) := by
  have hwhole : mapFormat.whole b.toWire.header = false := ite_self _
  unfold Wire.Rendered at h
  rw [hwhole, if_neg Bool.false_ne_true] at h
  obtain ⟨chunks, final, rfl, hpay, hchunks, hfinal⟩ := h
  have hheader : b.toWire.header = b.totalLen := b.decode_length
  refine ⟨chunks, final, ?_, hpay, hchunks, hfinal⟩
  rw [List.map_append, List.map_map, hheader]
  rfl

end MapBody

/-- The byte stream of a list of bodies. -/
def mapWires (bodies : List MapBody) : List UInt8 := (bodies.map MapBody.wire).flatten

/-- What the splitter hands back for a list of bodies. -/
def MapFrames.Delivered : List MapBody → List MapFrame → Prop
  | [], frames => frames = []
  | b :: bodies, frames =>
      ∃ first rest, frames = first ++ rest ∧ b.Delivered first ∧ Delivered bodies rest

namespace MapFrames

theorem delivered_of_rendering {bodies : List MapBody} {items : List (Item UInt8 UInt32)}
    (h : Rendering [] (bodies.map MapBody.toWire) items) :
    Delivered bodies (items.map ofItem) := by
  induction bodies generalizing items with
  | nil =>
    rw [h.2]
    rfl
  | cons b bodies ih =>
    obtain ⟨first, rest, rfl, hfirst, hrest⟩ := h
    refine ⟨_, _, List.map_append, MapBody.delivered_of_rendered hfirst, ih hrest⟩

/-- However the stream is cut into inputs, the chunks handed back are those of
its bodies in order. -/
theorem feedAll_delivered {bodies : List MapBody} {inputs : List (List UInt8)}
    (hbytes : inputs.flatten = mapWires bodies) :
    ∃ m frames, feedAll call .new inputs = (m, frames, .more) ∧ Delivered bodies frames := by
  have hstream : inputs.flatten = stream (bodies.map MapBody.toWire) := by
    rw [hbytes, stream, List.map_map]
    rfl
  obtain ⟨r, items, he, -, hr⟩ := feedAll_stream (At.start mapFormat 0) _ inputs hstream
  obtain ⟨m, -, he'⟩ := call_refines.feedAll_eq (r := .new) he
  exact ⟨m, items.map ofItem, he', delivered_of_rendering hr⟩

/-- **The bodies of a stream, and only them.**  However the stream is cut
into inputs, the chunks handed back are those of its bodies in order, and no
call on input stands still. -/
theorem feedAll_mapWires (bodies : List MapBody) (inputs : List (List UInt8))
    (hbytes : inputs.flatten = mapWires bodies) :
    (∃ m frames, feedAll call .new inputs = (m, frames, .more) ∧ Delivered bodies frames) ∧
      ∀ (m : MapFrames) (input : List UInt8), input ≠ [] →
        0 < (m.feed input).2.1 ∧ (m.feed input).2.1 ≤ input.length :=
  ⟨feedAll_delivered hbytes, fun m input hne => ⟨m.feed_used_pos hne, m.feed_used_le input⟩⟩

/-- A body of two bytes and a keep-alive, cut inside the first length and
inside the first body. -/
theorem feedAll_mapWires_cut :
    [[2, 0], [0, 0, 7], [8, 0, 0, 0, 0]].flatten = mapWires [⟨[7, 8], by decide⟩, ⟨[], by decide⟩] ∧
      ∃ m frames, feedAll call .new [[2, 0], [0, 0, 7], [8, 0, 0, 0, 0]] = (m, frames, .more) ∧
        Delivered [⟨[7, 8], by decide⟩, ⟨[], by decide⟩] frames :=
  ⟨by decide, (feedAll_mapWires _ _ (by decide)).1⟩

end MapFrames

end Lando
