/-
Lando/H2Batch.lean

A reader of HTTP/2 frames in the middle of a stream.

A client takes the decrypted bytes batch by batch, and a batch starts and ends
anywhere.  `Placed r frames n` says that the reader `r` stands behind the
first `n` bytes of `frames`; then a batch hands back what those bytes mean
(`Placed.batch`): the control frames and the ends of the frames that are
complete with it, and the DATA bytes that lie in it.

`complete frames n` and `dataIn on frames n` are these as functions of the
frames and a position, without a reader.
-/
import Lando.H2Frame
import Lando.Items

namespace Lando.H2

open Framing

/-! ### Positions in a stream -/

/-- The frames that end within the first `n` bytes. -/
def complete : List RawFrame → ℕ → List RawFrame
  | [], _ => []
  | f :: frames, n =>
      if f.wire.length ≤ n then f :: complete frames (n - f.wire.length) else []

/-- The DATA payload within the first `n` bytes, of the frames whose header
satisfies `on`. -/
def dataIn (on : FrameHeader → Bool) : List RawFrame → ℕ → List UInt8
  | [], _ => []
  | f :: frames, n =>
      (if f.kind = frameType.data ∧ on f.header then f.payload.take (n - frameHeaderLen) else []) ++
        dataIn on frames (n - f.wire.length)

namespace RawFrame

theorem length_wire (f : RawFrame) : f.wire.length = frameHeaderLen + f.payload.length := by
  rw [wire, List.length_append, f.length_head]

/-- The control frame that a frame is handed back as. -/
def asControl (f : RawFrame) : List (FrameHeader × List UInt8) :=
  if isControl f.kind then [(f.header, f.payload.take controlFrameMax)] else []

/-- The header of a frame that is streamed. -/
def asFinal (f : RawFrame) : List FrameHeader := if isControl f.kind then [] else [f.header]

/-- The payload of a DATA frame for someone. -/
def asData (on : FrameHeader → Bool) (f : RawFrame) : List UInt8 :=
  if f.kind = frameType.data ∧ on f.header then f.payload else []

theorem asControl_toWire (f : RawFrame) : f.toWire.asControl = f.asControl := by
  rw [Wire.asControl, f.whole_toWire, f.header_toWire]
  rfl

theorem asFinal_toWire (f : RawFrame) : f.toWire.asFinal = f.asFinal := by
  rw [Wire.asFinal, f.whole_toWire, f.header_toWire]
  rfl

end RawFrame

/-- DATA frames for someone. -/
def isData (on : FrameHeader → Bool) (h : FrameHeader) : Bool := h.kind == frameType.data && on h

theorem isData_header (on : FrameHeader → Bool) (f : RawFrame) :
    isData on f.header = true ↔ f.kind = frameType.data ∧ on f.header := by
  rw [isData, Bool.and_eq_true, beq_iff_eq]
  rfl

theorem isControl_data : isControl frameType.data = false := by decide

theorem RawFrame.asBody_toWire (on : FrameHeader → Bool) (f : RawFrame) :
    f.toWire.asBody (isData on) = f.asData on := by
  rw [Wire.asBody, f.whole_toWire, f.header_toWire, RawFrame.asData]
  by_cases h : isData on f.header = true
  · have hd := (isData_header on f).mp h
    rw [if_pos (by rw [h, hd.1, isControl_data]; rfl), if_pos hd]
    rfl
  · rw [if_neg (by rw [Bool.and_eq_true]; exact fun hc => h hc.1),
      if_neg fun hc => h ((isData_header on f).mpr hc)]

theorem wires_append (fs gs : List RawFrame) : wires (fs ++ gs) = wires fs ++ wires gs := by
  rw [wires, List.map_append, List.flatten_append, wires, wires]

theorem wires_cons (f : RawFrame) (frames : List RawFrame) :
    wires (f :: frames) = f.wire ++ wires frames := rfl

theorem dataIn_zero (on : FrameHeader → Bool) (frames : List RawFrame) : dataIn on frames 0 = [] := by
  induction frames with
  | nil => rfl
  | cons f frames ih =>
    rw [dataIn, Nat.zero_sub, Nat.zero_sub, List.take_zero, ih, ite_self]
    rfl

/-- `k` bytes that do not complete the first frame. -/
def Inside (frames : List RawFrame) (k : ℕ) : Prop := ∀ f fs, frames = f :: fs → k < f.wire.length

theorem complete_append (pre : List RawFrame) {post : List RawFrame} {k : ℕ} (h : Inside post k) :
    complete (pre ++ post) ((wires pre).length + k) = pre := by
  induction pre with
  | nil =>
    show complete post (0 + k) = []
    rw [Nat.zero_add]
    cases post with
    | nil => rfl
    | cons f post => rw [complete, if_neg (Nat.not_le.mpr (h f post rfl))]
  | cons f pre ih =>
    rw [List.cons_append, complete, wires_cons, List.length_append, if_pos (by omega),
      Nat.add_assoc, Nat.add_sub_cancel_left, ih]

/-- What `k` bytes hold of the payload of the first frame. -/
def partData (on : FrameHeader → Bool) (k : ℕ) : List RawFrame → List UInt8
  | [] => []
  | f :: _ => if f.kind = frameType.data ∧ on f.header then f.payload.take (k - frameHeaderLen) else []

theorem dataIn_append (on : FrameHeader → Bool) (pre : List RawFrame) {post : List RawFrame} {k : ℕ}
    (h : Inside post k) :
    dataIn on (pre ++ post) ((wires pre).length + k) =
      pre.flatMap (RawFrame.asData on) ++ partData on k post := by
  induction pre with
  | nil =>
    show dataIn on post (0 + k) = [] ++ _
    rw [Nat.zero_add, List.nil_append]
    cases post with
    | nil => rfl
    | cons f post =>
      rw [dataIn, Nat.sub_eq_zero_of_le (Nat.le_of_lt (h f post rfl)), dataIn_zero, List.append_nil]
      rfl
  | cons f pre ih =>
    have hall : f.payload.take ((wires (f :: pre)).length + k - frameHeaderLen) = f.payload := by
      apply List.take_of_length_le
      rw [wires_cons, List.length_append, f.length_wire]
      omega
    rw [List.cons_append, dataIn, hall, wires_cons, List.length_append, Nat.add_assoc,
      Nat.add_sub_cancel_left, ih, List.flatMap_cons, List.append_assoc]
    rfl

/-! ### A reader in the stream -/

/-- The reader stands behind the first `n` bytes of the frames. -/
def Placed (r : FrameReader) (frames : List RawFrame) (n : ℕ) : Prop :=
  ∃ pre post p rest, frames = pre ++ post ∧ wires post = p ++ rest ∧
    n = (wires pre).length + p.length ∧ At format r.reader p

theorem Placed.new (frames : List RawFrame) : Placed .new frames 0 :=
  ⟨[], frames, [], wires frames, rfl, rfl, rfl, At.start format ⟨0, 0, 0, 0⟩⟩

/-- Bytes in which no frame ends. -/
theorem inside_of_noFrame {post : List RawFrame} {p rest : List UInt8} (h : NoFrame format p)
    (hp : wires post = p ++ rest) : Inside post p.length := by
  rintro f post rfl
  by_contra hlt
  rw [wires_cons] at hp
  have htake := congrArg (List.take f.wire.length) hp
  rw [List.take_left, List.take_append_of_le_length (Nat.not_lt.mp hlt)] at htake
  refine h f.toWire (p.drop f.wire.length) ?_
  show p = f.wire ++ p.drop f.wire.length
  conv_lhs => rw [← List.take_append_drop f.wire.length p, ← htake]

/-- The chunks of an unfinished frame. -/
theorem streamed_eq {post : List RawFrame} {p rest : List UInt8} (on : FrameHeader → Bool)
    (hp : wires post = p ++ rest) (hin : Inside post p.length) :
    (if isData on (format.decode (p.take format.headerLen)) then format.streamed p else []) =
      partData on p.length post := by
  by_cases hshort : p.length < frameHeaderLen
  · have hnone : format.streamed p = [] := streamed_of_short hshort
    rw [hnone, ite_self]
    cases post with
    | nil => rfl
    | cons f post =>
      rw [partData, Nat.sub_eq_zero_of_le (Nat.le_of_lt hshort), List.take_zero, ite_self]
  · have hlong : frameHeaderLen ≤ p.length := Nat.not_lt.mp hshort
    cases post with
    | nil =>
      obtain ⟨rfl, -⟩ := List.append_eq_nil_iff.mp hp.symm
      exact absurd hlong (by decide)
    | cons f post =>
      have hlt := hin f post rfl
      -- the header of `f` and the first bytes of its payload
      have hwire : f.wire.take p.length = p := by
        have h := congrArg (List.take p.length) hp
        rwa [wires_cons, List.take_left, List.take_append_of_le_length (Nat.le_of_lt hlt)] at h
      have hhead : p.take frameHeaderLen = f.head := by
        rw [← hwire, List.take_take, Nat.min_eq_left hlong, RawFrame.wire,
          List.take_left' f.length_head]
      have hbody : p.drop frameHeaderLen = f.payload.take (p.length - frameHeaderLen) := by
        conv_lhs => rw [← hwire]
        rw [List.drop_take, RawFrame.wire, List.drop_left' f.length_head]
      have hdecode : format.decode (p.take format.headerLen) = f.header := by
        show parseHeader (p.take frameHeaderLen) = f.header
        rw [hhead, f.parseHeader_head]
      rw [hdecode, partData]
      by_cases hdata : isData on f.header = true
      · have hd := (isData_header on f).mp hdata
        have hstream : format.streamed p = p.drop frameHeaderLen := by
          rw [Format.streamed, hdecode, if_pos]
          · rfl
          · refine ⟨hlong, ?_⟩
            rw [← f.header_toWire, f.whole_toWire, hd.1]
            rfl
        rw [if_pos hdata, if_pos hd, hstream, hbody]
      · rw [if_neg hdata, if_neg fun h => hdata ((isData_header on f).mpr h)]

/-- A stream that starts with others. -/
theorem stream_prefix {fs gs : List (Wire format)} {t : List UInt8} (h : stream fs ++ t = stream gs) :
    ∃ gs', gs = fs ++ gs' ∧ stream gs' = t := by
  induction fs generalizing gs with
  | nil => exact ⟨gs, rfl, h.symm⟩
  | cons f fs ih =>
    rw [stream_cons, List.append_assoc] at h
    obtain ⟨gs', rfl, h'⟩ := stream_eq_frame h.symm
    obtain ⟨gs'', rfl, ht⟩ := ih h'.symm
    exact ⟨gs'', rfl, ht⟩

/-! ### Batches -/

/-- What the reader hands back for one batch. -/
def feedBatch (r : FrameReader) (batch : List UInt8) : FrameReader × List Item :=
  let res := feedInput FrameReader.call batch.length r batch
  (res.1, res.2.1)

/-- The DATA bytes of every stream. -/
def everyStream (_ : FrameHeader) : Bool := true

theorem account_eq (w : UInt32) (item : Option Item) :
    FrameReader.account w item =
      w + .ofNat (bodies (isData everyStream) item.toList).flatten.length := by
  match item with
  | none => exact (UInt32.add_zero w).symm
  | some (.control h payload) => exact (UInt32.add_zero w).symm
  | some (.body h chunk last) =>
    show (if h.kind = frameType.data then w + .ofNat chunk.length else w) = _
    by_cases hdata : h.kind = frameType.data
    · have hon : isData everyStream h = true := by rw [isData, hdata]; rfl
      rw [if_pos hdata]
      simp [bodies, hon]
    · have hoff : isData everyStream h = false := by
        rw [isData, Bool.and_eq_false_iff]
        exact .inl (beq_eq_false_iff_ne.mpr hdata)
      rw [if_neg hdata]
      simp [bodies, hoff]

/-- The reader counts the DATA bytes it hands back. -/
theorem pendingWindow_feedInput (k : ℕ) (r : FrameReader) (input : List UInt8) :
    (feedInput FrameReader.call k r input).1.pendingWindow = r.pendingWindow +
      .ofNat (bodies (isData everyStream)
        (feedInput FrameReader.call k r input).2.1).flatten.length := by
  induction k generalizing r input with
  | zero =>
    cases input with
    | nil => exact (UInt32.add_zero _).symm
    | cons b bs => exact (UInt32.add_zero _).symm
  | succ k ih =>
    cases input with
    | nil => exact (UInt32.add_zero _).symm
    | cons b bs =>
      rw [feedInput, FrameReader.call]
      simp only
      rw [ih, bodies_append, List.flatten_append, List.length_append, UInt32.ofNat_add,
        ← UInt32.add_assoc]
      congr 1
      have hfeed : (r.feed (b :: bs)).1.pendingWindow =
          FrameReader.account r.pendingWindow (r.feed (b :: bs)).2.2 := by
        unfold FrameReader.feed
        rcases format.feed r.reader (b :: bs) with ⟨reader, e | ⟨used, item⟩⟩
        · exact e.elim
        · rfl
      rw [hfeed, account_eq]

/-- A reader in some stream. -/
def Standing (r : FrameReader) : Prop := ∃ p, At format r.reader p

theorem Placed.standing {r : FrameReader} {frames : List RawFrame} {n : ℕ}
    (h : Placed r frames n) : Standing r := by
  obtain ⟨-, -, p, -, -, -, -, hat⟩ := h
  exact ⟨p, hat⟩

/-- A call uses some of its input. -/
theorem Standing.feed {r r' : FrameReader} {input : List UInt8} {n : ℕ} {item : Option Item}
    (h : Standing r) (hne : input ≠ []) (he : r.feed input = (r', n, item)) :
    0 < n ∧ n ≤ input.length ∧ Standing r' := by
  obtain ⟨p, hat⟩ := h
  have hspec := feed_spec hat input
  rw [FrameReader.feed] at he
  rcases hf : format.feed r.reader input with ⟨reader, e | ⟨used, item'⟩⟩
  · exact e.elim
  · rw [hf] at he hspec
    simp only [Prod.mk.injEq] at he
    obtain ⟨rfl, rfl, rfl⟩ := he
    refine ⟨hspec.used_pos hne, ?_, ?_⟩
    · cases hspec with
      | more => exact Nat.le_refl _
      | control f place pos le => exact le
      | last f place pos le => exact le
      | chunk => exact Nat.le_refl _
    · cases hspec with
      | more place => exact ⟨_, place⟩
      | control f place => exact ⟨_, place⟩
      | last f place => exact ⟨_, place⟩
      | chunk place => exact ⟨_, place⟩

/-- As many calls as there are bytes are enough. -/
theorem Standing.feedInput_fuel {r : FrameReader} {input : List UInt8} {k : ℕ} (h : Standing r)
    (hk : input.length ≤ k) :
    feedInput FrameReader.call k r input = feedInput FrameReader.call input.length r input := by
  induction k using Nat.strong_induction_on generalizing r input with
  | _ k ih =>
    cases input with
    | nil => rw [feedInput, feedInput]
    | cons b bs =>
      rw [List.length_cons] at hk
      obtain ⟨k, rfl⟩ : ∃ j, k = j + 1 := ⟨k - 1, by omega⟩
      rw [List.length_cons, feedInput, feedInput, FrameReader.call]
      rcases he : r.feed (b :: bs) with ⟨r', n, item⟩
      obtain ⟨hpos, -, hnext⟩ := h.feed (List.cons_ne_nil b bs) he
      have hlen : ((b :: bs).drop n).length ≤ bs.length := by
        rw [List.length_drop, List.length_cons]
        omega
      simp only
      rw [ih k (by omega) hnext (by omega), ih bs.length (by omega) hnext hlen]

/-- A batch, call by call. -/
theorem Standing.feedBatch {r r' : FrameReader} {input : List UInt8} {n : ℕ} {item : Option Item}
    (h : Standing r) (hne : input ≠ []) (he : r.feed input = (r', n, item)) :
    H2.feedBatch r input = ((H2.feedBatch r' (input.drop n)).1,
      item.toList ++ (H2.feedBatch r' (input.drop n)).2) := by
  obtain ⟨hpos, -, hnext⟩ := h.feed hne he
  cases input with
  | nil => exact absurd rfl hne
  | cons b bs =>
    have hlen : ((b :: bs).drop n).length ≤ bs.length := by
      rw [List.length_drop, List.length_cons]
      omega
    unfold H2.feedBatch
    simp only [List.length_cons, feedInput, FrameReader.call, he]
    rw [hnext.feedInput_fuel hlen]

/-- What a batch of the stream `frames`, from position `n`, means. -/
structure BatchSpec (frames : List RawFrame) (n : ℕ) (batch : List UInt8) (r r' : FrameReader)
    (items : List Item) : Prop where
  placed : Placed r' frames (n + batch.length)
  /-- The frames `mid` are complete with the batch. -/
  completed : ∃ mid, complete frames (n + batch.length) = complete frames n ++ mid ∧
    controls items = mid.flatMap RawFrame.asControl ∧ finals items = mid.flatMap RawFrame.asFinal
  /-- The DATA bytes in the batch are handed back. -/
  data : ∀ on, dataIn on frames n ++ (bodies (isData on) items).flatten =
    dataIn on frames (n + batch.length)

/-- **A batch means what its bytes are**, wherever it starts and ends. -/
theorem Placed.batch {r : FrameReader} {frames : List RawFrame} {n : ℕ} {batch rest : List UInt8}
    (h : Placed r frames n) (hbatch : (wires frames).drop n = batch ++ rest) :
    BatchSpec frames n batch r (feedBatch r batch).1 (feedBatch r batch).2 := by
  obtain ⟨pre, post, p, rest', rfl, hpost, rfl, hat⟩ := h
  have hrest : rest' = batch ++ rest := by
    rw [wires_append, hpost, ← List.append_assoc] at hbatch
    rwa [List.drop_left' List.length_append] at hbatch
  subst hrest
  have hspec := feedInput_spec batch.length hat (Nat.le_refl _)
  obtain ⟨h₁, h₂, -⟩ := FrameReader.call_refines.feedInput batch.length r batch
  rw [List.map_id_fun, id] at h₂
  have hitems : (feedBatch r batch).2 = (feedInput format.feed batch.length r.reader batch).2.1 := h₂
  have hreader : (feedBatch r batch).1.reader =
      (feedInput format.feed batch.length r.reader batch).1 := h₁
  rcases hfeed : feedInput format.feed batch.length r.reader batch with ⟨reader, items, ending⟩
  rw [hfeed] at hspec hitems hreader
  cases hspec with
  | failed => exact nomatch ‹Empty›
  | @more _ fs p' _ place split renders =>
    -- the frames that the batch completes are the next ones of the stream
    have hstream : stream fs ++ (p' ++ rest) = stream (post.map RawFrame.toWire) := by
      rw [stream_toWire, hpost, ← List.append_assoc, ← List.append_assoc, ← split]
    obtain ⟨gs, hgs, hrest⟩ := stream_prefix hstream
    obtain ⟨mid, post', rfl, rfl, rfl⟩ := List.map_eq_append_iff.mp hgs
    rw [stream_toWire] at hrest split
    have hin := inside_of_noFrame hat.noFrame hpost
    have hin' := inside_of_noFrame place.noFrame hrest
    have hlen : (wires pre).length + p.length + batch.length =
        (wires (pre ++ mid)).length + p'.length := by
      have h := congrArg List.length split
      rw [List.length_append, List.length_append] at h
      rw [wires_append, List.length_append]
      omega
    have hat' : At format (feedBatch r batch).1.reader p' := by
      rw [hreader]
      exact place
    refine ⟨?_, ⟨mid, ?_, ?_, ?_⟩, ?_⟩
    · exact ⟨pre ++ mid, post', p', rest, (List.append_assoc _ _ _).symm, hrest, hlen, hat'⟩
    · rw [hlen, ← List.append_assoc, complete_append (pre ++ mid) hin', List.append_assoc,
        complete_append pre hin]
    · rw [hitems, renders.controls, List.flatMap_map]
      exact List.flatMap_congr fun f _ => f.asControl_toWire
    · rw [hitems, renders.finals, List.flatMap_map]
      exact List.flatMap_congr fun f _ => f.asFinal_toWire
    · intro on
      have hbodies := renders.bodies (isData on)
      have hfirst : (if isData on (firstHeader (mid.map RawFrame.toWire) p') then format.streamed p
          else []) = partData on p.length (mid ++ post') := by
        rw [← streamed_eq on hpost hin]
        by_cases hshort : p.length < frameHeaderLen
        · have hnone : format.streamed p = [] := streamed_of_short hshort
          rw [hnone, ite_self, ite_self]
        · rw [← stream_toWire] at split
          rw [firstHeader_eq split (Nat.not_lt.mp hshort)]
      have hmid : (mid.map RawFrame.toWire).flatMap (Wire.asBody (isData on)) =
          mid.flatMap (RawFrame.asData on) := by
        rw [List.flatMap_map]
        exact List.flatMap_congr fun f _ => f.asBody_toWire on
      rw [hfirst, hmid, streamed_eq on hrest hin'] at hbodies
      rw [hitems, hlen, dataIn_append on pre hin, ← List.append_assoc pre,
        dataIn_append on (pre ++ mid) hin', List.flatMap_append, List.append_assoc,
        List.append_assoc, hbodies]

end Lando.H2
