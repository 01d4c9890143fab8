/-
Lando/FwPost.lean

A POST of the firmware (`post_stream` in `lando-fw/src/h2conn.rs`).

The request goes out first: a HEADERS frame, and the body in DATA frames of
which each fits in one record.  Then the firmware takes batch after batch.
While it parses one it hands DATA to the consumer and puts control frames
aside, the first four of them; it answers these when the batch is used up, and
returns the credit of the batch to the connection.

`respond_eq` says what a batch leads to, in terms of its items.
-/
import Lando.FwH2Conn
import Lando.H2Run

namespace Lando.Fw.Post

open Framing H2

variable {σ ε : Type}

/-! ### The request -/

/-- `MAX_PLAINTEXT_SIZE - FRAME_HEADER_LEN`. -/
def chunkMax : ℕ := Noise.maxPlaintextSize - frameHeaderLen

/-- The DATA frames of a body of `len` bytes, from chunk `i` on. -/
def sendBody (T : Transport σ ε) (streamId : UInt32) (len : ℕ) :
    ℕ → Exchange σ → List (List UInt8) → Exchange σ × Option (Failure ε)
  | _, x, [] => (x, none)
  | i, x, chunk :: chunks =>
      let last : Bool := len ≤ (i + 1) * chunkMax
      match x.write T Noise.maxPlaintextSize (Writer.data streamId chunk last) with
      | (x, some e) => (x, some e)
      | (x, none) => sendBody T streamId len (i + 1) x chunks

/-- The request of `post_stream`. -/
def sendRequest (T : Transport σ ε) (x : Exchange σ) (streamId : UInt32)
    (authority path : String) (body : List UInt8) : Exchange σ × Option (Failure ε) :=
  match x.write T 320 (Writer.postHeaders streamId authority path (.ofNat body.length)) with
  | (x, some e) => (x, some e)
  | (x, none) => sendBody T streamId body.length 0 x (Bytes.chunks chunkMax body)

/-! ### The response -/

/-- What was found in a batch. -/
structure Parsed where
  handed : List (List UInt8)
  acks : List (FrameHeader × List UInt8)
  done : Bool
  deriving DecidableEq

/-- The room for control frames. -/
def maxAcks : ℕ := 4

/-- The body of the parsing loop. -/
def take (streamId : UInt32) (p : Parsed) : Item → Parsed × Option Empty
  | .control header payload =>
      (if p.acks.length < maxAcks then { p with acks := p.acks ++ [(header, payload)] } else p, none)
  | .body header chunk last =>
      let handed :=
        if header.kind = frameType.data ∧ header.streamId = streamId then p.handed ++ [chunk]
        else p.handed
      -- END_STREAM reads as set for every chunk; only the last one ends it
      let done := if last ∧ header.isEndStream ∧ header.streamId = streamId then true else p.done
      ({ p with handed := handed, done := done }, none)

/-- `handle_control`. -/
def handleControl (T : Transport σ ε) (x : Exchange σ) (cf : FrameHeader × List UInt8) :
    Exchange σ × Option (Failure ε) :=
  x.handleControl T (fun _ _ => .server) cf

/-- The body of the loop of `post_stream`, once something waits. -/
def respond (T : Transport σ ε) (streamId : UInt32) (x : Exchange σ) : Exchange σ × Turned ε :=
  let scratch := T.buffered x.link
  match feedLoop (take streamId) scratch scratch.length x.reader ⟨[], [], false⟩ 0 with
  | (reader, parsed, offset, _) =>
      let x := { x with
        link := T.consume x.link offset
        reader := reader
        received := x.received ++ [scratch]
        handed := x.handed ++ parsed.handed }
      match steps (handleControl T) x parsed.acks with
      | (x, some e) => (x, .failed e)
      | (x, none) => x.endTurn T parsed.done

/-- The loop of `post_stream`, with at most `k` turns. -/
def readResponse (T : Transport σ ε) (streamId : UInt32) (k : ℕ) (x : Exchange σ) :
    Exchange σ × Turned ε :=
  run (turn T (respond T streamId)) k x

/-- `post_stream`, with at most `k` turns for the response. -/
def postStream (T : Transport σ ε) (authority path : String) (body : List UInt8) (k : ℕ)
    (x : Exchange σ) : Exchange σ × Turned ε :=
  let streamId := x.nextStream
  let x := { x with nextStream := x.nextStream + 2 }
  match sendRequest T x streamId authority path body with
  | (x, some e) => (x, .failed e)
  | (x, none) => readResponse T streamId k x

theorem requested_sendBody (T : Transport σ ε) (streamId : UInt32) (len i : ℕ) (x : Exchange σ)
    (chunks : List (List UInt8)) :
    Requested T x (sendBody T streamId len i x chunks).1 (sendBody T streamId len i x chunks).2 := by
  induction chunks generalizing i x with
  | nil => exact .nil T x
  | cons chunk chunks ih =>
    rw [sendBody]
    generalize decide (len ≤ (i + 1) * chunkMax) = last
    have hwrite := Requested.write (T := T) x (n := Noise.maxPlaintextSize)
      (m := Writer.data streamId chunk last) fun _ => asks_data
    rcases he : x.write T Noise.maxPlaintextSize (Writer.data streamId chunk last) with ⟨y, - | e⟩
    · rw [he] at hwrite
      exact hwrite.trans (ih (i + 1) y)
    · rw [he] at hwrite
      exact hwrite

theorem requested_sendRequest (T : Transport σ ε) (x : Exchange σ) (streamId : UInt32)
    (authority path : String) (body : List UInt8) :
    Requested T x (sendRequest T x streamId authority path body).1
      (sendRequest T x streamId authority path body).2 := by
  unfold sendRequest
  have hwrite := Requested.write (T := T) x (n := 320)
    (m := Writer.postHeaders streamId authority path (.ofNat body.length))
    fun _ => asks_postHeaders
  rcases he : x.write T 320 (Writer.postHeaders streamId authority path (.ofNat body.length)) with
    ⟨y, - | e⟩
  · rw [he] at hwrite
    exact hwrite.trans (requested_sendBody T streamId _ 0 y _)
  · rw [he] at hwrite
    exact hwrite

/-! ### A batch -/

theorem steps_take (streamId : UInt32) (p : Parsed) (hp : p.acks.length ≤ maxAcks)
    (items : List Item) :
    steps (take streamId) p items =
      (⟨p.handed ++ bodies (isData (onStream streamId)) items,
        (p.acks ++ controls items).take maxAcks,
        p.done || (finals items).any (ends streamId)⟩, none) := by
  induction items generalizing p with
  | nil =>
    rw [steps, bodies, controls, finals, List.append_nil, List.append_nil, List.any_nil,
      Bool.or_false, List.take_of_length_le hp]
  | cons item items ih =>
    rw [steps]
    cases item with
    | control h payload =>
      rw [take]
      by_cases hroom : p.acks.length < maxAcks
      · simp only [hroom, if_true]
        rw [ih _ (by rw [List.length_append]; exact hroom), List.append_assoc]
        rfl
      · simp only [hroom, if_false]
        rw [ih _ hp, bodies, controls, finals,
          List.take_append_of_le_length (Nat.not_lt.mp hroom),
          List.take_append_of_le_length (Nat.not_lt.mp hroom)]
        rintro _ _ ⟨⟩
    | body h chunk last =>
      rw [take]
      simp only
      rw [ih _ (by exact hp)]
      have hhanded : (if h.kind = frameType.data ∧ h.streamId = streamId then p.handed ++ [chunk]
          else p.handed) ++ bodies (isData (onStream streamId)) items =
            p.handed ++ bodies (isData (onStream streamId)) (.body h chunk last :: items) := by
        rw [bodies]
        by_cases hon : h.kind = frameType.data ∧ h.streamId = streamId
        · rw [if_pos hon, if_pos ((isData_onStream streamId h).mpr hon), List.append_assoc]
          rfl
        · rw [if_neg hon, if_neg fun hd => hon ((isData_onStream streamId h).mp hd)]
      rw [hhanded, any_ends_body streamId h chunk]
      rfl

/-- What a batch leads to. -/
theorem respond_eq (T : Transport σ ε) (streamId : UInt32) {x : Exchange σ}
    (h : Standing x.reader) :
    respond T streamId x =
      let batch := T.buffered x.link
      let items := (feedBatch x.reader batch).2
      let y := { x with
        link := T.consume x.link batch.length
        reader := (feedBatch x.reader batch).1
        received := x.received ++ [batch]
        handed := x.handed ++ bodies (isData (onStream streamId)) items }
      match steps (handleControl T) y ((controls items).take maxAcks) with
      | (y, some e) => (y, .failed e)
      | (y, none) => y.endTurn T ((finals items).any (ends streamId)) := by
  have hloop := (feedLoop_batch (take streamId) (⟨[], [], false⟩ : Parsed) h
    (T.buffered x.link)).1
  have hsteps := steps_take streamId ⟨[], [], false⟩ (Nat.zero_le _)
    (feedBatch x.reader (T.buffered x.link)).2
  simp only [List.nil_append, Bool.false_or] at hsteps
  unfold respond
  simp only [hloop _ hsteps]

theorem steps_control (T : Transport σ ε) (x : Exchange σ) (cs : List (FrameHeader × List UInt8)) :
    steps (handleControl T) x cs =
      let (link, msgs, out) := replies T (fun _ _ => .server) x.link cs
      ({ x with link := link, sent := x.sent ++ msgs }, out) :=
  steps_handleControl T (fun _ _ => .server) x cs

/-- **The firmware heeds the first four control frames of a batch.** -/
theorem responds (T : Transport σ ε) (streamId : UInt32) :
    Responds T streamId (List.take maxAcks) (respond T streamId) where
  kept x := by
    unfold respond
    simp only
    rcases feedLoop (take streamId) (T.buffered x.link) (T.buffered x.link).length x.reader
      ⟨[], [], false⟩ 0 with ⟨reader, parsed, offset, -⟩
    simp only [steps_control]
    rcases replies T (fun _ _ => .server) (T.consume x.link offset) parsed.acks with
      ⟨link, msgs, - | e⟩
    · obtain ⟨link', reader', msgs', hend⟩ := Exchange.endTurn_kept (T := T) { x with
        link := link
        reader := reader
        received := x.received ++ [T.buffered x.link]
        sent := x.sent ++ msgs
        handed := x.handed ++ parsed.handed } parsed.done
      show (Exchange.endTurn T _ _).1.received = _ ∧ (Exchange.endTurn T _ _).1.nextStream = _
      rw [hend]
      exact ⟨rfl, rfl⟩
    · exact ⟨rfl, rfl⟩
  responded := by
    intro frames n x rest hready hbatch
    have hlen := T.buffered_lt hready.sound
    rw [respond_eq T streamId hready.placed.standing]
    simp only [steps_control, hready.controls hbatch]
    rcases he : replies T (fun _ _ => .server) (T.consume x.link (T.buffered x.link).length)
      ((controlsOf (fresh frames n (T.buffered x.link).length)).take maxAcks) with ⟨link, msgs, out⟩
    have hreplied := replied T (fun _ _ => .server) (T.consume x.link (T.buffered x.link).length)
      ((controlsOf (fresh frames n (T.buffered x.link).length)).take maxAcks)
    rw [he] at hreplied
    cases out with
    | none =>
      obtain ⟨hmsgs, hspared⟩ := hreplied.ok rfl
      exact hready.endTurn hbatch hlen (hreplied.sound (T.sound_consume hready.sound)) _ hmsgs hspared
    | some e =>
      intro hclosed
      rcases hreplied.failed e rfl with ⟨e', rfl⟩ | ⟨cf, hcf, -⟩
      · exact hclosed.elim
      · exact ⟨cf, hcf⟩

/-! ### The transport -/

/-- The text lies within its buffer. -/
structure Held (conn : H2Conn) : Prop where
  pos_le : conn.pendingPos ≤ conn.pending.length
  pending_le : conn.pending.length ≤ H2Conn.pendingCap

theorem held_available {conn : H2Conn} (h : Held conn) : conn.available.length < 2 ^ 31 := by
  have := h.pending_le
  rw [H2Conn.available, List.length_drop]
  exact Nat.lt_of_le_of_lt (Nat.le_trans (Nat.sub_le _ _) this) (by decide)

theorem held_consume {conn : H2Conn} (h : Held conn) :
    Held (conn.consume conn.available.length) := by
  refine ⟨?_, h.pending_le⟩
  have := h.pos_le
  show conn.pendingPos + conn.available.length ≤ conn.pending.length
  rw [H2Conn.available, List.length_drop]
  omega

theorem held_drainLoop {A : Aead} {k : ℕ} {conn : H2Conn} {rest : List UInt8} (h : Held conn) :
    Held (H2Conn.drainLoop A k conn rest).1 := by
  induction k generalizing conn rest with
  | zero => exact h
  | succ k ih =>
    rw [H2Conn.drainLoop]
    simp only
    split_ifs with hshort hlong hpart herror hfull
    · exact h
    · exact h
    · exact h
    · exact h
    · exact h
    · split
      · exact h
      · rename_i session text hread
        have htext := (Noise.Session.readRecord_ok hread).2
        have hbody : (Bytes.slice rest Noise.headerLen (Noise.headerLen +
            (Noise.parseHeader (rest.take Noise.headerLen)).2)).length ≤
              (Noise.parseHeader (rest.take Noise.headerLen)).2 := by
          rw [Bytes.slice, List.length_take]
          omega
        refine ih ⟨?_, ?_⟩
        · have := h.pos_le
          rw [List.length_append]
          exact Nat.le_trans this (Nat.le_add_right _ _)
        · rw [List.length_append]
          omega

theorem held_drainRecords {A : Aead} {conn : H2Conn} (h : Held conn) :
    Held (H2Conn.drainRecords A conn).1 := by
  have hreclaim : Held conn.reclaim := by
    refine ⟨Nat.zero_le _, ?_⟩
    have := h.pending_le
    show (conn.pending.drop conn.pendingPos).length ≤ H2Conn.pendingCap
    rw [List.length_drop]
    omega
  have hloop : Held (H2Conn.drainLoop A conn.reclaim.raw.length conn.reclaim conn.reclaim.raw).1 :=
    held_drainLoop hreclaim
  unfold H2Conn.drainRecords
  simp only
  rcases hres : H2Conn.drainLoop A conn.reclaim.raw.length conn.reclaim conn.reclaim.raw with
    ⟨conn', rest, e | u⟩
  · rw [hres] at hloop
    exact hloop
  · rw [hres] at hloop
    exact ⟨hloop.pos_le, hloop.pending_le⟩

theorem held_pumpLoop {A : Aead} {before k : ℕ} {conn : H2Conn} {socket : List (List UInt8)}
    (h : Held conn) : Held (H2Conn.pumpLoop A before k conn socket).1 := by
  induction k generalizing conn socket with
  | zero => exact h
  | succ k ih =>
    rw [H2Conn.pumpLoop]
    split_ifs
    · exact h
    · split
      · exact h
      · exact h
      · rename_i b bs socket' hread
        have hstage : Held { conn with raw := conn.raw ++ b :: bs } := ⟨h.pos_le, h.pending_le⟩
        have hdrain := held_drainRecords (A := A) hstage
        split
        · rename_i conn' e hres
          rw [hres] at hdrain
          exact hdrain
        · rename_i conn' hres
          rw [hres] at hdrain
          split_ifs
          · exact hdrain
          · exact ih hdrain

theorem held_pump {A : Aead} {conn : H2Conn} {socket : List (List UInt8)} (h : Held conn) :
    Held (conn.pump A socket).1 := by
  have hdrain := held_drainRecords (A := A) h
  unfold H2Conn.pump
  simp only
  split
  · rename_i conn' e hres
    rw [hres] at hdrain
    exact hdrain
  · rename_i conn' hres
    rw [hres] at hdrain
    split_ifs
    · exact hdrain
    · exact held_pumpLoop hdrain

/-- How a pump of the firmware ended. -/
def pumped : H2Conn.Pumped → Pumped H2Error
  | .ready => .ready
  | .waiting => .waiting
  | .failed e => .failed e

/-- Sending touches the session only. -/
theorem send_ok {A : Aead} {t t' : H2Conn × List (List UInt8)} {m : List UInt8}
    (h : (t.1.send A m).map (fun r => (r.1, t.2)) = .ok t') :
    ∃ session, t' = ({ t.1 with session := session }, t.2) := by
  unfold H2Conn.send at h
  rcases hs : H2Conn.sendChunks A t.1.session (Bytes.chunks Noise.maxPlaintextSize m) with
    e | ⟨session, written⟩
  · rw [hs] at h
    cases h
  · rw [hs] at h
    exact ⟨session, (Except.ok.inj h).symm⟩

theorem send_consume (A : Aead) (t : H2Conn × List (List UInt8)) (n : ℕ) (m : List UInt8) :
    ((t.1.consume n).send A m).map (fun r => (r.1, t.2)) =
      ((t.1.send A m).map fun r => (r.1, t.2)).map fun t => (t.1.consume n, t.2) := by
  have hsession : (t.1.consume n).session = t.1.session := rfl
  unfold H2Conn.send
  rw [hsession]
  rcases H2Conn.sendChunks A t.1.session (Bytes.chunks Noise.maxPlaintextSize m) with
    e | ⟨session, written⟩
  · rfl
  · rfl

/-- The connection of the firmware and its socket. -/
def firmware (A : Aead) : Transport (H2Conn × List (List UInt8)) H2Error where
  buffered t := t.1.available
  pump t :=
    let (conn, socket, out) := t.1.pump A t.2
    ((conn, socket), pumped out)
  consume t n := (t.1.consume n, t.2)
  send t msg := (t.1.send A msg).map fun r => (r.1, t.2)
  Sound t := Held t.1
  buffered_lt := held_available
  sound_pump := fun h _ => held_pump h
  sound_consume := held_consume
  sound_send := by
    intro t t' m h he
    obtain ⟨session, rfl⟩ := send_ok he
    exact ⟨h.pos_le, h.pending_le⟩
  buffered_send := by
    intro t t' m he
    obtain ⟨session, rfl⟩ := send_ok he
    rfl
  send_consume := send_consume A

end Lando.Fw.Post
