/-
Lando/H2Client.lean

What the two HTTP/2 clients have in common (`lando-fw/src/h2conn.rs`,
`lando-host/src/transport.rs`).

A client works over a `Transport`: bytes that were decrypted and wait, a way
to get more, and a way to send.  It takes everything that waits as one batch,
feeds it to the frame reader and reacts to the items (`feedLoop`), answers
control frames (`handleControl`) and returns flow-control credit
(`replenishWindow`).  An `Exchange` is such a client with a record of what it
received, of what it sent and of what it handed to its consumer.

The loops of the clients are folds over the items of a batch
(`feedLoop_spec`).
-/
import Lando.H2Batch
import Lando.H2Writer

namespace Lando.H2

open Framing

/-! ### Transports -/

/-- How a pump ended. -/
inductive Pumped (ε : Type)
  | ready
  | waiting
  | failed (e : ε)
  deriving DecidableEq

/-- An encrypted byte stream, as a client uses it.  `Sound` is what its
operations keep, and bounds what waits. -/
structure Transport (σ ε : Type) where
  buffered : σ → List UInt8
  pump : σ → σ × Pumped ε
  consume : σ → ℕ → σ
  send : σ → List UInt8 → Except ε σ
  Sound : σ → Prop
  buffered_lt : ∀ {t}, Sound t → (buffered t).length < 2 ^ 31
  sound_pump : ∀ {t}, Sound t → buffered t = [] → Sound (pump t).1
  sound_consume : ∀ {t}, Sound t → Sound (consume t (buffered t).length)
  sound_send : ∀ {t t' m}, Sound t → send t m = .ok t' → Sound t'
  buffered_send : ∀ {t t' m}, send t m = .ok t' → buffered t' = buffered t
  send_consume : ∀ t n m, send (consume t n) m = (send t m).map (consume · n)

/-- Why a call failed. -/
inductive Failure (ε : Type)
  /-- The transport. -/
  | link (e : ε)
  /-- A frame that did not fit in its buffer. -/
  | frame
  /-- "server closed the stream". -/
  | server
  /-- "server sent GOAWAY". -/
  | goaway (code : ℕ) (debug : List UInt8)
  /-- "server reset the stream". -/
  | reset (code : ℕ)
  /-- The consumer of the response. -/
  | consumer
  deriving DecidableEq

/-- The server ended the call. -/
def Failure.Closed {ε : Type} : Failure ε → Prop
  | server => True
  | goaway _ _ => True
  | reset _ => True
  | _ => False

/-- A client at work: with the batches it took up, what it sent, message by
message, and what it handed to its consumer. -/
structure Exchange (σ : Type) where
  link : σ
  reader : FrameReader
  nextStream : UInt32
  received : List (List UInt8)
  sent : List (List UInt8)
  handed : List (List UInt8)

variable {σ ε : Type}

/-! ### Sending -/

/-- Writes a frame into a buffer of `outLen` bytes. -/
@[irreducible] def encode (outLen : ℕ) (m : WriterM Unit) : Except (Failure ε) (List UInt8) :=
  match Writer.exec m (.new (List.replicate outLen 0)) with
  | (.ok (), w) => .ok w.written
  | (.error _, _) => .error .frame

namespace Exchange

/-- One message over the link, which is recorded as sent. -/
def send (T : Transport σ ε) (x : Exchange σ) (msg : List UInt8) :
    Exchange σ × Option (Failure ε) :=
  match T.send x.link msg with
  | .error e => (x, some (.link e))
  | .ok link => ({ x with link := link, sent := x.sent ++ [msg] }, none)

/-- Writes a frame and sends it. -/
def write (T : Transport σ ε) (x : Exchange σ) (outLen : ℕ) (m : WriterM Unit) :
    Exchange σ × Option (Failure ε) :=
  match encode outLen m with
  | .error e => (x, some e)
  | .ok msg => x.send T msg

/-- `handle_control`; `closed` is the error of a client for a frame that ends
the call. -/
def handleControl (T : Transport σ ε) (closed : FrameHeader → List UInt8 → Failure ε)
    (x : Exchange σ) (cf : FrameHeader × List UInt8) : Exchange σ × Option (Failure ε) :=
  if cf.1.kind = frameType.settings ∧ cf.1.flags &&& flag.ack = 0 then
    x.write T 64 Writer.settingsAck
  else if cf.1.kind = frameType.ping ∧ cf.1.flags &&& flag.ack = 0 then
    x.write T 64 (Writer.pingAck cf.2)
  else if cf.1.kind = frameType.goaway ∨ cf.1.kind = frameType.rstStream then
    (x, some (closed cf.1 cf.2))
  else (x, none)

/-- Returns consumed flow-control credit. -/
def replenishWindow (T : Transport σ ε) (x : Exchange σ) : Exchange σ × Option (Failure ε) :=
  let (reader, owed) := x.reader.takePendingWindow
  let x := { x with reader := reader }
  if owed = 0 then (x, none) else x.write T 32 (Writer.windowUpdate 0 owed)

end Exchange

/-! ### Loops -/

section Loops

variable {S α φ : Type}

/-- One step after the other, up to the first that fails. -/
def steps (step : S → α → S × Option φ) : S → List α → S × Option φ
  | s, [] => (s, none)
  | s, a :: as =>
      match step s a with
      | (s, some e) => (s, some e)
      | (s, none) => steps step s as

/-- Feeds a batch to the reader, and each item to `step`: the reader, the
state, how much of the batch was used, and a failure.  A call uses a byte at
least. -/
def feedLoop (step : S → Item → S × Option φ) (batch : List UInt8) :
    ℕ → FrameReader → S → ℕ → FrameReader × S × ℕ × Option φ
  | 0, r, s, offset => (r, s, offset, none)
  | k + 1, r, s, offset =>
      if offset < batch.length then
        match r.feed (batch.drop offset) with
        | (r, used, none) =>
            if used = 0 then (r, s, offset, none) else feedLoop step batch k r s (offset + used)
        | (r, used, some item) =>
            match step s item with
            | (s, some e) => (r, s, offset + used, some e)
            | (s, none) => feedLoop step batch k r s (offset + used)
      else (r, s, offset, none)

/-- **A loop is a fold over the items of its batch.** -/
theorem feedLoop_spec (step : S → Item → S × Option φ) {batch : List UInt8} {k : ℕ}
    {r : FrameReader} (s : S) {offset : ℕ} (h : Standing r) (hle : offset ≤ batch.length)
    (hk : batch.length - offset ≤ k) :
    (∀ s', steps step s (feedBatch r (batch.drop offset)).2 = (s', none) →
        feedLoop step batch k r s offset =
          ((feedBatch r (batch.drop offset)).1, s', batch.length, none)) ∧
      ∀ s' e, steps step s (feedBatch r (batch.drop offset)).2 = (s', some e) →
        ∃ r' n, feedLoop step batch k r s offset = (r', s', n, some e) := by
  induction k generalizing r s offset with
  | zero =>
    obtain rfl : offset = batch.length := by omega
    rw [List.drop_length]
    refine ⟨?_, nofun⟩
    intro s' hs
    obtain ⟨rfl, -⟩ := Prod.mk.inj hs
    rfl
  | succ k ih =>
    rw [feedLoop]
    by_cases hlt : offset < batch.length
    -- the batch is used up
    swap
    · obtain rfl : offset = batch.length := by omega
      rw [List.drop_length, if_neg hlt]
      refine ⟨?_, nofun⟩
      intro s' hs
      obtain ⟨rfl, -⟩ := Prod.mk.inj hs
      rfl
    rw [if_pos hlt]
    have hne : batch.drop offset ≠ [] := by
      intro hnil
      have := List.drop_eq_nil_iff.mp hnil
      omega
    rcases he : r.feed (batch.drop offset) with ⟨r₁, used, item⟩
    obtain ⟨hpos, hused, hnext⟩ := h.feed hne he
    rw [List.length_drop] at hused
    -- one call of the reader is the front of what it makes of the batch
    rw [h.feedBatch hne he, List.drop_drop]
    cases item with
    | none =>
      simp only [Option.toList_none, List.nil_append]
      rw [if_neg (by omega)]
      exact ih s hnext (by omega) (by omega)
    | some item =>
      simp only [Option.toList_some, List.singleton_append, steps]
      rcases hstep : step s item with ⟨s₁, - | e⟩
      · exact ih s₁ hnext (by omega) (by omega)
      · refine ⟨nofun, ?_⟩
        intro s' e' hs
        simp only [Prod.mk.injEq, Option.some.injEq] at hs
        obtain ⟨rfl, rfl⟩ := hs
        exact ⟨_, _, rfl⟩

/-- What every step keeps, the loop keeps. -/
theorem feedLoop_keeps {step : S → Item → S × Option φ} {P : S → Prop}
    (hstep : ∀ s item, P s → P (step s item).1) (batch : List UInt8) (k : ℕ) (r : FrameReader)
    {s : S} (offset : ℕ) (h : P s) : P (feedLoop step batch k r s offset).2.1 := by
  induction k generalizing r s offset with
  | zero => exact h
  | succ k ih =>
    rw [feedLoop]
    split_ifs
    · rcases r.feed (batch.drop offset) with ⟨r, used, - | item⟩
      · simp only
        split_ifs
        · exact h
        · exact ih r (offset + used) h
      · have hs := hstep s item h
        simp only
        rcases he : step s item with ⟨s', - | e⟩
        · rw [he] at hs
          exact ih r (offset + used) hs
        · rw [he] at hs
          exact hs
    · exact h

/-- The loop over a whole batch. -/
theorem feedLoop_batch (step : S → Item → S × Option φ) {r : FrameReader} (s : S)
    (h : Standing r) (batch : List UInt8) :
    (∀ s', steps step s (feedBatch r batch).2 = (s', none) →
        feedLoop step batch batch.length r s 0 = ((feedBatch r batch).1, s', batch.length, none)) ∧
      ∀ s' e, steps step s (feedBatch r batch).2 = (s', some e) →
        ∃ r' n, feedLoop step batch batch.length r s 0 = (r', s', n, some e) :=
  feedLoop_spec step s h (Nat.zero_le _) (Nat.le_refl batch.length)

end Loops

/-- How a turn of a client ended. -/
inductive Turned (ε : Type)
  | again
  | done
  | waiting
  | failed (e : Failure ε)
  deriving DecidableEq

/-- The end of a turn: credit is returned, and the call is over when the
response is. -/
def Exchange.endTurn (T : Transport σ ε) (x : Exchange σ) (done : Bool) : Exchange σ × Turned ε :=
  match x.replenishWindow T with
  | (x, some e) => (x, .failed e)
  | (x, none) => (x, if done then .done else .again)

/-- A turn: pumps when nothing waits, and responds to the batch. -/
def turn (T : Transport σ ε) (respond : Exchange σ → Exchange σ × Turned ε) (x : Exchange σ) :
    Exchange σ × Turned ε :=
  if T.buffered x.link = [] then
    match T.pump x.link with
    | (link, .waiting) => ({ x with link := link }, .waiting)
    | (link, .failed e) => ({ x with link := link }, .failed (.link e))
    | (link, .ready) => respond { x with link := link }
  else respond x

/-- At most `k` turns. -/
def run (next : Exchange σ → Exchange σ × Turned ε) : ℕ → Exchange σ → Exchange σ × Turned ε
  | 0, x => (x, .again)
  | k + 1, x =>
      match next x with
      | (x, .again) => run next k x
      | res => res

/-- A frame of the response that is asked for. -/
def onStream (streamId : UInt32) (h : FrameHeader) : Bool := h.streamId == streamId

theorem isData_onStream (streamId : UInt32) (h : FrameHeader) :
    isData (onStream streamId) h = true ↔ h.kind = frameType.data ∧ h.streamId = streamId := by
  rw [isData, Bool.and_eq_true, beq_iff_eq, onStream, beq_iff_eq]

/-- The last byte of a frame that ends the response. -/
def ends (streamId : UInt32) (h : FrameHeader) : Bool := h.isEndStream && h.streamId == streamId

/-- The flag that both clients keep while they parse a batch. -/
theorem any_ends_body (streamId : UInt32) (h : FrameHeader) (chunk : List UInt8) (last done : Bool)
    (items : List Item) :
    ((if last ∧ h.isEndStream ∧ h.streamId = streamId then true else done) ||
        (finals items).any (ends streamId)) =
      (done || (finals (.body h chunk last :: items)).any (ends streamId)) := by
  cases last with
  | false => simp [finals]
  | true =>
    rw [finals, List.any_cons, ends]
    by_cases hend : h.isEndStream = true ∧ h.streamId = streamId
    · simp [hend]
    · rw [if_neg (by simpa using hend)]
      have hno : (h.isEndStream && h.streamId == streamId) = false := by
        rw [Bool.and_eq_false_iff, beq_eq_false_iff_ne]
        by_cases hflag : h.isEndStream = true
        · exact .inr fun hid => hend ⟨hflag, hid⟩
        · exact .inl (by simpa using hflag)
      rw [hno, Bool.false_or]

/-! ### What is sent -/

theorem encode_writes {m : WriterM Unit} {bytes : List UInt8} (h : Writes m bytes) {n : ℕ}
    (hlen : bytes.length ≤ n) : encode (ε := ε) n m = .ok bytes := by
  obtain ⟨w, he, hw, -⟩ := h.ok (.new (List.replicate n 0)) (by
    rw [Writer.new, Nat.zero_add, List.length_replicate]
    exact hlen)
  rw [encode, he]
  exact congrArg Except.ok hw

theorem encode_frame (c : { c : Cmd // c.Valid }) (hfits : c.1.Fits) {n : ℕ}
    (hlen : (Cmd.frame c).wire.length ≤ n) :
    encode (ε := ε) n c.1.write = .ok (Cmd.frame c).wire :=
  encode_writes (Cmd.writes c hfits) hlen

/-- SETTINGS with ACK. -/
def settingsAck : { c : Cmd // c.Valid } := ⟨.settingsAck, by decide, by decide⟩

/-- PING with ACK. -/
def pingAck (payload : List UInt8) : { c : Cmd // c.Valid } :=
  ⟨.pingAck payload, by show (0 : UInt32).toNat < 2 ^ 31; decide, by
    show (Writer.pingData payload).length < 2 ^ 24
    rw [length_pingData]
    decide⟩

/-- WINDOW_UPDATE for the connection. -/
def windowUpdate (increment : UInt32) : { c : Cmd // c.Valid } :=
  ⟨.windowUpdate 0 increment, by show (0 : UInt32).toNat < 2 ^ 31; decide, by
    show (Bytes.toBE 4 _).length < 2 ^ 24
    rw [Bytes.length_toBE]
    decide⟩

/-- What a control frame asks for: an answer, the end of the call, or
nothing. -/
inductive Reaction
  | answer (c : { c : Cmd // c.Valid })
  | close
  | pass

/-- What a client owes to a control frame. -/
def reaction (cf : FrameHeader × List UInt8) : Reaction :=
  if cf.1.kind = frameType.settings ∧ cf.1.flags &&& flag.ack = 0 then .answer settingsAck
  else if cf.1.kind = frameType.ping ∧ cf.1.flags &&& flag.ack = 0 then .answer (pingAck cf.2)
  else if cf.1.kind = frameType.goaway ∨ cf.1.kind = frameType.rstStream then .close
  else .pass

namespace Exchange

variable {T : Transport σ ε}

theorem handleControl_eq (closed : FrameHeader → List UInt8 → Failure ε) (x : Exchange σ)
    (cf : FrameHeader × List UInt8) :
    x.handleControl T closed cf =
      match reaction cf with
      | .answer c => x.send T (Cmd.frame c).wire
      | .close => (x, some (closed cf.1 cf.2))
      | .pass => (x, none) := by
  have hsettings : encode (ε := ε) 64 Writer.settingsAck = .ok (Cmd.frame settingsAck).wire :=
    encode_frame settingsAck trivial (by decide)
  have hping : encode (ε := ε) 64 (Writer.pingAck cf.2) = .ok (Cmd.frame (pingAck cf.2)).wire := by
    refine encode_frame (pingAck cf.2) trivial ?_
    rw [RawFrame.length_wire]
    show frameHeaderLen + (Writer.pingData cf.2).length ≤ 64
    rw [length_pingData]
    decide
  unfold handleControl reaction write
  split_ifs
  · rw [hsettings]
  · rw [hping]
  · rfl
  · rfl

theorem replenishWindow_eq (x : Exchange σ) :
    x.replenishWindow T =
      let y := { x with reader := { x.reader with pendingWindow := 0 } }
      if x.reader.pendingWindow = 0 then (y, none)
      else y.send T (Cmd.frame (windowUpdate x.reader.pendingWindow)).wire := by
  have hupdate : encode (ε := ε) 32 (Writer.windowUpdate 0 x.reader.pendingWindow) =
      .ok (Cmd.frame (windowUpdate x.reader.pendingWindow)).wire := by
    refine encode_frame (windowUpdate _) trivial ?_
    rw [RawFrame.length_wire]
    show frameHeaderLen + (Bytes.toBE 4 _).length ≤ 32
    rw [Bytes.length_toBE]
    decide
  unfold replenishWindow write
  simp only [FrameReader.takePendingWindow, hupdate]

/-- Sending changes the link and what was sent. -/
theorem send_eq (x : Exchange σ) (msg : List UInt8) :
    x.send T msg =
      match T.send x.link msg with
      | .error e => (x, some (.link e))
      | .ok link => ({ x with link := link, sent := x.sent ++ [msg] }, none) := rfl

/-- A control frame touches the link and what was sent. -/
theorem handleControl_kept (closed : FrameHeader → List UInt8 → Failure ε) (x : Exchange σ)
    (cf : FrameHeader × List UInt8) :
    ∃ link msgs, (x.handleControl T closed cf).1 = { x with link := link, sent := x.sent ++ msgs } := by
  have hx : x = { x with link := x.link, sent := x.sent ++ [] } := by rw [List.append_nil]
  rw [handleControl_eq]
  cases reaction cf with
  | answer c =>
    simp only [send_eq]
    rcases T.send x.link (Cmd.frame c).wire with e | link
    · exact ⟨_, _, hx⟩
    · exact ⟨link, [(Cmd.frame c).wire], rfl⟩
  | close => exact ⟨_, _, hx⟩
  | pass => exact ⟨_, _, hx⟩

/-- The end of a turn touches these and the reader. -/
theorem endTurn_kept (x : Exchange σ) (done : Bool) :
    ∃ link reader msgs, (x.endTurn T done).1 =
      { x with link := link, reader := reader, sent := x.sent ++ msgs } := by
  simp only [endTurn, replenishWindow_eq, send_eq]
  by_cases h : x.reader.pendingWindow = 0
  · rw [if_pos h]
    exact ⟨x.link, _, [], by rw [List.append_nil]⟩
  · rw [if_neg h]
    rcases T.send x.link (Cmd.frame (windowUpdate x.reader.pendingWindow)).wire with e | link
    · exact ⟨x.link, _, [], by rw [List.append_nil]⟩
    · exact ⟨link, _, _, rfl⟩

end Exchange

/-! ### Answers -/

/-- A frame that ends the call. -/
def closes (cf : FrameHeader × List UInt8) : Bool :=
  cf.1.kind == frameType.goaway || cf.1.kind == frameType.rstStream

theorem reaction_close {cf : FrameHeader × List UInt8} (h : reaction cf = .close) :
    closes cf = true := by
  unfold reaction at h
  split_ifs at h with _ _ hclose
  rw [closes, Bool.or_eq_true, beq_iff_eq, beq_iff_eq]
  exact hclose

theorem reaction_of_closes {cf : FrameHeader × List UInt8} (h : closes cf = true) :
    reaction cf = .close := by
  rw [closes, Bool.or_eq_true, beq_iff_eq, beq_iff_eq] at h
  have hsettings : cf.1.kind ≠ frameType.settings := by
    rcases h with h | h <;> rw [h] <;> decide
  have hping : cf.1.kind ≠ frameType.ping := by
    rcases h with h | h <;> rw [h] <;> decide
  unfold reaction
  rw [if_neg fun hs => hsettings hs.1, if_neg fun hp => hping hp.1, if_pos h]

/-- The answers to control frames. -/
def answers (cs : List (FrameHeader × List UInt8)) : List (List UInt8) :=
  cs.filterMap fun cf =>
    match reaction cf with
    | .answer c => some (Cmd.frame c).wire
    | _ => none

/-- Answers control frames over a link: what becomes of the link, what is
sent, and a failure. -/
def replies (T : Transport σ ε) (closed : FrameHeader → List UInt8 → Failure ε) :
    σ → List (FrameHeader × List UInt8) → σ × List (List UInt8) × Option (Failure ε)
  | link, [] => (link, [], none)
  | link, cf :: cs =>
      match reaction cf with
      | .answer c =>
          match T.send link (Cmd.frame c).wire with
          | .error e => (link, [], some (.link e))
          | .ok link =>
              let (link, msgs, out) := replies T closed link cs
              (link, (Cmd.frame c).wire :: msgs, out)
      | .close => (link, [], some (closed cf.1 cf.2))
      | .pass => replies T closed link cs

section Replies

variable (T : Transport σ ε) (closed : FrameHeader → List UInt8 → Failure ε)

/-- Control frames touch the link and what was sent, nothing else. -/
theorem steps_handleControl (x : Exchange σ) (cs : List (FrameHeader × List UInt8)) :
    steps (Exchange.handleControl T closed) x cs =
      let (link, msgs, out) := replies T closed x.link cs
      ({ x with link := link, sent := x.sent ++ msgs }, out) := by
  induction cs generalizing x with
  | nil =>
    show (x, none) = ({ x with sent := x.sent ++ [] }, none)
    rw [List.append_nil]
  | cons cf cs ih =>
    rw [steps, x.handleControl_eq, replies]
    cases hr : reaction cf with
    | answer c =>
      simp only [x.send_eq]
      rcases T.send x.link (Cmd.frame c).wire with e | link
      · simp only [List.append_nil]
      · simp only [ih, List.append_assoc, List.singleton_append]
    | close => simp only [List.append_nil]
    | pass => exact ih x

/-- What the answers of a link come to. -/
structure Replied (link link' : σ) (cs : List (FrameHeader × List UInt8))
    (msgs : List (List UInt8)) (out : Option (Failure ε)) : Prop where
  buffered : T.buffered link' = T.buffered link
  sound : T.Sound link → T.Sound link'
  ok : out = none → msgs = answers cs ∧ cs.find? closes = none
  failed : ∀ e, out = some e →
    (∃ e', e = .link e') ∨ ∃ cf, cs.find? closes = some cf ∧ e = closed cf.1 cf.2

theorem replied (link : σ) (cs : List (FrameHeader × List UInt8)) :
    Replied T closed link (replies T closed link cs).1 cs (replies T closed link cs).2.1
      (replies T closed link cs).2.2 := by
  induction cs generalizing link with
  | nil => exact ⟨rfl, id, fun _ => ⟨rfl, rfl⟩, nofun⟩
  | cons cf cs ih =>
    -- a frame that closes nothing is passed over by the search
    have hfind : reaction cf ≠ .close → (cf :: cs).find? closes = cs.find? closes := by
      intro hne
      rw [List.find?_cons_of_neg]
      exact fun hc => hne (reaction_of_closes hc)
    rw [replies]
    cases hr : reaction cf with
    | answer c =>
      rw [hr] at hfind
      specialize hfind nofun
      rcases hsend : T.send link (Cmd.frame c).wire with e | link₁
      · simp only [hsend]
        exact ⟨rfl, id, nofun, fun e' he => .inl ⟨e, (Option.some.inj he).symm⟩⟩
      · simp only [hsend]
        have h := ih link₁
        refine ⟨h.buffered.trans (T.buffered_send hsend), ?_, ?_, ?_⟩
        · exact fun hs => h.sound (T.sound_send hs hsend)
        · intro hout
          obtain ⟨hmsgs, hnone⟩ := h.ok hout
          refine ⟨?_, hfind.trans hnone⟩
          rw [hmsgs, answers, answers, List.filterMap_cons, hr]
        · intro e he
          rw [hfind]
          exact h.failed e he
    | close =>
      simp only
      refine ⟨rfl, id, nofun, fun e he => .inr ⟨cf, ?_, (Option.some.inj he).symm⟩⟩
      exact List.find?_cons_of_pos (reaction_close hr)
    | pass =>
      rw [hr] at hfind
      specialize hfind nofun
      simp only
      have h := ih link
      refine ⟨h.buffered, h.sound, ?_, ?_⟩
      · intro hout
        obtain ⟨hmsgs, hnone⟩ := h.ok hout
        refine ⟨?_, hfind.trans hnone⟩
        rw [hmsgs, answers, answers, List.filterMap_cons, hr]
      · intro e he
        rw [hfind]
        exact h.failed e he

/-- Answers do not depend on what was consumed. -/
theorem replies_consume (link : σ) (n : ℕ) (cs : List (FrameHeader × List UInt8)) :
    replies T closed (T.consume link n) cs =
      (T.consume (replies T closed link cs).1 n, (replies T closed link cs).2) := by
  induction cs generalizing link with
  | nil => rfl
  | cons cf cs ih =>
    rw [replies, replies]
    cases reaction cf with
    | answer c =>
      simp only [T.send_consume]
      rcases T.send link (Cmd.frame c).wire with e | link₁
      · rfl
      · simp only [Except.map, ih]
    | close => rfl
    | pass => exact ih link

/-- One list of control frames after the other. -/
theorem replies_append (link : σ) (as bs : List (FrameHeader × List UInt8)) :
    replies T closed link (as ++ bs) =
      match replies T closed link as with
      | (link, msgs, some e) => (link, msgs, some e)
      | (link, msgs, none) =>
          let (link, msgs', out) := replies T closed link bs
          (link, msgs ++ msgs', out) := by
  induction as generalizing link with
  | nil => rfl
  | cons cf as ih =>
    rw [List.cons_append, replies, replies]
    cases reaction cf with
    | answer c =>
      simp only
      rcases T.send link (Cmd.frame c).wire with e | link₁
      · rfl
      · simp only [ih]
        rcases replies T closed link₁ as with ⟨link₂, msgs, - | e⟩
        · rfl
        · rfl
    | close => rfl
    | pass => exact ih link

end Replies

end Lando.H2
