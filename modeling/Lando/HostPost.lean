/-
Lando/HostPost.lean

A POST of the host (`H2Conn::post` in `lando-host/src/transport.rs`).

The request differs from the firmware's in an empty body, which the host sends
as one empty DATA frame.  In a batch the host answers each control frame where
it meets it, and stops there if it cannot.

`steps_take` says what a batch leads to, in terms of its items: the answers
are those to all of its control frames, and do not depend on what lies between
these.
-/
import Lando.H2Run
import Lando.HostTransport

namespace Lando.Host.Post

open Framing H2

variable {σ ε : Type}

/-! ### The request -/

/-- `MAX_PLAINTEXT_SIZE - FRAME_HEADER_LEN`. -/
def chunkMax : ℕ := Noise.maxPlaintextSize - frameHeaderLen

/-- The DATA frames of a body that is not empty. -/
def sendBody (T : Transport σ ε) (streamId : UInt32) :
    Exchange σ → List (List UInt8) → Exchange σ × Option (Failure ε)
  | x, [] => (x, none)
  | x, chunk :: chunks =>
      let last : Bool := chunks.isEmpty
      match x.write T Noise.maxPlaintextSize (Writer.data streamId chunk last) with
      | (x, some e) => (x, some e)
      | (x, none) => sendBody T streamId x chunks

/-- The request of `post`. -/
def sendRequest (T : Transport σ ε) (x : Exchange σ) (streamId : UInt32)
    (authority path : String) (body : List UInt8) : Exchange σ × Option (Failure ε) :=
  match x.write T 512 (Writer.postHeaders streamId authority path (.ofNat body.length)) with
  | (x, some e) => (x, some e)
  | (x, none) =>
      match Bytes.chunks chunkMax body with
      | [] => x.write T Noise.maxPlaintextSize (Writer.data streamId [] true)
      | chunk :: chunks => sendBody T streamId x (chunk :: chunks)

/-! ### The response -/

/-- The error for a frame that ends the call. -/
def closed (header : FrameHeader) (payload : List UInt8) : Failure ε :=
  if header.kind = frameType.goaway then
    let code := if 8 ≤ payload.length then Bytes.fromBE (Bytes.slice payload 4 8) else 0
    .goaway code (payload.drop 8)
  else
    let code := if 4 ≤ payload.length then Bytes.fromBE (Bytes.slice payload 0 4) else 0
    .reset code

/-- `handle_control`. -/
def handleControl (T : Transport σ ε) (x : Exchange σ) (cf : FrameHeader × List UInt8) :
    Exchange σ × Option (Failure ε) :=
  x.handleControl T closed cf

/-- The body of the parsing loop.  The consumer says whether it goes on, from
all that it was handed. -/
def take (T : Transport σ ε) (streamId : UInt32) (onData : List (List UInt8) → Bool)
    (st : Exchange σ × Bool) : Item → (Exchange σ × Bool) × Option (Failure ε)
  | .control header payload =>
      let (x, e) := handleControl T st.1 (header, payload)
      ((x, st.2), e)
  | .body header chunk last =>
      -- END_STREAM reads as set for every chunk; only the last one ends it
      let done := if last ∧ header.isEndStream ∧ header.streamId = streamId then true else st.2
      if header.kind = frameType.data ∧ header.streamId = streamId then
        let x := { st.1 with handed := st.1.handed ++ [chunk] }
        if onData x.handed then ((x, done), none) else ((x, st.2), some .consumer)
      else ((st.1, done), none)

/-- The body of the loop of `read_until_end_of`, once something waits. -/
def respond (T : Transport σ ε) (streamId : UInt32) (onData : List (List UInt8) → Bool)
    (x : Exchange σ) : Exchange σ × Turned ε :=
  let pending := T.buffered x.link
  let x := { x with received := x.received ++ [pending] }
  match feedLoop (take T streamId onData) pending pending.length x.reader (x, false) 0 with
  | (reader, (x, _), _, some e) => ({ x with reader := reader }, .failed e)
  | (reader, (x, done), offset, none) =>
      let x := { x with link := T.consume x.link offset, reader := reader }
      x.endTurn T done

/-- `read_until_end_of`, with at most `k` turns. -/
def readUntilEndOf (T : Transport σ ε) (streamId : UInt32) (onData : List (List UInt8) → Bool)
    (k : ℕ) (x : Exchange σ) : Exchange σ × Turned ε :=
  run (turn T (respond T streamId onData)) k x

/-- `post`, with at most `k` turns for the response. -/
def post (T : Transport σ ε) (authority path : String) (body : List UInt8)
    (onData : List (List UInt8) → Bool) (k : ℕ) (x : Exchange σ) : Exchange σ × Turned ε :=
  let streamId := x.nextStream
  let x := { x with nextStream := x.nextStream + 2 }
  match sendRequest T x streamId authority path body with
  | (x, some e) => (x, .failed e)
  | (x, none) => readUntilEndOf T streamId onData k x

theorem requested_sendBody (T : Transport σ ε) (streamId : UInt32) (x : Exchange σ)
    (chunks : List (List UInt8)) :
    Requested T x (sendBody T streamId x chunks).1 (sendBody T streamId x chunks).2 := by
  induction chunks generalizing x with
  | nil => exact .nil T x
  | cons chunk chunks ih =>
    rw [sendBody]
    have hwrite := Requested.write (T := T) x (n := Noise.maxPlaintextSize)
      (m := Writer.data streamId chunk chunks.isEmpty) fun _ => asks_data
    rcases he : x.write T Noise.maxPlaintextSize (Writer.data streamId chunk chunks.isEmpty) with
      ⟨y, - | e⟩
    · rw [he] at hwrite
      exact hwrite.trans (ih y)
    · rw [he] at hwrite
      exact hwrite

theorem requested_sendRequest (T : Transport σ ε) (x : Exchange σ) (streamId : UInt32)
    (authority path : String) (body : List UInt8) :
    Requested T x (sendRequest T x streamId authority path body).1
      (sendRequest T x streamId authority path body).2 := by
  unfold sendRequest
  have hwrite := Requested.write (T := T) x (n := 512)
    (m := Writer.postHeaders streamId authority path (.ofNat body.length))
    fun _ => asks_postHeaders
  rcases he : x.write T 512 (Writer.postHeaders streamId authority path (.ofNat body.length)) with
    ⟨y, - | e⟩
  · rw [he] at hwrite
    refine hwrite.trans ?_
    rcases Bytes.chunks chunkMax body with - | ⟨chunk, chunks⟩
    · exact .write y fun _ => asks_data
    · exact requested_sendBody T streamId y (chunk :: chunks)
  · rw [he] at hwrite
    exact hwrite

/-! ### A batch -/

theorem steps_take (T : Transport σ ε) (streamId : UInt32) (onData : List (List UInt8) → Bool)
    (x : Exchange σ) (done : Bool) (items : List Item) :
    let (link, msgs, out) := replies T closed x.link (controls items)
    (∃ chunks done',
      steps (take T streamId onData) (x, done) items =
        (({ x with link := link, sent := x.sent ++ msgs, handed := x.handed ++ chunks }, done'),
          out) ∧
      (out = none → chunks = bodies (isData (onStream streamId)) items ∧
        done' = (done || (finals items).any (ends streamId)))) ∨
    ∃ st chunks, steps (take T streamId onData) (x, done) items = (st, some .consumer) ∧
      onData chunks = false := by
  induction items generalizing x done with
  | nil =>
    refine .inl ⟨[], done, ?_, fun _ => ⟨rfl, (Bool.or_false done).symm⟩⟩
    rw [List.append_nil, List.append_nil]
    rfl
  | cons item items ih =>
    rw [steps]
    cases item with
    | control h payload =>
      have hcontrol : take T streamId onData (x, done) (.control h payload) =
          (((x.handleControl T closed (h, payload)).1, done),
            (x.handleControl T closed (h, payload)).2) := rfl
      rw [hcontrol, x.handleControl_eq, controls, replies]
      cases reaction (h, payload) with
      -- the answer is sent, or the link fails on it
      | answer c =>
        simp only [x.send_eq]
        rcases T.send x.link (Cmd.frame c).wire with e | link
        · refine .inl ⟨[], done, ?_, fun hout => absurd hout (Option.some_ne_none _)⟩
          simp only [List.append_nil]
        · simp only
          have hrest := ih { x with link := link, sent := x.sent ++ [(Cmd.frame c).wire] } done
          simp only [List.append_assoc, List.singleton_append] at hrest
          exact hrest
      | close =>
        refine .inl ⟨[], done, ?_, fun hout => absurd hout (Option.some_ne_none _)⟩
        simp only [List.append_nil]
      | pass => exact ih x done
    | body h chunk last =>
      rw [take, controls]
      simp only
      -- only DATA on the stream of the call goes to the consumer
      by_cases hon : h.kind = frameType.data ∧ h.streamId = streamId
      · rw [if_pos hon]
        have hdata := (isData_onStream streamId h).mpr hon
        by_cases hgo : onData (x.handed ++ [chunk]) = true
        · rw [if_pos hgo]
          -- the consumer wants more
          rcases ih { x with handed := x.handed ++ [chunk] } _ with ⟨chunks, done', he, hdone⟩ | hc
          · refine .inl ⟨chunk :: chunks, done', ?_, ?_⟩
            · refine he.trans ?_
              simp only [List.append_assoc, List.singleton_append]
            · intro hout
              obtain ⟨rfl, rfl⟩ := hdone hout
              rw [bodies, if_pos hdata]
              exact ⟨rfl, any_ends_body streamId h chunk last done items⟩
          · exact .inr hc
        · rw [if_neg hgo]
          exact .inr ⟨_, _, rfl, by simpa using hgo⟩
      · rw [if_neg hon]
        rcases ih x _ with ⟨chunks, done', he, hdone⟩ | hc
        · refine .inl ⟨chunks, done', he, ?_⟩
          intro hout
          obtain ⟨rfl, rfl⟩ := hdone hout
          rw [bodies, if_neg fun hd => hon ((isData_onStream streamId h).mp hd)]
          exact ⟨rfl, any_ends_body streamId h chunk last done items⟩
        · exact .inr hc

/-- **The host heeds every control frame.** -/
theorem responds (T : Transport σ ε) (streamId : UInt32) (onData : List (List UInt8) → Bool) :
    Responds T streamId id (respond T streamId onData) where
  kept x := by
    have hstep : ∀ received nextStream (st : Exchange σ × Bool) (item : Item),
        st.1.received = received ∧ st.1.nextStream = nextStream →
          (take T streamId onData st item).1.1.received = received ∧
            (take T streamId onData st item).1.1.nextStream = nextStream := by
      intro received nextStream st item h
      cases item with
      | control header payload =>
        obtain ⟨link, msgs, hkept⟩ :=
          Exchange.handleControl_kept (T := T) closed st.1 (header, payload)
        show (st.1.handleControl T closed (header, payload)).1.received = _ ∧
          (st.1.handleControl T closed (header, payload)).1.nextStream = _
        rw [hkept]
        exact h
      | body header chunk last =>
        rw [take]
        simp only
        by_cases hon : header.kind = frameType.data ∧ header.streamId = streamId
        · rw [if_pos hon]
          by_cases hgo : onData (st.1.handed ++ [chunk]) = true
          · rw [if_pos hgo]
            exact h
          · rw [if_neg hgo]
            exact h
        · rw [if_neg hon]
          exact h
    -- the loop over the batch keeps both fields, and so does what follows it
    have hloop := feedLoop_keeps (hstep (x.received ++ [T.buffered x.link]) x.nextStream)
      (T.buffered x.link) (T.buffered x.link).length x.reader 0
      (s := ({ x with received := x.received ++ [T.buffered x.link] }, false)) ⟨rfl, rfl⟩
    unfold respond
    simp only
    rcases he : feedLoop (take T streamId onData) (T.buffered x.link) (T.buffered x.link).length
      x.reader ({ x with received := x.received ++ [T.buffered x.link] }, false) 0 with
      ⟨reader, ⟨y, done⟩, offset, - | e⟩
    · rw [he] at hloop
      obtain ⟨link', reader', msgs', hend⟩ := Exchange.endTurn_kept (T := T)
        { y with link := T.consume y.link offset, reader := reader } done
      simp only [hend]
      exact hloop
    · rw [he] at hloop
      exact hloop
  responded := by
    intro frames n x rest hready hbatch
    have hlen := T.buffered_lt hready.sound
    have hsteps := steps_take T streamId onData
      { x with received := x.received ++ [T.buffered x.link] } false
      (feedBatch x.reader (T.buffered x.link)).2
    obtain ⟨hok, hfailed⟩ := feedLoop_batch (take T streamId onData)
      ({ x with received := x.received ++ [T.buffered x.link] }, false) hready.placed.standing
      (T.buffered x.link)
    rw [hready.controls hbatch] at hsteps
    have hreplied := replied T closed x.link (controlsOf (fresh frames n (T.buffered x.link).length))
    unfold respond
    simp only at hsteps ⊢
    rcases he : replies T closed x.link (controlsOf (fresh frames n (T.buffered x.link).length)) with
      ⟨link, msgs, out⟩
    rw [he] at hsteps hreplied
    -- either every item was taken, or the consumer refused one
    rcases hsteps with ⟨chunks, done, hsteps, hdone⟩ | ⟨st, chunks, hsteps, -⟩
    · cases out with
      | none =>
        obtain ⟨rfl, rfl⟩ := hdone rfl
        obtain ⟨hmsgs, hspared⟩ := hreplied.ok rfl
        rw [hok _ hsteps]
        have hsound := T.sound_consume (hreplied.sound hready.sound)
        rw [hreplied.buffered] at hsound
        exact hready.endTurn hbatch hlen hsound _ hmsgs hspared
      | some e =>
        obtain ⟨r', offset, hloop⟩ := hfailed _ e hsteps
        rw [hloop]
        intro hclosed
        rcases hreplied.failed e rfl with ⟨e', rfl⟩ | ⟨cf, hcf, -⟩
        · exact hclosed.elim
        · exact ⟨cf, hcf⟩
    · obtain ⟨r', offset, hloop⟩ := hfailed _ _ hsteps
      rw [hloop]
      exact fun hclosed => hclosed.elim

/-! ### The transport -/

/-- What a transport keeps. -/
structure Held (t : NoiseTransport) : Prop where
  pos_le : t.rxPos ≤ t.rx.length
  buffered_lt : t.buffered.length < 2 ^ 31

/-- A pump adds at most one record to an empty buffer. -/
theorem held_pump {A : Aead} {t t' : NoiseTransport} (h : Held t) (hnil : t.buffered = [])
    (he : t.pump A = .ok t') : Held t' := by
  have hpos : t.rx.length ≤ t.rxPos := List.drop_eq_nil_iff.mp hnil
  unfold NoiseTransport.pump at he
  rcases hheader : Socket.readExact Noise.headerLen t.stream with - | ⟨header, stream⟩
  · rw [hheader] at he
    cases he
  simp only [hheader] at he
  by_cases hcap : Noise.maxCiphertextSize < (Noise.parseHeader header).2
  · rw [if_pos hcap] at he
    cases he
  rw [if_neg hcap] at he
  rcases hbody : Socket.readExact (Noise.parseHeader header).2 stream with - | ⟨body, stream'⟩
  · rw [hbody] at he
    cases he
  simp only [hbody] at he
  split_ifs at he
  rcases hread : t.session.readRecord A body with e | ⟨session, text⟩
  · rw [hread] at he
    cases he
  · rw [hread] at he
    obtain rfl := Except.ok.inj he
    have htext := (Noise.Session.readRecord_ok hread).2
    rw [Socket.length_readExact hbody] at htext
    have hcap' : text.length ≤ Noise.maxCiphertextSize := Nat.le_trans htext (Nat.not_lt.mp hcap)
    refine ⟨?_, ?_⟩
    · show t.rxPos ≤ (t.rx ++ text).length
      rw [List.length_append]
      exact Nat.le_trans h.pos_le (Nat.le_add_right _ _)
    · show ((t.rx ++ text).drop t.rxPos).length < 2 ^ 31
      rw [List.length_drop, List.length_append]
      exact Nat.lt_of_le_of_lt (Nat.le_trans (by omega) hcap') (by decide)

theorem held_consume {t : NoiseTransport} (h : Held t) : Held (t.consume t.buffered.length) := by
  have hall : t.rxPos + t.buffered.length = t.rx.length := by
    rw [NoiseTransport.buffered, List.length_drop, Nat.add_sub_cancel' h.pos_le]
  unfold NoiseTransport.consume
  simp only [hall, if_true]
  exact ⟨Nat.le_refl _, by show 0 < 2 ^ 31; decide⟩

/-- Sending touches the session only. -/
theorem send_ok {A : Aead} {t t' : NoiseTransport} {m : List UInt8}
    (h : (t.send A m).map Prod.fst = .ok t') : ∃ session, t' = { t with session := session } := by
  unfold NoiseTransport.send at h
  rcases hs : NoiseTransport.sendChunks A t.session (Bytes.chunks Noise.maxPlaintextSize m) with
    e | ⟨session, written⟩
  · rw [hs] at h
    cases h
  · rw [hs] at h
    exact ⟨session, (Except.ok.inj h).symm⟩

/-- The transport of the host.  A read that finds nothing fails. -/
def host (A : Aead) : Transport NoiseTransport Error where
  buffered := NoiseTransport.buffered
  pump t :=
    match t.pump A with
    | .error e => (t, .failed e)
    | .ok t => (t, .ready)
  consume := NoiseTransport.consume
  send t msg := (t.send A msg).map Prod.fst
  Sound := Held
  buffered_lt := Held.buffered_lt
  sound_pump := by
    intro t h hnil
    rcases hpump : t.pump A with e | t'
    · exact h
    · exact held_pump h hnil hpump
  sound_consume := held_consume
  sound_send := by
    intro t t' m h he
    obtain ⟨session, rfl⟩ := send_ok he
    exact ⟨h.pos_le, h.buffered_lt⟩
  buffered_send := by
    intro t t' m he
    obtain ⟨session, rfl⟩ := send_ok he
    rfl
  send_consume := by
    intro t n m
    have hconsume : ∀ session, NoiseTransport.consume { t with session := session } n =
        { t.consume n with session := session } := by
      intro session
      unfold NoiseTransport.consume
      simp only
      split_ifs
      · rfl
      · rfl
      · rfl
    have hsession : (t.consume n).session = t.session := by
      unfold NoiseTransport.consume
      simp only
      split_ifs
      · rfl
      · rfl
      · rfl
    unfold NoiseTransport.send
    rw [hsession]
    rcases NoiseTransport.sendChunks A t.session (Bytes.chunks Noise.maxPlaintextSize m) with
      e | ⟨session, written⟩
    · rfl
    · exact congrArg Except.ok (hconsume session).symm

end Lando.Host.Post
