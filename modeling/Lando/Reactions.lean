/-
Lando/Reactions.lean

How the two clients react to control frames.

The firmware puts control frames aside while it parses a batch and has room
for four of them; the host answers them where it meets them.  Over the same
transport the two go through the same states as long as the room is enough
(`Few`): beyond the fourth control frame of a batch there are only frames that
ask for nothing, or one of the first four ended the call.

The comparison is a lockstep: `respond_alike` for one batch, then an induction
over the turns.
-/
import Lando.Posts

namespace Lando.H2

open Framing

variable {σ ε : Type}

/-! ### Outcomes -/

/-- The same error, or two errors for a call that the server closed. -/
def Failure.Alike (e e' : Failure ε) : Prop := e = e' ∨ e.Closed ∧ e'.Closed

/-- The same outcome, up to the error for a call that the server closed. -/
def Turned.Alike : Turned ε → Turned ε → Prop
  | .failed e, .failed e' => e.Alike e'
  | out, out' => out = out'

/-- Two clients that did the same. -/
structure Alike (r r' : Exchange σ × Turned ε) : Prop where
  sent : r.1.sent = r'.1.sent
  out : r.2.Alike r'.2
  state : ¬ r.2.Failed → r.1 = r'.1

theorem Turned.Alike.refl (out : Turned ε) : out.Alike out := by
  cases out with
  | failed e => exact .inl rfl
  | _ => rfl

theorem Turned.Alike.eq {out out' : Turned ε} (h : out.Alike out') (hout : ¬ out.Failed) :
    out = out' := by
  cases out with
  | failed e => exact absurd trivial hout
  | _ => exact h

theorem Alike.refl (r : Exchange σ × Turned ε) : Alike r r := ⟨rfl, .refl _, fun _ => rfl⟩

/-! ### Answers -/

/-- The firmware has room for the control frames: one of the first four ends
the call, or those behind them ask for nothing. -/
def Few (frames : List RawFrame) : Prop :=
  ((controlsOf frames).take Fw.Post.maxAcks).find? closes ≠ none ∨
    ∀ cf ∈ (controlsOf frames).drop Fw.Post.maxAcks, reaction cf = .pass

theorem answers_pass {cs : List (FrameHeader × List UInt8)} (h : ∀ cf ∈ cs, reaction cf = .pass) :
    answers cs = [] := by
  rw [answers, List.filterMap_eq_nil_iff]
  intro cf hcf
  rw [h cf hcf]

theorem closes_pass {cs : List (FrameHeader × List UInt8)} (h : ∀ cf ∈ cs, reaction cf = .pass) :
    cs.find? closes = none := by
  rw [List.find?_eq_none]
  intro cf hcf hc
  have := reaction_of_closes hc
  rw [h cf hcf] at this
  cases this

/-- Where the room is enough, nothing is left out. -/
theorem Few.answers {frames : List RawFrame} (h : Few frames)
    (hspared : ((controlsOf frames).take Fw.Post.maxAcks).find? closes = none) :
    H2.answers ((controlsOf frames).take Fw.Post.maxAcks) = H2.answers (controlsOf frames) ∧
      (controlsOf frames).find? closes = none := by
  have hpass := h.resolve_left fun hne => hne hspared
  have hsplit := List.take_append_drop Fw.Post.maxAcks (controlsOf frames)
  refine ⟨?_, ?_⟩
  · conv_rhs => rw [← hsplit, answers_append, answers_pass hpass, List.append_nil]
  · rw [← hsplit, List.find?_append, hspared, closes_pass hpass]
    rfl

section Replies

variable (T : Transport σ ε) (closed closed' : FrameHeader → List UInt8 → Failure ε)

theorem replies_pass {link : σ} {cs : List (FrameHeader × List UInt8)}
    (h : ∀ cf ∈ cs, reaction cf = .pass) : replies T closed link cs = (link, [], none) := by
  induction cs with
  | nil => rfl
  | cons cf cs ih =>
    rw [replies, h cf List.mem_cons_self]
    exact ih fun cf' hcf' => h cf' (List.mem_cons_of_mem cf hcf')

/-- The error for a closed call does not matter. -/
theorem replies_alike (hclosed : ∀ h p, (closed h p).Closed) (hclosed' : ∀ h p, (closed' h p).Closed)
    (link : σ) (cs : List (FrameHeader × List UInt8)) :
    (replies T closed link cs).1 = (replies T closed' link cs).1 ∧
      (replies T closed link cs).2.1 = (replies T closed' link cs).2.1 ∧
      Option.Rel Failure.Alike (replies T closed link cs).2.2 (replies T closed' link cs).2.2 := by
  induction cs generalizing link with
  | nil => exact ⟨rfl, rfl, .none⟩
  | cons cf cs ih =>
    rw [replies, replies]
    cases reaction cf with
    | answer c =>
      simp only
      rcases T.send link (Cmd.frame c).wire with e | link'
      · exact ⟨rfl, rfl, .some (.inl rfl)⟩
      · obtain ⟨hlink, hmsgs, hout⟩ := ih link'
        exact ⟨hlink, congrArg (List.cons _) hmsgs, hout⟩
    | close => exact ⟨rfl, rfl, .some (.inr ⟨hclosed _ _, hclosed' _ _⟩)⟩
    | pass => exact ih link

/-- Four are enough. -/
theorem Few.replies {frames : List RawFrame} (h : Few frames) (link : σ) :
    H2.replies T closed link ((controlsOf frames).take Fw.Post.maxAcks) =
      H2.replies T closed link (controlsOf frames) := by
  have hsplit := List.take_append_drop Fw.Post.maxAcks (controlsOf frames)
  have happend := replies_append T closed link ((controlsOf frames).take Fw.Post.maxAcks)
    ((controlsOf frames).drop Fw.Post.maxAcks)
  have hreplied := replied T closed link ((controlsOf frames).take Fw.Post.maxAcks)
  rw [hsplit] at happend
  rcases he : H2.replies T closed link ((controlsOf frames).take Fw.Post.maxAcks) with
    ⟨link', msgs, - | e⟩
  · rw [he] at happend hreplied
    have hpass := h.resolve_left fun hne => hne (hreplied.ok rfl).2
    rw [happend]
    simp only [replies_pass T closed hpass, List.append_nil]
  · rw [he] at happend
    exact happend.symm

end Replies

/-! ### Turns -/

theorem closed_closed (h : FrameHeader) (p : List UInt8) :
    (Host.Post.closed (ε := ε) h p).Closed := by
  unfold Host.Post.closed
  by_cases hgoaway : h.kind = frameType.goaway
  · rw [if_pos hgoaway]
    trivial
  · rw [if_neg hgoaway]
    trivial

section Turns

variable {T : Transport σ ε} (streamId : UInt32) {frames : List RawFrame} {n : ℕ}
  {x : Exchange σ} {rest : List UInt8}

/-- One batch. -/
theorem respond_alike (hready : Ready T frames n x)
    (hbatch : (wires frames).drop n = T.buffered x.link ++ rest)
    (hfew : Few (fresh frames n (T.buffered x.link).length)) :
    Alike (Fw.Post.respond T streamId x) (Host.Post.respond T streamId (fun _ => true) x) := by
  have hcontrols := hready.controls hbatch
  have hstanding := hready.placed.standing
  -- both clients answer as if over the link before it was consumed
  obtain ⟨hlink, hmsgs, hout⟩ := replies_alike T (fun _ _ => .server) Host.Post.closed
    (fun _ _ => trivial) closed_closed x.link
    (controlsOf (fresh frames n (T.buffered x.link).length))
  rw [Fw.Post.respond_eq T streamId hstanding]
  simp only [Fw.Post.steps_control, hcontrols, hfew.replies T _, replies_consume]
  have hsteps := Host.Post.steps_take T streamId (fun _ => true)
    { x with received := x.received ++ [T.buffered x.link] } false
    (feedBatch x.reader (T.buffered x.link)).2
  obtain ⟨hok, hfailed⟩ := feedLoop_batch (Host.Post.take T streamId fun _ => true)
    ({ x with received := x.received ++ [T.buffered x.link] }, false) hstanding
    (T.buffered x.link)
  simp only [hcontrols] at hsteps
  unfold Host.Post.respond
  simp only
  rcases ha : replies T (fun _ _ => .server) x.link
    (controlsOf (fresh frames n (T.buffered x.link).length)) with ⟨link, msgs, out⟩
  rcases hb : replies T Host.Post.closed x.link
    (controlsOf (fresh frames n (T.buffered x.link).length)) with ⟨link', msgs', out'⟩
  rw [ha, hb] at hlink hmsgs hout
  simp only at hlink hmsgs hout
  subst hlink hmsgs
  simp only [hb] at hsteps
  rcases hsteps with ⟨chunks, done, hsteps, hdone⟩ | ⟨st, chunks, -, hfalse⟩
  · cases hout with
    | none =>
      obtain ⟨rfl, rfl⟩ := hdone rfl
      rw [hok _ hsteps]
      exact .refl _
    | some hfailure =>
      obtain ⟨r', offset, hloop⟩ := hfailed _ _ hsteps
      rw [hloop]
      exact ⟨rfl, hfailure, fun hno => absurd trivial hno⟩
  · cases hfalse

/-- **The lockstep.**  Turn by turn the two clients do the same. -/
theorem run_alike {k : ℕ} {batches : List (List UInt8)} (hready : Ready T frames n x)
    (hbytes : (wires frames).drop n = batches.flatten ++ rest)
    (hreceived : (Fw.Post.readResponse T streamId k x).1.received = x.received ++ batches)
    (hfew : EachBatch Few frames n batches) :
    Alike (Fw.Post.readResponse T streamId k x)
      (Host.Post.readUntilEndOf T streamId (fun _ => true) k x) := by
  unfold Fw.Post.readResponse at hreceived
  unfold Fw.Post.readResponse Host.Post.readUntilEndOf
  induction k generalizing n x batches with
  | zero => exact .refl _
  | succ k ih =>
    -- the link hands over a batch, has none yet or fails; all but the first are the same
    rcases turn_cases T x with ⟨link, hsound, hturn⟩ | ⟨link, -, hturn⟩ | ⟨link, e, hturn⟩
    · have hlink : Ready T frames n { x with link := link } :=
        ⟨hready.placed, hready.paid, hsound hready.sound⟩
      rcases he : Fw.Post.respond T streamId { x with link := link } with ⟨y, out⟩
      obtain ⟨later, rfl, hagain, -⟩ :=
        first_batch (fun x => ((Fw.Post.responds T streamId).kept x).1) (hturn _) he hreceived
      rw [List.flatten_cons, List.append_assoc] at hbytes
      have hone := respond_alike streamId hlink hbytes hfew.1
      have htook := (Fw.Post.responds T streamId).responded hlink hbytes
      rcases hh : Host.Post.respond T streamId (fun _ => true) { x with link := link } with ⟨y', out'⟩
      rw [he, hh] at hone
      rw [he] at htook
      rw [run, run, hturn, hturn, he, hh]
      -- as long as the firmware goes on the states agree, and the induction goes on too
      cases out with
      | again =>
        obtain rfl := hone.out.eq id
        obtain rfl : y = y' := hone.state id
        have htook : Took T streamId (List.take Fw.Post.maxAcks) frames n (T.buffered link)
          { x with link := link } y false := htook
        refine ih htook.ready ?_ (hagain rfl) hfew.2
        rw [← List.drop_drop, hbytes, List.drop_left]
      | done =>
        obtain rfl := hone.out.eq id
        exact hone
      | waiting =>
        obtain rfl := hone.out.eq id
        exact hone
      | failed e =>
        cases out' with
        | failed e' => exact hone
        | _ => cases hone.out
    · rw [run, run, hturn, hturn]
      exact .refl _
    · rw [run, run, hturn, hturn]
      exact .refl _

end Turns

/-! ### Replies -/

/-- The frame that a server's frame asks for. -/
def replyTo (f : RawFrame) : Option RawFrame :=
  if f.kind = frameType.settings ∧ f.flags &&& flag.ack = 0 then some (Cmd.frame settingsAck)
  else if f.kind = frameType.ping ∧ f.flags &&& flag.ack = 0 then
    some (Cmd.frame (pingAck f.payload))
  else none

theorem pingAck_take (payload : List UInt8) :
    Cmd.frame (pingAck (payload.take controlFrameMax)) = Cmd.frame (pingAck payload) := by
  have hdata : Writer.pingData (payload.take controlFrameMax) = Writer.pingData payload := by
    rw [Writer.pingData, List.take_take, Nat.min_eq_left (by decide), Writer.pingData]
  unfold Cmd.frame
  congr 1

theorem answers_asControl (f : RawFrame) :
    answers f.asControl = ((replyTo f).map RawFrame.wire).toList := by
  unfold RawFrame.asControl
  by_cases hsettings : f.kind = frameType.settings ∧ f.flags &&& flag.ack = 0
  · have hcontrol : isControl f.kind = true := by
      rw [hsettings.1]
      decide
    have hr : reaction (f.header, f.payload.take controlFrameMax) = .answer settingsAck :=
      if_pos hsettings
    rw [replyTo, if_pos hsettings, if_pos hcontrol, answers, List.filterMap_cons, hr]
    rfl
  by_cases hping : f.kind = frameType.ping ∧ f.flags &&& flag.ack = 0
  · have hcontrol : isControl f.kind = true := by
      rw [hping.1]
      decide
    have hr : reaction (f.header, f.payload.take controlFrameMax) =
        .answer (pingAck (f.payload.take controlFrameMax)) :=
      (if_neg hsettings).trans (if_pos hping)
    rw [replyTo, if_neg hsettings, if_pos hping, if_pos hcontrol, answers, List.filterMap_cons, hr,
      ← pingAck_take]
    rfl
  · have hr : reaction (f.header, f.payload.take controlFrameMax) =
        if f.kind = frameType.goaway ∨ f.kind = frameType.rstStream then .close else .pass :=
      (if_neg hsettings).trans (if_neg hping)
    rw [replyTo, if_neg hsettings, if_neg hping, answers, List.filterMap_eq_nil_iff.mpr]
    · rfl
    intro cf hcf
    split_ifs at hcf
    · rw [List.mem_singleton.mp hcf, hr]
      split_ifs
      · rfl
      · rfl
    · cases hcf

theorem answers_controlsOf (frames : List RawFrame) :
    answers (controlsOf frames) = (frames.filterMap replyTo).map RawFrame.wire := by
  induction frames with
  | nil => rfl
  | cons f frames ih =>
    show answers (f.asControl ++ controlsOf frames) = _
    rw [answers_append, answers_asControl, ih, List.filterMap_cons]
    rcases replyTo f with - | reply
    · rfl
    · rfl

/-- GOAWAY and RST_STREAM are heeded. -/
theorem not_closing {frames : List RawFrame} (h : (controlsOf frames).find? closes = none) :
    ∀ f ∈ frames, f.kind ≠ frameType.goaway ∧ f.kind ≠ frameType.rstStream := by
  intro f hf
  rw [List.find?_eq_none] at h
  have hmem : isControl f.kind = true →
      (f.header, f.payload.take controlFrameMax) ∈ controlsOf frames := by
    intro hcontrol
    refine List.mem_flatMap.mpr ⟨f, hf, ?_⟩
    rw [RawFrame.asControl, if_pos hcontrol]
    exact List.mem_singleton_self _
  refine ⟨fun hkind => ?_, fun hkind => ?_⟩
  · refine h _ (hmem (by rw [hkind]; decide)) ?_
    show (f.kind == _ || f.kind == _) = true
    rw [hkind]
    decide
  · refine h _ (hmem (by rw [hkind]; decide)) ?_
    show (f.kind == _ || f.kind == _) = true
    rw [hkind]
    decide

/-- **Reactions.**  Over the same transport, where the room of the firmware is
enough in every batch, the two clients send the same and end alike, turn by
turn.  Every call of the firmware that has not failed then answered each
SETTINGS and each PING of the server in order, and no GOAWAY or RST_STREAM
arrived in it. -/
theorem reactions_of_few {T : Transport σ ε} {frames : List RawFrame} :
    (∀ (streamId : UInt32) (k n : ℕ) (x : Exchange σ) (batches : List (List UInt8))
      (rest : List UInt8), Ready T frames n x → (wires frames).drop n = batches.flatten ++ rest →
      (Fw.Post.readResponse T streamId k x).1.received = x.received ++ batches →
      EachBatch Few frames n batches →
        Alike (Fw.Post.readResponse T streamId k x)
          (Host.Post.readUntilEndOf T streamId (fun _ => true) k x)) ∧
    (∀ (authority path : String) (body : List UInt8) (k n : ℕ) (link : σ) (reader : FrameReader)
      (nextStream : UInt32) (rest : List UInt8), Idle T frames n link reader nextStream →
      let r := Fw.Post.postStream T authority path body k (.idle link reader nextStream)
      (wires frames).drop n = r.1.received.flatten ++ rest →
      EachBatch Few frames n r.1.received → ¬ r.2.Failed →
        r.1.sent.filter isReply =
            ((fresh frames n r.1.received.flatten.length).filterMap replyTo).map RawFrame.wire ∧
          ∀ f ∈ fresh frames n r.1.received.flatten.length,
            f.kind ≠ frameType.goaway ∧ f.kind ≠ frameType.rstStream) := by
  refine ⟨fun streamId k n x batches rest hready hbytes hreceived hfew => ?_, ?_⟩
  · exact run_alike streamId hready hbytes hreceived hfew
  · intro authority path body k n link reader nextStream rest hidle r hbytes hfew hout
    rcases called_postStream authority path body k hidle.ready hbytes with
      ⟨e, he, -⟩ | ⟨y, hrequested, hran⟩
    · rw [show r.2 = .failed e from he] at hout
      exact absurd trivial hout
    · have hall := (hfew.and (hran.spared hout)).imp fun fs h => h.1.answers h.2
      obtain ⟨msgs, hsent, hmsgs⟩ := hran.replied hout (hall.imp fun _ h => h.1)
      obtain ⟨link', asked, rfl, hasked⟩ := hrequested.changed
      refine ⟨?_, (hall.imp fun _ h => not_closing h.2).forall⟩
      have hquiet : asked.filter isReply = [] := by
        rw [List.filter_eq_nil_iff]
        intro msg hmsg
        rw [isReply, Bool.or_eq_true, beq_iff_eq, beq_iff_eq]
        rcases hasked msg hmsg with hkind | hkind
        · rw [hkind]
          decide
        · rw [hkind]
          decide
      have hsent' : r.1.sent = asked ++ msgs := hsent
      rw [hsent', List.filter_append, hquiet, List.nil_append, hmsgs, answers_controlsOf]

theorem zero_isId : (0 : UInt32).toNat < 2 ^ 31 := by decide

theorem length_pingPayload : ([1, 2, 3, 4, 5, 6, 7, 8] : List UInt8).length < 2 ^ 24 := by decide

theorem one_isId : (1 : UInt32).toNat < 2 ^ 31 := by decide

theorem settings_fits : (Cmd.settings 65535 16384).payload.length < 2 ^ 24 := by
  show (settingsBytes _).length < 2 ^ 24
  rw [length_settingsBytes]
  decide

/-- A PING of the server. -/
def ping : RawFrame :=
  ⟨frameType.ping, 0, 0, [1, 2, 3, 4, 5, 6, 7, 8], zero_isId, length_pingPayload⟩

/-- SETTINGS and a PING, in one batch. -/
def greeting : List RawFrame := [Cmd.frame ⟨.settings 65535 16384, zero_isId, settings_fits⟩, ping]

theorem reactions_of_few_greeting :
    let x := Exchange.idle ([], [wires greeting]) FrameReader.new 1
    let r := Fw.Post.postStream playback "a" "/" [1] 1 x
    Alike (Fw.Post.readResponse playback 1 1 x)
        (Host.Post.readUntilEndOf playback 1 (fun _ => true) 1 x) ∧
      r.1.sent.filter isReply = (greeting.filterMap replyTo).map RawFrame.wire := by
  intro x r
  have hidle := idle_playback greeting (wires greeting) (by decide)
  have hfew : EachBatch Few greeting 0 [wires greeting] := by
    refine ⟨.inr ?_, trivial⟩
    rw [show (controlsOf (fresh greeting 0 (wires greeting).length)).drop Fw.Post.maxAcks = [] by
      decide +kernel]
    exact nofun
  have hreceived : r.1.received = [wires greeting] := by decide +kernel
  have hout : ¬ r.2.Failed := by
    rw [show r.2 = .again by decide +kernel]
    exact id
  have hheard : EachBatch Few greeting 0 r.1.received := by
    rw [hreceived]
    exact hfew
  obtain ⟨halike, hreplies⟩ := @reactions_of_few _ _ playback greeting
  refine ⟨halike 1 1 0 x [wires greeting] [] hidle.ready (by decide +kernel) (by decide +kernel) hfew,
    ?_⟩
  have h := (hreplies "a" "/" [1] 1 0 _ _ _ [] hidle (by decide +kernel) hheard hout).1
  exact h.trans (by decide +kernel)

/-- Five PINGs in one batch. -/
def pings : List RawFrame := List.replicate 5 ping

/-- Four PINGs and RST_STREAM of the response in one batch. -/
def lateReset : List RawFrame := List.replicate 4 ping ++ [reset 1 one_isId]

/-- **The fifth control frame of a batch is lost.**  The firmware leaves a
PING without its answer, and goes on after RST_STREAM of the response. -/
theorem fifth_control_frame_ignored :
    let x := Exchange.idle ([], [wires pings]) FrameReader.new 1
    let y := Exchange.idle ([], [wires lateReset]) FrameReader.new 1
    Idle playback pings 0 ([], [wires pings]) .new 1 ∧
      (Fw.Post.readResponse playback 1 1 x).2 = .again ∧
      ((Fw.Post.readResponse playback 1 1 x).1.sent.filter isReply).length = 4 ∧
      ((Host.Post.readUntilEndOf playback 1 (fun _ => true) 1 x).1.sent.filter isReply).length = 5 ∧
      Idle playback lateReset 0 ([], [wires lateReset]) .new 1 ∧
      (Fw.Post.readResponse playback 1 1 y).2 = .again ∧
      (Host.Post.readUntilEndOf playback 1 (fun _ => true) 1 y).2 = .failed (.reset 8) := by
  refine ⟨idle_playback _ _ (by decide), by decide +kernel, by decide +kernel, by decide +kernel,
    idle_playback _ _ (by decide), by decide +kernel, by decide +kernel⟩

end Lando.H2
