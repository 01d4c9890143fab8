/-
Lando/H2Run.lean

Runs of an HTTP/2 client over the frames of a server.

Position `n` in the byte stream of the frames says how far the client has
read.  A turn takes up one batch, which completes the frames `fresh` and may
end inside the next one; `Took` says what the turn did in terms of these, and
`Broke` what is known of a turn that failed.  The two clients differ in one
thing, the control frames of a batch which they heed.

A run is a sequence of such turns (`Ran`), and what holds of whole runs goes
by induction on it: what was handed over, what was answered, the credit
returned, and where the response ended.
-/
import Lando.H2Client

namespace Lando.H2

open Framing

variable {σ ε : Type}

/-! ### Positions -/

theorem complete_prefix (frames : List RawFrame) (n k : ℕ) :
    complete frames n <+: complete frames (n + k) := by
  induction frames generalizing n with
  | nil => exact List.prefix_refl _
  | cons f frames ih =>
    rw [complete, complete]
    by_cases h : f.wire.length ≤ n
    · rw [if_pos h, if_pos (by omega), Nat.sub_add_comm h]
      exact (List.prefix_cons_inj f).mpr (ih _)
    · rw [if_neg h]
      exact List.nil_prefix

/-- The frames that the next `k` bytes complete. -/
def fresh (frames : List RawFrame) (n k : ℕ) : List RawFrame :=
  (complete frames (n + k)).drop (complete frames n).length

theorem complete_add (frames : List RawFrame) (n k : ℕ) :
    complete frames (n + k) = complete frames n ++ fresh frames n k := by
  obtain ⟨mid, hmid⟩ := complete_prefix frames n k
  rw [fresh, ← hmid, List.drop_left]

theorem fresh_eq {frames mid : List RawFrame} {n k : ℕ}
    (h : complete frames (n + k) = complete frames n ++ mid) : fresh frames n k = mid := by
  rw [fresh, h, List.drop_left]

theorem fresh_zero (frames : List RawFrame) (n : ℕ) : fresh frames n 0 = [] :=
  fresh_eq (List.append_nil _).symm

theorem fresh_add (frames : List RawFrame) (n j k : ℕ) :
    fresh frames n (j + k) = fresh frames n j ++ fresh frames (n + j) k := by
  apply fresh_eq
  rw [← List.append_assoc, ← complete_add, ← complete_add, Nat.add_assoc]

theorem mem_of_mem_fresh {frames : List RawFrame} {n k : ℕ} {f : RawFrame}
    (h : f ∈ fresh frames n k) : f ∈ frames := by
  have hcomplete : ∀ (frames : List RawFrame) n, complete frames n ⊆ frames := by
    intro frames
    induction frames with
    | nil => exact fun _ => List.Subset.refl _
    | cons f frames ih =>
      intro n
      rw [complete]
      split_ifs
      · exact List.cons_subset_cons f (ih _)
      · exact List.nil_subset _
  exact hcomplete frames (n + k) (List.mem_of_mem_drop h)

/-- A byte of the stream is at most one of DATA payload. -/
theorem length_dataIn_add_le (on : FrameHeader → Bool) (frames : List RawFrame) (n k : ℕ) :
    (dataIn on frames (n + k)).length ≤ (dataIn on frames n).length + k := by
  induction frames generalizing n k with
  | nil => exact Nat.zero_le _
  | cons f frames ih =>
    have hrest := ih (n - f.wire.length) (n + k - f.wire.length - (n - f.wire.length))
    rw [Nat.add_sub_cancel' (by omega)] at hrest
    rw [dataIn, dataIn, List.length_append, List.length_append]
    have hwire := f.length_wire
    split_ifs
    · rw [List.length_take, List.length_take]
      omega
    · rw [List.length_nil, Nat.zero_add, Nat.zero_add]
      omega

theorem length_dataIn_le (on : FrameHeader → Bool) (frames : List RawFrame) (n k : ℕ) :
    (dataIn on frames n).length ≤ (dataIn on frames (n + k)).length := by
  induction frames generalizing n k with
  | nil => exact Nat.zero_le _
  | cons f frames ih =>
    have hrest := ih (n - f.wire.length) (n + k - f.wire.length - (n - f.wire.length))
    rw [Nat.add_sub_cancel' (by omega)] at hrest
    rw [dataIn, dataIn, List.length_append, List.length_append]
    split_ifs
    · rw [List.length_take, List.length_take]
      omega
    · exact Nat.add_le_add_left hrest _

/-- Where no DATA follows, all of it was taken up. -/
theorem dataIn_eq_flatMap {on : FrameHeader → Bool} {frames : List RawFrame} {n : ℕ}
    (h : ∀ f ∈ frames.drop (complete frames n).length, f.asData on = []) :
    dataIn on frames n = frames.flatMap (RawFrame.asData on) := by
  induction frames generalizing n with
  | nil => rfl
  | cons f frames ih =>
    rw [dataIn, List.flatMap_cons]
    rw [complete] at h
    by_cases hle : f.wire.length ≤ n
    · rw [if_pos hle, List.length_cons, List.drop_succ_cons] at h
      have hall : f.payload.take (n - frameHeaderLen) = f.payload := by
        rw [f.length_wire] at hle
        exact List.take_of_length_le (by omega)
      rw [ih h, hall]
      rfl
    · rw [if_neg hle, List.length_nil, List.drop_zero] at h
      have hrest : frames.flatMap (RawFrame.asData on) = [] :=
        List.flatMap_eq_nil_iff.mpr fun g hg => h g (List.mem_cons_of_mem f hg)
      have hf := h f List.mem_cons_self
      have hnone : n - f.wire.length = 0 := by omega
      rw [hf, hrest, hnone, dataIn_zero, List.append_nil]
      unfold RawFrame.asData at hf
      split_ifs with hon
      · rw [if_pos hon] at hf
        rw [hf, List.take_nil]
        rfl
      · rfl

/-- How many DATA bytes the next `k` bytes hold. -/
def owed (frames : List RawFrame) (n k : ℕ) : ℕ :=
  (dataIn everyStream frames (n + k)).length - (dataIn everyStream frames n).length

theorem dataIn_add_owed (frames : List RawFrame) (n k : ℕ) :
    (dataIn everyStream frames n).length + owed frames n k =
      (dataIn everyStream frames (n + k)).length :=
  Nat.add_sub_cancel' (length_dataIn_le _ _ _ _)

theorem owed_le (frames : List RawFrame) (n k : ℕ) : owed frames n k ≤ k :=
  Nat.sub_le_iff_le_add'.mpr (length_dataIn_add_le _ _ _ _)

/-! ### Frames of a batch -/

/-- The control frames among frames, as the reader hands them back. -/
def controlsOf (frames : List RawFrame) : List (FrameHeader × List UInt8) :=
  frames.flatMap RawFrame.asControl

theorem mem_controlsOf {frames : List RawFrame} {cf : FrameHeader × List UInt8}
    (h : cf ∈ controlsOf frames) :
    ∃ f ∈ frames, cf = (f.header, f.payload.take controlFrameMax) := by
  obtain ⟨f, hf, hcf⟩ := List.mem_flatMap.mp h
  unfold RawFrame.asControl at hcf
  split_ifs at hcf
  · exact ⟨f, hf, List.mem_singleton.mp hcf⟩
  · cases hcf

/-- A frame that the clients take for the end of the response. -/
def ending (streamId : UInt32) (f : RawFrame) : Bool := !isControl f.kind && ends streamId f.header

theorem any_finals (streamId : UInt32) (frames : List RawFrame) :
    (frames.flatMap RawFrame.asFinal).any (ends streamId) = frames.any (ending streamId) := by
  rw [List.any_flatMap]
  congr 1
  funext f
  unfold RawFrame.asFinal ending
  cases isControl f.kind <;> simp

/-! ### Messages -/

/-- The kind of the frame in a message. -/
def kindOf (msg : List UInt8) : UInt8 := (parseHeader (msg.take frameHeaderLen)).kind

/-- The increment of a WINDOW_UPDATE for a stream. -/
def increment (id : UInt32) (msg : List UInt8) : ℕ :=
  let header := parseHeader (msg.take frameHeaderLen)
  if header.kind = frameType.windowUpdate ∧ header.streamId = id then
    Bytes.fromBE (Bytes.slice msg frameHeaderLen (frameHeaderLen + 4))
  else 0

/-- The credit that messages return for a stream. -/
def credit (id : UInt32) (msgs : List (List UInt8)) : ℕ := (msgs.map (increment id)).sum

/-- A SETTINGS or PING frame. -/
def isReply (msg : List UInt8) : Bool :=
  kindOf msg == frameType.settings || kindOf msg == frameType.ping

theorem credit_append (id : UInt32) (msgs msgs' : List (List UInt8)) :
    credit id (msgs ++ msgs') = credit id msgs + credit id msgs' := by
  rw [credit, List.map_append, List.sum_append, credit, credit]

theorem increment_of_kind {msg : List UInt8} (id : UInt32)
    (h : kindOf msg ≠ frameType.windowUpdate) : increment id msg = 0 :=
  if_neg fun hc => h hc.1

theorem credit_of_kind {msgs : List (List UInt8)} (id : UInt32)
    (h : ∀ msg ∈ msgs, kindOf msg ≠ frameType.windowUpdate) : credit id msgs = 0 := by
  rw [credit, List.sum_eq_zero_iff_forall_eq_nat]
  intro n hn
  obtain ⟨msg, hmsg, rfl⟩ := List.mem_map.mp hn
  exact increment_of_kind id (h msg hmsg)

theorem RawFrame.parseHeader_wire (f : RawFrame) :
    parseHeader (f.wire.take frameHeaderLen) = f.header := by
  rw [wire, ← f.length_head, List.take_left, f.parseHeader_head]

theorem kindOf_wire (f : RawFrame) : kindOf f.wire = f.kind := by
  rw [kindOf, f.parseHeader_wire]
  rfl

theorem kindOf_answers {cs : List (FrameHeader × List UInt8)} {msg : List UInt8}
    (h : msg ∈ answers cs) : kindOf msg = frameType.settings ∨ kindOf msg = frameType.ping := by
  obtain ⟨cf, -, hcf⟩ := List.mem_filterMap.mp h
  unfold reaction at hcf
  split_ifs at hcf
  · rw [← Option.some.inj hcf, kindOf_wire]
    exact .inl rfl
  · rw [← Option.some.inj hcf, kindOf_wire]
    exact .inr rfl

theorem answers_append (cs cs' : List (FrameHeader × List UInt8)) :
    answers (cs ++ cs') = answers cs ++ answers cs' := List.filterMap_append

theorem isReply_answers (cs : List (FrameHeader × List UInt8)) :
    (answers cs).filter isReply = answers cs := by
  rw [List.filter_eq_self]
  intro msg hmsg
  rw [isReply, Bool.or_eq_true, beq_iff_eq, beq_iff_eq]
  exact kindOf_answers hmsg

theorem credit_answers (id : UInt32) (cs : List (FrameHeader × List UInt8)) :
    credit id (answers cs) = 0 := by
  apply credit_of_kind
  intro msg hmsg
  rcases kindOf_answers hmsg with h | h
  · rw [h]
    decide
  · rw [h]
    decide

/-- What is sent for `owed` DATA bytes. -/
def update (owed : ℕ) : List (List UInt8) :=
  if owed = 0 then [] else [(Cmd.frame (windowUpdate (.ofNat owed))).wire]

theorem isReply_update (owed : ℕ) : (update owed).filter isReply = [] := by
  rw [List.filter_eq_nil_iff]
  intro msg hmsg
  unfold update at hmsg
  split_ifs at hmsg
  · cases hmsg
  · rw [List.mem_singleton.mp hmsg, isReply, kindOf_wire]
    exact Bool.false_ne_true

/-- The credit goes to the connection. -/
theorem credit_update {owed : ℕ} (h : owed < 2 ^ 31) : credit 0 (update owed) = owed := by
  unfold update
  split_ifs with h0
  · exact h0.symm
  · have hmask : (UInt32.ofNat owed &&& 0x7fffffff).toNat = owed := by
      have h' : (UInt32.ofNat owed).toNat = owed :=
        UInt32.toNat_ofNat_of_lt' (Nat.lt_trans h (by decide))
      have hand : UInt32.ofNat owed &&& streamIdMask = UInt32.ofNat owed :=
        and_streamIdMask (by rw [h']; exact h)
      show (UInt32.ofNat owed &&& streamIdMask).toNat = owed
      rw [hand, h']
    have hpayload : (Cmd.frame (windowUpdate (.ofNat owed))).payload = Bytes.toBE 4 owed :=
      congrArg (Bytes.toBE 4) hmask
    show increment 0 _ + 0 = owed
    rw [Nat.add_zero, increment, RawFrame.parseHeader_wire]
    refine (if_pos ⟨rfl, rfl⟩).trans ?_
    rw [RawFrame.wire, hpayload, Bytes.slice, ← RawFrame.length_head, List.drop_left,
      Nat.add_sub_cancel_left, List.take_of_length_le (Nat.le_of_eq (Bytes.length_toBE 4 _))]
    exact Bytes.fromBE_toBE (Nat.lt_trans h (by decide))

theorem credit_update_ne {id : UInt32} (h : id ≠ 0) (owed : ℕ) : credit id (update owed) = 0 := by
  unfold update
  split_ifs
  · rfl
  · show increment id _ + 0 = 0
    rw [Nat.add_zero, increment, RawFrame.parseHeader_wire]
    exact if_neg fun hc => h hc.2.symm

/-! ### Turns -/

/-- A client between two turns: `n` bytes of the stream are taken up, and the
credit for them is returned. -/
structure Ready (T : Transport σ ε) (frames : List RawFrame) (n : ℕ) (x : Exchange σ) : Prop where
  placed : Placed x.reader frames n
  paid : x.reader.pendingWindow = 0
  sound : T.Sound x.link

/-- A turn that took up the batch that waited.  The client heeds the control
frames `heed` of it. -/
structure Took (T : Transport σ ε) (streamId : UInt32)
    (heed : List (FrameHeader × List UInt8) → List (FrameHeader × List UInt8))
    (frames : List RawFrame) (n : ℕ) (batch : List UInt8) (x y : Exchange σ) (done : Bool) :
    Prop where
  ready : Ready T frames (n + batch.length) y
  handed : ∃ chunks, y.handed = x.handed ++ chunks ∧
    dataIn (onStream streamId) frames n ++ chunks.flatten =
      dataIn (onStream streamId) frames (n + batch.length)
  sent : y.sent = x.sent ++ (answers (heed (controlsOf (fresh frames n batch.length))) ++
    update (owed frames n batch.length))
  length_lt : batch.length < 2 ^ 31
  spared : (heed (controlsOf (fresh frames n batch.length))).find? closes = none
  ended : done = (fresh frames n batch.length).any (ending streamId)

/-- What a client does with the batch that waits. -/
def Responded (T : Transport σ ε) (streamId : UInt32)
    (heed : List (FrameHeader × List UInt8) → List (FrameHeader × List UInt8))
    (frames : List RawFrame) (n : ℕ) (batch : List UInt8) (x y : Exchange σ) : Turned ε → Prop
  | .again => Took T streamId heed frames n batch x y false
  | .done => Took T streamId heed frames n batch x y true
  | .waiting => False
  | .failed e => e.Closed →
      ∃ cf, (heed (controlsOf (fresh frames n batch.length))).find? closes = some cf

/-- A client that heeds the control frames `heed` of a batch. -/
structure Responds (T : Transport σ ε) (streamId : UInt32)
    (heed : List (FrameHeader × List UInt8) → List (FrameHeader × List UInt8))
    (respond : Exchange σ → Exchange σ × Turned ε) : Prop where
  kept : ∀ x, (respond x).1.received = x.received ++ [T.buffered x.link] ∧
    (respond x).1.nextStream = x.nextStream
  responded : ∀ {frames : List RawFrame} {n : ℕ} {x : Exchange σ} {rest : List UInt8},
    Ready T frames n x → (wires frames).drop n = T.buffered x.link ++ rest →
      Responded T streamId heed frames n (T.buffered x.link) x (respond x).1 (respond x).2

theorem Ready.pendingWindow {T : Transport σ ε} {frames : List RawFrame} {n : ℕ} {x : Exchange σ}
    {batch rest : List UInt8} (h : Ready T frames n x)
    (hbatch : (wires frames).drop n = batch ++ rest) :
    (feedBatch x.reader batch).1.pendingWindow = .ofNat (owed frames n batch.length) := by
  have hdata := congrArg List.length ((h.placed.batch hbatch).data everyStream)
  have hpending : (feedBatch x.reader batch).1.pendingWindow = x.reader.pendingWindow +
      .ofNat (bodies (isData everyStream) (feedBatch x.reader batch).2).flatten.length :=
    pendingWindow_feedInput batch.length x.reader batch
  rw [List.length_append] at hdata
  rw [hpending, h.paid, UInt32.zero_add, owed, ← hdata, Nat.add_sub_cancel_left]

/-- The control frames of a batch, in terms of the frames it completes. -/
theorem Ready.controls {T : Transport σ ε} {frames : List RawFrame} {n : ℕ} {x : Exchange σ}
    {batch rest : List UInt8} (h : Ready T frames n x)
    (hbatch : (wires frames).drop n = batch ++ rest) :
    Framing.controls (feedBatch x.reader batch).2 = controlsOf (fresh frames n batch.length) := by
  obtain ⟨mid, hmid, hcontrols, -⟩ := (h.placed.batch hbatch).completed
  rw [hcontrols, fresh_eq hmid]
  rfl

/-- The end of a turn in which the control frames were answered. -/
theorem Ready.endTurn {T : Transport σ ε} {streamId : UInt32}
    {heed : List (FrameHeader × List UInt8) → List (FrameHeader × List UInt8)}
    {frames : List RawFrame} {n : ℕ} {x : Exchange σ} {batch rest : List UInt8} {link : σ}
    {msgs : List (List UInt8)} (h : Ready T frames n x)
    (hbatch : (wires frames).drop n = batch ++ rest) (hlen : batch.length < 2 ^ 31)
    (hsound : T.Sound link) (received : List (List UInt8))
    (hmsgs : msgs = answers (heed (controlsOf (fresh frames n batch.length))))
    (hspared : (heed (controlsOf (fresh frames n batch.length))).find? closes = none) :
    let res := Exchange.endTurn T { x with
      link := link
      reader := (feedBatch x.reader batch).1
      received := received
      sent := x.sent ++ msgs
      handed := x.handed ++ bodies (isData (onStream streamId)) (feedBatch x.reader batch).2 }
        ((finals (feedBatch x.reader batch).2).any (ends streamId))
    Responded T streamId heed frames n batch x res.1 res.2 := by
  have hspec := h.placed.batch hbatch
  obtain ⟨mid, hmid, -, hfinals⟩ := hspec.completed
  have hdone : (finals (feedBatch x.reader batch).2).any (ends streamId) =
      (fresh frames n batch.length).any (ending streamId) := by
    rw [hfinals, any_finals, fresh_eq hmid]
  have howed : owed frames n batch.length < 2 ^ 31 :=
    Nat.lt_of_le_of_lt (owed_le _ _ _) hlen
  -- a batch is too short for the count to wrap, so zero means nothing owed
  have hzero : UInt32.ofNat (owed frames n batch.length) = 0 ↔ owed frames n batch.length = 0 := by
    rw [← UInt32.toNat_inj, UInt32.toNat_ofNat_of_lt' (Nat.lt_trans howed (by decide))]
    rfl
  have htook : ∀ link', T.Sound link' →
      Took T streamId heed frames n batch x { x with
        link := link'
        reader := { (feedBatch x.reader batch).1 with pendingWindow := 0 }
        received := received
        sent := x.sent ++ msgs ++ update (owed frames n batch.length)
        handed := x.handed ++ bodies (isData (onStream streamId)) (feedBatch x.reader batch).2 }
          ((finals (feedBatch x.reader batch).2).any (ends streamId)) := by
    intro link' hsound'
    refine ⟨⟨hspec.placed, rfl, hsound'⟩, ⟨_, rfl, hspec.data _⟩, ?_, hlen, hspared, hdone⟩
    rw [hmsgs, List.append_assoc]
  have hresponded : ∀ y done, Took T streamId heed frames n batch x y done →
      Responded T streamId heed frames n batch x y (if done then .done else .again) := by
    intro y done hy
    cases done with
    | false => exact hy
    | true => exact hy
  simp only [Exchange.endTurn, Exchange.replenishWindow_eq, h.pendingWindow hbatch]
  -- nothing owed, nothing sent; otherwise one WINDOW_UPDATE
  by_cases h0 : owed frames n batch.length = 0
  · rw [if_pos (hzero.mpr h0)]
    have hlast := htook link hsound
    rw [update, if_pos h0, List.append_nil] at hlast
    exact hresponded _ _ hlast
  · rw [if_neg fun hc => h0 (hzero.mp hc), Exchange.send_eq]
    simp only
    rcases hsend : T.send link _ with e | link'
    · exact fun hclosed => hclosed.elim
    · have hlast := htook link' (T.sound_send hsound hsend)
      rw [update, if_neg h0] at hlast
      exact hresponded _ _ hlast

/-- Turns of a client, with the batches that they took up. -/
inductive Ran (T : Transport σ ε) (streamId : UInt32)
    (heed : List (FrameHeader × List UInt8) → List (FrameHeader × List UInt8))
    (frames : List RawFrame) :
    ℕ → Exchange σ → List (List UInt8) → Exchange σ → Turned ε → Prop
  | stop {n : ℕ} {x : Exchange σ} : Ran T streamId heed frames n x [] x .again
  | paused {n : ℕ} {x : Exchange σ} {link : σ} (sound : T.Sound link) :
      Ran T streamId heed frames n x [] { x with link := link } .waiting
  | cut {n : ℕ} {x : Exchange σ} {link : σ} {e : ε} :
      Ran T streamId heed frames n x [] { x with link := link } (.failed (.link e))
  | more {n : ℕ} {x y z : Exchange σ} {link : σ} {batch : List UInt8}
      {batches : List (List UInt8)} {out : Turned ε}
      (took : Took T streamId heed frames n batch { x with link := link } y false)
      (rest : Ran T streamId heed frames (n + batch.length) y batches z out) :
      Ran T streamId heed frames n x (batch :: batches) z out
  | last {n : ℕ} {x y : Exchange σ} {link : σ} {batch : List UInt8}
      (took : Took T streamId heed frames n batch { x with link := link } y true) :
      Ran T streamId heed frames n x [batch] y .done
  | broken {n : ℕ} {x y : Exchange σ} {batch : List UInt8} {e : Failure ε}
      (closed : e.Closed →
        ∃ cf, (heed (controlsOf (fresh frames n batch.length))).find? closes = some cf) :
      Ran T streamId heed frames n x [batch] y (.failed e)

variable {T : Transport σ ε} {streamId : UInt32}
  {heed : List (FrameHeader × List UInt8) → List (FrameHeader × List UInt8)}
  {frames : List RawFrame}

/-- A turn: the client responds to what waits, or the pump brought nothing. -/
theorem turn_cases (T : Transport σ ε) (x : Exchange σ) :
    (∃ link, (T.Sound x.link → T.Sound link) ∧
        ∀ respond, turn T respond x = respond { x with link := link }) ∨
      (∃ link, (T.Sound x.link → T.Sound link) ∧
        ∀ respond, turn T respond x = ({ x with link := link }, .waiting)) ∨
      ∃ link e, ∀ respond, turn T respond x = ({ x with link := link }, .failed (.link e)) := by
  unfold turn
  by_cases hnil : T.buffered x.link = []
  · have hsound := fun hs => T.sound_pump (t := x.link) hs hnil
    simp only [if_pos hnil]
    rcases hpump : T.pump x.link with ⟨link, - | - | e⟩
    · rw [hpump] at hsound
      exact .inl ⟨link, hsound, fun _ => rfl⟩
    · rw [hpump] at hsound
      exact .inr (.inl ⟨link, hsound, fun _ => rfl⟩)
    · exact .inr (.inr ⟨link, e, fun _ => rfl⟩)
  · simp only [if_neg hnil]
    exact .inl ⟨x.link, id, fun _ => rfl⟩

/-- Whatever a client does, what it received stays on record. -/
theorem received_run {respond : Exchange σ → Exchange σ × Turned ε}
    (h : ∀ x, (respond x).1.received = x.received ++ [T.buffered x.link]) (k : ℕ)
    (x : Exchange σ) : x.received <+: (run (turn T respond) k x).1.received := by
  have hturn : ∀ x : Exchange σ, x.received <+: (turn T respond x).1.received := by
    intro x
    rcases turn_cases T x with ⟨link, -, hturn⟩ | ⟨link, -, hturn⟩ | ⟨link, e, hturn⟩
    · rw [hturn]
      exact ⟨_, (h { x with link := link }).symm⟩
    · exact ⟨[], by rw [hturn, List.append_nil]⟩
    · exact ⟨[], by rw [hturn, List.append_nil]⟩
  induction k generalizing x with
  | zero => exact List.prefix_refl _
  | succ k ih =>
    have hx := hturn x
    rw [run]
    rcases he : turn T respond x with ⟨y, - | - | - | e⟩
    · rw [he] at hx
      exact hx.trans (ih y)
    all_goals
      rw [he] at hx
      exact hx

theorem nextStream_run {respond : Exchange σ → Exchange σ × Turned ε}
    (h : ∀ x, (respond x).1.nextStream = x.nextStream) (k : ℕ) (x : Exchange σ) :
    (run (turn T respond) k x).1.nextStream = x.nextStream := by
  have hturn : ∀ x : Exchange σ, (turn T respond x).1.nextStream = x.nextStream := by
    intro x
    rcases turn_cases T x with ⟨link, -, hturn⟩ | ⟨link, -, hturn⟩ | ⟨link, e, hturn⟩
    · rw [hturn]
      exact h { x with link := link }
    · rw [hturn]
    · rw [hturn]
  induction k generalizing x with
  | zero => rfl
  | succ k ih =>
    have hx := hturn x
    rw [run]
    rcases he : turn T respond x with ⟨y, - | - | - | e⟩
    · rw [he] at hx
      exact (ih y).trans hx
    all_goals
      rw [he] at hx
      exact hx

/-- The first batch of a run. -/
theorem first_batch {respond : Exchange σ → Exchange σ × Turned ε}
    (h : ∀ x, (respond x).1.received = x.received ++ [T.buffered x.link]) {k : ℕ}
    {x y : Exchange σ} {out : Turned ε} {link : σ} {batches : List (List UInt8)}
    (hturn : turn T respond x = respond { x with link := link })
    (he : respond { x with link := link } = (y, out))
    (hreceived : (run (turn T respond) (k + 1) x).1.received = x.received ++ batches) :
    ∃ later, batches = T.buffered link :: later ∧
      (out = .again → (run (turn T respond) k y).1.received = y.received ++ later) ∧
      (out ≠ .again → later = []) := by
  have hkeeps := h { x with link := link }
  rw [run, hturn] at hreceived
  rw [he] at hreceived hkeeps
  cases out with
  | again =>
    obtain ⟨later, hlater⟩ := received_run h k y
    have hall : x.received ++ (T.buffered link :: later) = x.received ++ batches := by
      rw [← hreceived, ← hlater, hkeeps, List.append_assoc]
      rfl
    exact ⟨later, (List.append_cancel_left hall).symm, fun _ => hlater.symm, fun hne => absurd rfl hne⟩
  | done =>
    exact ⟨[], (List.append_cancel_left (hkeeps.symm.trans hreceived)).symm, nofun, fun _ => rfl⟩
  | waiting =>
    exact ⟨[], (List.append_cancel_left (hkeeps.symm.trans hreceived)).symm, nofun, fun _ => rfl⟩
  | failed e =>
    exact ⟨[], (List.append_cancel_left (hkeeps.symm.trans hreceived)).symm, nofun, fun _ => rfl⟩

/-- The runs of a client. -/
theorem Responds.ran {respond : Exchange σ → Exchange σ × Turned ε}
    (h : Responds T streamId heed respond) {k n : ℕ} {x : Exchange σ}
    {batches : List (List UInt8)} {rest : List UInt8} (hready : Ready T frames n x)
    (hbytes : (wires frames).drop n = batches.flatten ++ rest)
    (hreceived : (run (turn T respond) k x).1.received = x.received ++ batches) :
    Ran T streamId heed frames n x batches (run (turn T respond) k x).1
      (run (turn T respond) k x).2 := by
  induction k generalizing n x batches with
  | zero =>
    obtain rfl := List.self_eq_append_right.mp hreceived
    exact .stop
  | succ k ih =>
    rcases turn_cases T x with ⟨link, hsound, hturn⟩ | ⟨link, hsound, hturn⟩ | ⟨link, e, hturn⟩
    · -- a batch: the turn ends the run or goes on behind it
      have hlink : Ready T frames n { x with link := link } :=
        ⟨hready.placed, hready.paid, hsound hready.sound⟩
      rcases he : respond { x with link := link } with ⟨y, out⟩
      obtain ⟨later, rfl, hagain, hlast⟩ := first_batch (fun x => (h.kept x).1) (hturn respond) he hreceived
      rw [List.flatten_cons, List.append_assoc] at hbytes
      have hresponded := h.responded hlink hbytes
      rw [he] at hresponded
      rw [run, hturn, he]
      cases out with
      | again =>
        have htook : Took T streamId heed frames n (T.buffered link) { x with link := link } y
          false := hresponded
        refine .more htook (ih htook.ready ?_ (hagain rfl))
        rw [← List.drop_drop, hbytes, List.drop_left]
      | done =>
        obtain rfl := hlast nofun
        exact .last hresponded
      | waiting => exact hresponded.elim
      | failed e =>
        obtain rfl := hlast nofun
        exact .broken hresponded
    · rw [run, hturn] at hreceived ⊢
      obtain rfl := List.self_eq_append_right.mp hreceived
      exact .paused (hsound hready.sound)
    · rw [run, hturn] at hreceived ⊢
      obtain rfl := List.self_eq_append_right.mp hreceived
      exact .cut

/-! ### Whole runs -/

/-- The call goes on. -/
def Turned.Open : Turned ε → Prop
  | again => True
  | waiting => True
  | _ => False

/-- The turn ended the exchange with an error. -/
def Turned.Failed : Turned ε → Prop
  | failed _ => True
  | _ => False

/-- `P` of the frames that each batch completes. -/
def EachBatch (P : List RawFrame → Prop) (frames : List RawFrame) : ℕ → List (List UInt8) → Prop
  | _, [] => True
  | n, batch :: batches =>
      P (fresh frames n batch.length) ∧ EachBatch P frames (n + batch.length) batches

theorem EachBatch.imp {P Q : List RawFrame → Prop} (hPQ : ∀ fs, P fs → Q fs) {n : ℕ}
    {batches : List (List UInt8)} (h : EachBatch P frames n batches) :
    EachBatch Q frames n batches := by
  induction batches generalizing n with
  | nil => trivial
  | cons batch batches ih => exact ⟨hPQ _ h.1, ih h.2⟩

theorem EachBatch.and {P Q : List RawFrame → Prop} {n : ℕ} {batches : List (List UInt8)}
    (hP : EachBatch P frames n batches) (hQ : EachBatch Q frames n batches) :
    EachBatch (fun fs => P fs ∧ Q fs) frames n batches := by
  induction batches generalizing n with
  | nil => trivial
  | cons batch batches ih => exact ⟨⟨hP.1, hQ.1⟩, ih hP.2 hQ.2⟩

theorem EachBatch.snoc {P : List RawFrame → Prop} {n : ℕ} {batches : List (List UInt8)}
    {batch : List UInt8} (h : EachBatch P frames n (batches ++ [batch])) :
    EachBatch P frames n batches ∧
      P (fresh frames (n + batches.flatten.length) batch.length) := by
  induction batches generalizing n with
  | nil => exact ⟨trivial, h.1⟩
  | cons b batches ih =>
    obtain ⟨hinit, hlast⟩ := ih h.2
    refine ⟨⟨h.1, hinit⟩, ?_⟩
    rwa [List.flatten_cons, List.length_append, ← Nat.add_assoc]

/-- What holds of the frames of each batch holds of all. -/
theorem EachBatch.forall {P : RawFrame → Prop} {n : ℕ} {batches : List (List UInt8)}
    (h : EachBatch (fun fs => ∀ f ∈ fs, P f) frames n batches) :
    ∀ f ∈ fresh frames n batches.flatten.length, P f := by
  induction batches generalizing n with
  | nil =>
    intro f hf
    rw [List.flatten_nil, List.length_nil, fresh_zero] at hf
    cases hf
  | cons batch batches ih =>
    intro f hf
    rw [List.flatten_cons, List.length_append, fresh_add, List.mem_append] at hf
    rcases hf with hf | hf
    · exact h.1 f hf
    · exact ih h.2 f hf

namespace Ran

variable {n : ℕ} {x y : Exchange σ} {batches : List (List UInt8)} {out : Turned ε}

theorem ready (h : Ran T streamId heed frames n x batches y out) (hx : Ready T frames n x)
    (hout : ¬ out.Failed) : Ready T frames (n + batches.flatten.length) y := by
  induction h with
  | stop => exact hx
  | paused sound => exact ⟨hx.placed, hx.paid, sound⟩
  | cut => exact absurd trivial hout
  | more took rest ih =>
    have h := ih took.ready hout
    rwa [List.flatten_cons, List.length_append, ← Nat.add_assoc]
  | last took =>
    rw [List.flatten_singleton]
    exact took.ready
  | broken => exact absurd trivial hout

/-- **The consumer gets the DATA payload of the stream**, as far as it was
taken up. -/
theorem handed (h : Ran T streamId heed frames n x batches y out) (hout : ¬ out.Failed) :
    ∃ chunks, y.handed = x.handed ++ chunks ∧
      dataIn (onStream streamId) frames n ++ chunks.flatten =
        dataIn (onStream streamId) frames (n + batches.flatten.length) := by
  induction h with
  | stop => exact ⟨[], (List.append_nil _).symm, List.append_nil _⟩
  | paused => exact ⟨[], (List.append_nil _).symm, List.append_nil _⟩
  | cut => exact absurd trivial hout
  | more took rest ih =>
    obtain ⟨chunks, hchunks, hdata⟩ := took.handed
    obtain ⟨chunks', hchunks', hdata'⟩ := ih hout
    refine ⟨chunks ++ chunks', ?_, ?_⟩
    · rw [hchunks', hchunks, List.append_assoc]
    · rw [List.flatten_append, ← List.append_assoc, hdata, hdata', List.flatten_cons,
        List.length_append, Nat.add_assoc]
  | last took =>
    rw [List.flatten_singleton]
    exact took.handed
  | broken => exact absurd trivial hout

/-- No frame that a client heeds ended a call that did not fail. -/
theorem spared (h : Ran T streamId heed frames n x batches y out) (hout : ¬ out.Failed) :
    EachBatch (fun fs => (heed (controlsOf fs)).find? closes = none) frames n batches := by
  induction h with
  | stop => trivial
  | paused => trivial
  | cut => trivial
  | more took rest ih => exact ⟨took.spared, ih hout⟩
  | last took => exact ⟨took.spared, trivial⟩
  | broken => exact absurd trivial hout

/-- While a call goes on, its response has not ended. -/
theorem not_ended (h : Ran T streamId heed frames n x batches y out) (hout : out.Open) :
    EachBatch (fun fs => fs.any (ending streamId) = false) frames n batches := by
  induction h with
  | stop => trivial
  | paused => trivial
  | cut => trivial
  | more took rest ih => exact ⟨took.ended.symm, ih hout⟩
  | last took => exact hout.elim
  | broken => exact hout.elim

/-- The last batch ended the response. -/
theorem ended (h : Ran T streamId heed frames n x batches y out) (hout : out = .done) :
    ∃ init batch, batches = init ++ [batch] ∧
      EachBatch (fun fs => fs.any (ending streamId) = false) frames n init ∧
      (fresh frames (n + init.flatten.length) batch.length).any (ending streamId) = true := by
  induction h with
  | stop => cases hout
  | paused => cases hout
  | cut => cases hout
  | more took rest ih =>
    obtain ⟨init, batch, rfl, hinit, hbatch⟩ := ih hout
    refine ⟨_ :: init, batch, rfl, ⟨took.ended.symm, hinit⟩, ?_⟩
    rwa [List.flatten_cons, List.length_append, ← Nat.add_assoc]
  | last took => exact ⟨[], _, rfl, trivial, took.ended.symm⟩
  | broken => cases hout

/-- A frame in the last batch closed the call. -/
theorem closed {e : Failure ε} (h : Ran T streamId heed frames n x batches y out)
    (hout : out = .failed e) (hclosed : e.Closed) :
    ∃ init batch cf, batches = init ++ [batch] ∧
      (heed (controlsOf (fresh frames (n + init.flatten.length) batch.length))).find? closes =
        some cf := by
  induction h with
  | stop => cases hout
  | paused => cases hout
  | cut =>
    cases hout
    exact hclosed.elim
  | more took rest ih =>
    obtain ⟨init, batch, cf, rfl, hcf⟩ := ih hout
    refine ⟨_ :: init, batch, cf, rfl, ?_⟩
    rwa [List.flatten_cons, List.length_append, ← Nat.add_assoc]
  | last took => cases hout
  | broken hbroken =>
    cases hout
    obtain ⟨cf, hcf⟩ := hbroken hclosed
    exact ⟨[], _, cf, rfl, hcf⟩

/-- **The connection gets back its credit**, and no stream gets any. -/
theorem credit (h : Ran T streamId heed frames n x batches y out) (hout : ¬ out.Failed) :
    ∃ msgs, y.sent = x.sent ++ msgs ∧
      (dataIn everyStream frames n).length + H2.credit 0 msgs =
        (dataIn everyStream frames (n + batches.flatten.length)).length ∧
      ∀ id ≠ 0, H2.credit id msgs = 0 := by
  have hbatch : ∀ {n batch x y done}, Took T streamId heed frames n batch x y done →
      ∃ msgs, y.sent = x.sent ++ msgs ∧
        (dataIn everyStream frames n).length + H2.credit 0 msgs =
          (dataIn everyStream frames (n + batch.length)).length ∧
        ∀ id ≠ 0, H2.credit id msgs = 0 := by
    intro n batch x y done took
    refine ⟨_, took.sent, ?_, ?_⟩
    · rw [credit_append, credit_answers, Nat.zero_add,
        credit_update (Nat.lt_of_le_of_lt (owed_le _ _ _) took.length_lt), dataIn_add_owed]
    · intro id hid
      rw [credit_append, credit_answers, Nat.zero_add, credit_update_ne hid]
  induction h with
  | stop => exact ⟨[], (List.append_nil _).symm, rfl, fun _ _ => rfl⟩
  | paused => exact ⟨[], (List.append_nil _).symm, rfl, fun _ _ => rfl⟩
  | cut => exact absurd trivial hout
  | more took rest ih =>
    obtain ⟨msgs, hsent, hcredit, hnone⟩ := hbatch took
    obtain ⟨msgs', hsent', hcredit', hnone'⟩ := ih hout
    refine ⟨msgs ++ msgs', ?_, ?_, ?_⟩
    · rw [hsent', hsent, List.append_assoc]
    · rw [credit_append, ← Nat.add_assoc, hcredit, hcredit', List.flatten_cons,
        List.length_append, Nat.add_assoc]
    · intro id hid
      rw [credit_append, hnone id hid, hnone' id hid]
  | last took =>
    obtain ⟨msgs, hmsgs⟩ := hbatch took
    rw [List.flatten_singleton]
    exact ⟨msgs, hmsgs⟩
  | broken => exact absurd trivial hout

/-- **Control frames are answered in order**, where all that ask for an
answer are heeded. -/
theorem replied (h : Ran T streamId heed frames n x batches y out) (hout : ¬ out.Failed)
    (hheed : EachBatch (fun fs => answers (heed (controlsOf fs)) = answers (controlsOf fs)) frames n
      batches) :
    ∃ msgs, y.sent = x.sent ++ msgs ∧
      msgs.filter isReply = answers (controlsOf (fresh frames n batches.flatten.length)) := by
  induction h with
  | stop =>
    refine ⟨[], (List.append_nil _).symm, ?_⟩
    rw [List.flatten_nil, List.length_nil, fresh_zero]
    rfl
  | paused =>
    refine ⟨[], (List.append_nil _).symm, ?_⟩
    rw [List.flatten_nil, List.length_nil, fresh_zero]
    rfl
  | cut => exact absurd trivial hout
  | more took rest ih =>
    obtain ⟨msgs, hsent, hmsgs⟩ := ih hout hheed.2
    refine ⟨_, by rw [hsent, took.sent, List.append_assoc], ?_⟩
    rw [List.filter_append, List.filter_append, isReply_answers, isReply_update, List.append_nil,
      hheed.1, hmsgs, List.flatten_cons, List.length_append, fresh_add, controlsOf, controlsOf,
      controlsOf, List.flatMap_append, answers_append]
  | last took =>
    refine ⟨_, took.sent, ?_⟩
    rw [List.filter_append, isReply_answers, isReply_update, List.append_nil, hheed.1,
      List.flatten_singleton]
  | broken => exact absurd trivial hout

end Ran

/-! ### Requests -/

theorem kindOf_frame (length : ℕ) (kind flags : UInt8) (id : ℕ) (payload : List UInt8) :
    kindOf (Bytes.toBE 3 length ++ [kind, flags] ++ Bytes.toBE 4 id ++ payload) = kind := by
  have hlen : (Bytes.toBE 3 length ++ [kind, flags] ++ Bytes.toBE 4 id).length = frameHeaderLen := by
    rw [List.length_append, List.length_append, Bytes.length_toBE, Bytes.length_toBE]
    rfl
  rw [kindOf, ← hlen, List.take_left,
    parseHeader_parts (Bytes.length_toBE _ _) (Bytes.length_toBE _ _)]

theorem encode_ok {n : ℕ} {m : WriterM Unit} {bytes msg : List UInt8} (h : Writes m bytes)
    (he : encode (ε := ε) n m = .ok msg) : msg = bytes := by
  rcases Nat.lt_or_ge n bytes.length with hlt | hge
  · obtain ⟨w, hw⟩ := h.short (.new (List.replicate n 0)) (by
      rw [Writer.new, Nat.zero_add, List.length_replicate]
      exact hlt)
    rw [encode, hw] at he
    cases he
  · rw [encode_writes h hge] at he
    exact (Except.ok.inj he).symm

theorem encode_error {n : ℕ} {m : WriterM Unit} {e : Failure ε} (he : encode n m = .error e) :
    e = .frame := by
  unfold encode at he
  rcases hw : Writer.exec m (.new (List.replicate n 0)) with ⟨e' | u, w⟩
  · rw [hw] at he
    exact (Except.error.inj he).symm
  · rw [hw] at he
    cases he

/-- A message of a request. -/
def Asks (msg : List UInt8) : Prop := kindOf msg = frameType.headers ∨ kindOf msg = frameType.data

theorem asks_data {n : ℕ} {streamId : UInt32} {chunk msg : List UInt8} {last : Bool}
    (h : encode (ε := ε) n (Writer.data streamId chunk last) = .ok msg) : Asks msg := by
  rw [encode_ok ((writes_frameHeader _ _ _ _).seq (.put chunk)) h]
  exact .inr (kindOf_frame _ _ _ _ _)

theorem asks_postHeaders {n : ℕ} {streamId : UInt32} {authority path : String} {len : UInt64}
    {msg : List UInt8}
    (h : encode (ε := ε) n (Writer.postHeaders streamId authority path len) = .ok msg) :
    Asks msg := by
  by_cases hfits : (Cmd.postHeaders streamId authority path len).Fits
  · rw [postHeaders_eq streamId authority path len hfits] at h
    rw [encode_ok ((writes_frameHeader _ _ _ _).seq (.put _)) h]
    exact .inl (kindOf_frame _ _ _ _ _)
  · rw [postHeaders_short streamId authority path len hfits, encode] at h
    cases h

/-- Between `x` and `y`, messages of a request were sent. -/
structure Requested (T : Transport σ ε) (x y : Exchange σ) (out : Option (Failure ε)) : Prop where
  changed : ∃ link msgs, y = { x with link := link, sent := x.sent ++ msgs } ∧
    ∀ msg ∈ msgs, Asks msg
  sound : T.Sound x.link → T.Sound y.link
  failed : ∀ e, out = some e → ¬ e.Closed

namespace Requested

theorem nil (T : Transport σ ε) (x : Exchange σ) : Requested T x x none :=
  ⟨⟨x.link, [], by rw [List.append_nil], nofun⟩, id, nofun⟩

theorem trans {x y z : Exchange σ} {out : Option (Failure ε)} (h : Requested T x y none)
    (h' : Requested T y z out) : Requested T x z out := by
  obtain ⟨link, msgs, rfl, hmsgs⟩ := h.changed
  obtain ⟨link', msgs', rfl, hmsgs'⟩ := h'.changed
  refine ⟨⟨link', msgs ++ msgs', by rw [← List.append_assoc], ?_⟩,
    fun hs => h'.sound (h.sound hs), h'.failed⟩
  intro msg hmsg
  rcases List.mem_append.mp hmsg with hmsg | hmsg
  · exact hmsgs msg hmsg
  · exact hmsgs' msg hmsg

theorem write (x : Exchange σ) {n : ℕ} {m : WriterM Unit}
    (hm : ∀ msg, encode (ε := ε) n m = .ok msg → Asks msg) :
    Requested T x (x.write T n m).1 (x.write T n m).2 := by
  unfold Exchange.write
  rcases hmsg : encode (ε := ε) n m with e | msg
  · refine ⟨(nil T x).changed, id, ?_⟩
    intro e' he
    rw [← Option.some.inj he, encode_error hmsg]
    exact id
  · simp only [x.send_eq]
    rcases hsend : T.send x.link msg with e | link
    · exact ⟨(nil T x).changed, id, fun e' he => (Option.some.inj he) ▸ id⟩
    · refine ⟨⟨link, [msg], rfl, ?_⟩, fun hs => T.sound_send hs hsend, nofun⟩
      intro msg' hmsg'
      rw [List.mem_singleton.mp hmsg']
      exact hm msg hmsg

end Requested

end Lando.H2
