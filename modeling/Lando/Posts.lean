/-
Lando/Posts.lean

POST calls of the two clients over any transport.

A call sends its request and then takes up batches of the server's frames, so
it is a run (`Ran`) behind some messages of a request (`Called`).  Both
clients are covered at once; they differ in the control frames they heed.

The server's flow-control windows follow from what was sent.  The clients
return credit for the connection, all of it and in every turn.  They never
return credit for a stream, so the window of the stream only shrinks: it is
whole exactly as long as no DATA arrived on it.
-/
import Lando.FwPost
import Lando.HostPost

namespace Lando.H2

open Framing

variable {σ ε : Type}

/-! ### Calls -/

/-- A connection between two calls. -/
def Exchange.idle (link : σ) (reader : FrameReader) (nextStream : UInt32) : Exchange σ :=
  ⟨link, reader, nextStream, [], [], []⟩

/-- What a connection keeps between calls: it stands behind `n` bytes of the
server's frames, and the next stream id is odd. -/
structure Idle (T : Transport σ ε) (frames : List RawFrame) (n : ℕ) (link : σ)
    (reader : FrameReader) (nextStream : UInt32) : Prop where
  ready : Ready T frames n (.idle link reader nextStream)
  odd : nextStream.toNat % 2 = 1

theorem Idle.ne_zero {T : Transport σ ε} {frames : List RawFrame} {n : ℕ} {link : σ}
    {reader : FrameReader} {nextStream : UInt32} (h : Idle T frames n link reader nextStream) :
    nextStream ≠ 0 := by
  rintro rfl
  exact absurd h.odd (by decide)

/-- A call for the stream `nextStream`: the request failed, or the batches of
the response followed it. -/
def Called (T : Transport σ ε) (heed : List (FrameHeader × List UInt8) → List (FrameHeader × List UInt8))
    (frames : List RawFrame) (n : ℕ) (x : Exchange σ) (r : Exchange σ × Turned ε) : Prop :=
  (∃ e, r.2 = .failed e ∧ ¬ e.Closed) ∨
    ∃ y, Requested T { x with nextStream := x.nextStream + 2 } y none ∧
      Ran T x.nextStream heed frames n y r.1.received r.1 r.2

/-- A request, and a client that responds. -/
theorem Called.intro {T : Transport σ ε}
    {heed : List (FrameHeader × List UInt8) → List (FrameHeader × List UInt8)}
    {frames : List RawFrame} {n k : ℕ} {x : Exchange σ}
    {respond : Exchange σ → Exchange σ × Turned ε} {sent : Exchange σ × Option (Failure ε)}
    {rest : List UInt8} (h : Responds T x.nextStream heed respond) (hready : Ready T frames n x)
    (hreceived : x.received = []) :
    let r : Exchange σ × Turned ε :=
      match sent with
      | (y, some e) => (y, .failed e)
      | (y, none) => run (turn T respond) k y
    Requested T { x with nextStream := x.nextStream + 2 } sent.1 sent.2 →
      (wires frames).drop n = r.1.received.flatten ++ rest → Called T heed frames n x r := by
  obtain ⟨y, - | e⟩ := sent
  · intro r hsent hbytes
    obtain ⟨link, msgs, rfl, -⟩ := hsent.changed
    refine .inr ⟨_, hsent, h.ran ⟨hready.placed, hready.paid, hsent.sound hready.sound⟩ hbytes ?_⟩
    exact (congrArg (· ++ r.1.received) hreceived).symm
  · intro r hsent _
    exact .inl ⟨e, rfl, hsent.failed e rfl⟩

section Calls

variable {T : Transport σ ε} {frames : List RawFrame} {n : ℕ} {link : σ} {reader : FrameReader}
  {nextStream : UInt32} (authority path : String) (body : List UInt8) (k : ℕ)

theorem called_postStream {rest : List UInt8}
    (hready : Ready T frames n (.idle link reader nextStream))
    (hbytes : (wires frames).drop n =
      (Fw.Post.postStream T authority path body k (.idle link reader nextStream)).1.received.flatten ++
        rest) :
    Called T (List.take Fw.Post.maxAcks) frames n (.idle link reader nextStream)
      (Fw.Post.postStream T authority path body k (.idle link reader nextStream)) :=
  Called.intro (Fw.Post.responds T nextStream) hready rfl
    (Fw.Post.requested_sendRequest T _ nextStream authority path body) hbytes

theorem called_post {rest : List UInt8} (onData : List (List UInt8) → Bool)
    (hready : Ready T frames n (.idle link reader nextStream))
    (hbytes : (wires frames).drop n =
      (Host.Post.post T authority path body onData k
        (.idle link reader nextStream)).1.received.flatten ++ rest) :
    Called T id frames n (.idle link reader nextStream)
      (Host.Post.post T authority path body onData k (.idle link reader nextStream)) :=
  Called.intro (Host.Post.responds T nextStream onData) hready rfl
    (Host.Post.requested_sendRequest T _ nextStream authority path body) hbytes

end Calls

/-! ### Credit -/

/-- The DATA bytes that `x` took up, behind position `n`, are returned as
credit for the stream `id`. -/
def Restored (frames : List RawFrame) (n : ℕ) (on : FrameHeader → Bool) (id : UInt32)
    (x : Exchange σ) : Prop :=
  (dataIn on frames n).length + credit id x.sent =
    (dataIn on frames (n + x.received.flatten.length)).length

instance (frames : List RawFrame) (n : ℕ) (on : FrameHeader → Bool) (id : UInt32)
    (x : Exchange σ) : Decidable (Restored frames n on id x) :=
  inferInstanceAs (Decidable (_ = _))

/-- A call that has not failed has returned the credit of the connection.
That of its stream it has returned if there was nothing to return. -/
def ReturnsCredit (frames : List RawFrame) (n : ℕ) (streamId : UInt32)
    (r : Exchange σ × Turned ε) : Prop :=
  ¬ r.2.Failed → ∀ rest, (wires frames).drop n = r.1.received.flatten ++ rest →
    Restored frames n everyStream 0 r.1 ∧ credit streamId r.1.sent = 0 ∧
      (Restored frames n (onStream streamId) streamId r.1 ↔
        (dataIn (onStream streamId) frames (n + r.1.received.flatten.length)).length =
          (dataIn (onStream streamId) frames n).length)

theorem Called.returnsCredit {T : Transport σ ε}
    {heed : List (FrameHeader × List UInt8) → List (FrameHeader × List UInt8)}
    {frames : List RawFrame} {n : ℕ} {x : Exchange σ} {r : Exchange σ × Turned ε}
    (hid : x.nextStream ≠ 0) (hsent : x.sent = []) (hout : ¬ r.2.Failed)
    (h : Called T heed frames n x r) :
    Restored frames n everyStream 0 r.1 ∧ credit x.nextStream r.1.sent = 0 := by
  rcases h with ⟨e, he, -⟩ | ⟨y, hrequested, hran⟩
  · rw [he] at hout
    exact absurd trivial hout
  · obtain ⟨link, asked, rfl, hasked⟩ := hrequested.changed
    obtain ⟨msgs, hmsgs, hcredit, hnone⟩ := hran.credit hout
    have hquiet : ∀ id, credit id asked = 0 := by
      intro id
      apply credit_of_kind
      intro msg hmsg
      rcases hasked msg hmsg with hkind | hkind
      · rw [hkind]
        decide
      · rw [hkind]
        decide
    simp only [hsent, List.nil_append] at hmsgs
    rw [Restored, hmsgs, credit_append, credit_append, hquiet, hquiet, Nat.zero_add, Nat.zero_add]
    exact ⟨hcredit, hnone _ hid⟩

/-- **Credit.**  In every call of either client, and after every turn of it,
the server has got back the connection's credit for every DATA byte that was
taken up.  For the stream it gets none, so the stream's credit is whole
exactly as long as no DATA byte arrived on it. -/
theorem stream_credit_restored_iff {T : Transport σ ε} {frames : List RawFrame} {n : ℕ} {link : σ}
    {reader : FrameReader} {nextStream : UInt32} (h : Idle T frames n link reader nextStream)
    (authority path : String) (body : List UInt8) (onData : List (List UInt8) → Bool) (k : ℕ) :
    ReturnsCredit frames n nextStream
        (Fw.Post.postStream T authority path body k (.idle link reader nextStream)) ∧
      ReturnsCredit frames n nextStream
        (Host.Post.post T authority path body onData k (.idle link reader nextStream)) := by
  have hcall : ∀ heed (r : Exchange σ × Turned ε),
      (∀ rest, (wires frames).drop n = r.1.received.flatten ++ rest →
        Called T heed frames n (.idle link reader nextStream) r) →
          ReturnsCredit frames n nextStream r := by
    intro heed r hcalled hout rest hbytes
    obtain ⟨hconn, hstream⟩ := (hcalled rest hbytes).returnsCredit h.ne_zero rfl hout
    refine ⟨hconn, hstream, ?_⟩
    rw [Restored, show credit nextStream r.1.sent = 0 from hstream, Nat.add_zero]
    exact eq_comm
  exact ⟨hcall _ _ fun rest => called_postStream authority path body k h.ready,
    hcall _ _ fun rest => called_post authority path body k onData h.ready⟩

/-- A transport that plays back batches, and sends without failure. -/
def playback : Transport (List UInt8 × List (List UInt8)) Empty where
  buffered := Prod.fst
  pump
    | (now, []) => ((now, []), .waiting)
    | (_, batch :: later) => ((batch, later), .ready)
  consume t n := (t.1.drop n, t.2)
  send t _ := .ok t
  Sound t := t.1.length < 2 ^ 31 ∧ ∀ batch ∈ t.2, batch.length < 2 ^ 31
  buffered_lt h := h.1
  sound_pump := by
    rintro ⟨now, - | ⟨batch, later⟩⟩ h -
    · exact h
    · exact ⟨h.2 batch List.mem_cons_self, fun b hb => h.2 b (List.mem_cons_of_mem _ hb)⟩
  sound_consume := by
    intro t h
    refine ⟨?_, h.2⟩
    rw [List.length_drop]
    exact Nat.lt_of_le_of_lt (Nat.sub_le _ _) h.1
  sound_send := by
    intro t t' m h he
    rwa [← Except.ok.inj he]
  buffered_send := by
    intro t t' m he
    rw [← Except.ok.inj he]
  send_consume _ _ _ := rfl

/-- A new connection to a server that sends one batch. -/
theorem idle_playback (frames : List RawFrame) (batch : List UInt8) (h : batch.length < 2 ^ 31) :
    Idle playback frames 0 ([], [batch]) .new 1 := by
  refine ⟨⟨Placed.new frames, rfl, by show 0 < 2 ^ 31; decide, ?_⟩, rfl⟩
  intro b hb
  rwa [List.mem_singleton.mp hb]

/-- A DATA frame of one byte. -/
def dataByte (streamId : UInt32) (h : streamId.toNat < 2 ^ 31) : RawFrame :=
  ⟨frameType.data, 0, streamId, [7], h, by decide⟩

/-- DATA of another stream does not touch the windows. -/
theorem stream_credit_restored_iff_other_stream :
    let frames := [dataByte 3 (by decide)]
    let r := Fw.Post.postStream playback "a" "/" [1] 1 (.idle ([], [wires frames]) .new 1)
    Restored frames 0 everyStream 0 r.1 ∧ Restored frames 0 (onStream 1) 1 r.1 := by
  intro frames r
  have h := (stream_credit_restored_iff (idle_playback frames (wires frames) (by decide)) "a" "/" [1]
    (fun _ => true) 1).1
  have hout : ¬ r.2.Failed := by
    rw [show r.2 = .again by decide +kernel]
    exact id
  obtain ⟨hconn, -, hstream⟩ := h hout [] (by decide +kernel)
  exact ⟨hconn, hstream.mpr (by decide +kernel)⟩

/-- **One byte of DATA is enough**: after the turn that took it up, the window
of the stream is a byte smaller for good. -/
theorem stream_credit_withheld :
    let frames := [dataByte 1 (by decide)]
    let fw := Fw.Post.postStream playback "a" "/" [1] 1 (.idle ([], [wires frames]) .new 1)
    let host := Host.Post.post playback "a" "/" [1] (fun _ => true) 1
      (.idle ([], [wires frames]) .new 1)
    Idle playback frames 0 ([], [wires frames]) .new 1 ∧
      fw.2 = .again ∧ fw.1.received.flatten = wires frames ∧
      ¬ Restored frames 0 (onStream 1) 1 fw.1 ∧
      host.2 = .again ∧ host.1.received.flatten = wires frames ∧
      ¬ Restored frames 0 (onStream 1) 1 host.1 := by
  refine ⟨idle_playback _ _ (by decide), ?_⟩
  decide +kernel

/-! ### Responses -/

/-- A frame that ends the response: DATA or HEADERS with END_STREAM. -/
def endsResponse (streamId : UInt32) (f : RawFrame) : Bool :=
  (f.kind == frameType.data || f.kind == frameType.headers) && ends streamId f.header

theorem ending_of_endsResponse {streamId : UInt32} {f : RawFrame}
    (h : endsResponse streamId f = true) : ending streamId f = true := by
  rw [endsResponse, Bool.and_eq_true, Bool.or_eq_true, beq_iff_eq, beq_iff_eq] at h
  rw [ending, Bool.and_eq_true]
  refine ⟨?_, h.2⟩
  rcases h.1 with hkind | hkind
  · rw [hkind]
    decide
  · rw [hkind]
    decide

/-- The frames that a batch completes: no RST_STREAM of another stream closes
the call, and where something looks like the end of the response, it is
there. -/
structure Plain (streamId : UInt32)
    (heed : List (FrameHeader × List UInt8) → List (FrameHeader × List UInt8))
    (frames : List RawFrame) : Prop where
  closing : ∀ cf, (heed (controlsOf frames)).find? closes = some cf →
    cf.1.kind = frameType.goaway ∨ cf.1.streamId = streamId
  ending : frames.any (ending streamId) = true → frames.any (endsResponse streamId) = true

/-- What a call makes of the server's frames. -/
structure Served (frames : List RawFrame) (n : ℕ) (streamId : UInt32)
    (r : Exchange σ × Turned ε) : Prop where
  /-- The consumer gets the DATA payload of the stream that was taken up. -/
  handed : ¬ r.2.Failed → dataIn (onStream streamId) frames n ++ r.1.handed.flatten =
    dataIn (onStream streamId) frames (n + r.1.received.flatten.length)
  /-- When nothing more comes on the stream, that is the whole response. -/
  whole : ¬ r.2.Failed →
    (∀ f ∈ frames.drop (complete frames (n + r.1.received.flatten.length)).length,
      f.asData (onStream streamId) = []) →
    dataIn (onStream streamId) frames n ++ r.1.handed.flatten =
      frames.flatMap (RawFrame.asData (onStream streamId))
  /-- No frame that ends the response was taken up. -/
  running : r.2.Open →
    ∀ f ∈ fresh frames n r.1.received.flatten.length, endsResponse streamId f = false
  /-- The first frame that ends the response was in the last batch. -/
  done : r.2 = .done → ∃ init batch, r.1.received = init ++ [batch] ∧
    (∀ f ∈ fresh frames n init.flatten.length, endsResponse streamId f = false) ∧
    ∃ f ∈ fresh frames (n + init.flatten.length) batch.length, endsResponse streamId f = true
  /-- A server frame that failed the call. -/
  failed : ∀ e, r.2 = .failed e → e.Closed →
    ∃ f ∈ fresh frames n r.1.received.flatten.length,
      f.kind = frameType.goaway ∨ f.kind = frameType.rstStream ∧ f.streamId = streamId

/-- Batches whose frames are plain. -/
theorem Called.served {T : Transport σ ε}
    {heed : List (FrameHeader × List UInt8) → List (FrameHeader × List UInt8)}
    {frames : List RawFrame} {n : ℕ} {x : Exchange σ} {r : Exchange σ × Turned ε}
    (hheed : ∀ cs, heed cs ⊆ cs) (hhanded : x.handed = []) (h : Called T heed frames n x r)
    (hplain : EachBatch (Plain x.nextStream heed) frames n r.1.received) :
    Served frames n x.nextStream r := by
  -- the call failed before the response, with no frame of the server to blame
  rcases h with ⟨e, he, hclosed⟩ | ⟨y, hrequested, hran⟩
  · refine ⟨?_, ?_, ?_, ?_, ?_⟩
    · rw [he]
      exact fun hout => absurd trivial hout
    · rw [he]
      exact fun hout => absurd trivial hout
    · rw [he]
      exact fun hout => hout.elim
    · rw [he]
      exact nofun
    · intro e' he'
      rw [he] at he'
      cases he'
      exact fun hc => absurd hc hclosed
  · -- the call read batches, and what ends it lies in the last one
    have hnone : ∀ fs : List RawFrame, fs.any (H2.ending x.nextStream) = false →
        ∀ f ∈ fs, endsResponse x.nextStream f = false := by
      intro fs hfs f hf
      rw [List.any_eq_false] at hfs
      exact Bool.eq_false_iff.mpr fun hc => hfs f hf (ending_of_endsResponse hc)
    have hdata : ¬ r.2.Failed → dataIn (onStream x.nextStream) frames n ++ r.1.handed.flatten =
        dataIn (onStream x.nextStream) frames (n + r.1.received.flatten.length) := by
      intro hout
      obtain ⟨link, msgs, rfl, -⟩ := hrequested.changed
      obtain ⟨chunks, hchunks, hdata⟩ := hran.handed hout
      simp only [hhanded, List.nil_append] at hchunks
      rw [hchunks]
      exact hdata
    refine ⟨hdata, ?_, ?_, ?_, ?_⟩
    · intro hout hrest
      rw [hdata hout, dataIn_eq_flatMap hrest]
    · intro hout
      exact ((hran.not_ended hout).imp hnone).forall
    · intro hout
      obtain ⟨init, batch, hbatches, hinit, hbatch⟩ := hran.ended hout
      rw [hbatches] at hplain
      obtain ⟨f, hf, hends⟩ := List.any_eq_true.mp (hplain.snoc.2.ending hbatch)
      exact ⟨init, batch, hbatches, (hinit.imp hnone).forall, f, hf, hends⟩
    · intro e hout hclosed
      obtain ⟨init, batch, cf, hbatches, hcf⟩ := hran.closed hout hclosed
      rw [hbatches] at hplain ⊢
      have hkind := hplain.snoc.2.closing cf hcf
      have hcloses := List.find?_some hcf
      obtain ⟨f, hf, rfl⟩ := mem_controlsOf (hheed _ (List.mem_of_find?_eq_some hcf))
      refine ⟨f, ?_, ?_⟩
      · rw [List.flatten_append, List.length_append, fresh_add, List.mem_append,
          List.flatten_singleton]
        exact .inr hf
      · rw [closes, Bool.or_eq_true, beq_iff_eq, beq_iff_eq] at hcloses
        rcases hcloses with hgoaway | hreset
        · exact .inl hgoaway
        · rcases hkind with hgoaway | hid
          · exact .inl hgoaway
          · exact .inr ⟨hreset, hid⟩

/-- **Responses.**  In every call of either client, however the server's
frames are cut into batches, as long as the frames that the batches complete
are plain: the consumer gets the DATA payload of the stream, the call ends with
the first DATA or HEADERS frame on the stream that has END_STREAM, and a server
frame fails it only if it is a GOAWAY or a RST_STREAM of the stream. -/
theorem served_of_plain {T : Transport σ ε} {frames : List RawFrame} {n : ℕ} {link : σ}
    {reader : FrameReader} {nextStream : UInt32} (h : Idle T frames n link reader nextStream)
    (authority path : String) (body : List UInt8) (onData : List (List UInt8) → Bool) (k : ℕ)
    (rest : List UInt8) :
    (let r := Fw.Post.postStream T authority path body k (.idle link reader nextStream)
     (wires frames).drop n = r.1.received.flatten ++ rest →
      EachBatch (Plain nextStream (List.take Fw.Post.maxAcks)) frames n r.1.received →
        Served frames n nextStream r) ∧
    (let r := Host.Post.post T authority path body onData k (.idle link reader nextStream)
     (wires frames).drop n = r.1.received.flatten ++ rest →
      EachBatch (Plain nextStream id) frames n r.1.received → Served frames n nextStream r) := by
  refine ⟨fun hbytes hplain => ?_, fun hbytes hplain => ?_⟩
  · exact (called_postStream authority path body k h.ready hbytes).served
      (fun cs => List.take_subset _ cs) rfl hplain
  · exact (called_post authority path body k onData h.ready hbytes).served
      (fun cs => List.Subset.refl cs) rfl hplain

/-- HEADERS, and DATA that ends the response. -/
def shortResponse : List RawFrame :=
  [⟨frameType.headers, flag.endHeaders, 1, [0x88], by decide, by decide⟩,
   ⟨frameType.data, flag.endStream, 1, [7], by decide, by decide⟩]

theorem served_of_plain_short :
    let r := Fw.Post.postStream playback "a" "/" [1] 1 (.idle ([], [wires shortResponse]) .new 1)
    r.2 = .done ∧ r.1.handed.flatten = [7] ∧ Served shortResponse 0 1 r := by
  intro r
  have hserved := (served_of_plain (idle_playback shortResponse (wires shortResponse) (by decide))
    "a" "/" [1] (fun _ => true) 1 []).1 (by decide +kernel)
  refine ⟨by decide +kernel, by decide +kernel, hserved ?_⟩
  have hreceived : (Fw.Post.postStream playback "a" "/" [1] 1
    (.idle ([], [wires shortResponse]) .new 1)).1.received = [wires shortResponse] := by
    decide +kernel
  have hcontrols : controlsOf (fresh shortResponse 0 (wires shortResponse).length) = [] := by
    decide +kernel
  rw [hreceived]
  refine ⟨⟨?_, fun _ => by decide +kernel⟩, trivial⟩
  rw [hcontrols]
  exact nofun

/-- RST_STREAM. -/
def reset (streamId : UInt32) (h : streamId.toNat < 2 ^ 31) : RawFrame :=
  ⟨frameType.rstStream, 0, streamId, [0, 0, 0, 8], h, by decide⟩

/-- RST_STREAM of a stream that was never asked about. -/
def foreignReset : RawFrame := reset 3 (by decide)

/-- A frame of an unknown type, with the bit of END_STREAM. -/
def extension : RawFrame := ⟨0xfa, 0x1, 1, [], by decide, by decide⟩

/-- **Frames that are not about the response can end the call.**  RST_STREAM
of another stream fails it, and a frame of an unknown type ends it. -/
theorem unrelated_frames_end_call :
    let reset := Exchange.idle ([], [foreignReset.wire]) FrameReader.new 1
    let ext := Exchange.idle ([], [extension.wire]) FrameReader.new 1
    Idle playback [foreignReset] 0 ([], [foreignReset.wire]) .new 1 ∧
      ¬ Served [foreignReset] 0 1 (Fw.Post.postStream playback "a" "/" [1] 1 reset) ∧
      ¬ Served [foreignReset] 0 1 (Host.Post.post playback "a" "/" [1] (fun _ => true) 1 reset) ∧
      Idle playback [extension] 0 ([], [extension.wire]) .new 1 ∧
      ¬ Served [extension] 0 1 (Fw.Post.postStream playback "a" "/" [1] 1 ext) ∧
      ¬ Served [extension] 0 1 (Host.Post.post playback "a" "/" [1] (fun _ => true) 1 ext) := by
  intro reset ext
  have hext : ∀ r : Exchange (List UInt8 × List (List UInt8)) × Turned Empty, r.2 = .done →
      ¬ Served [extension] 0 1 r := by
    intro r hdone h
    obtain ⟨init, batch, -, -, f, hf, hends⟩ := h.done hdone
    rw [List.mem_singleton.mp (mem_of_mem_fresh hf)] at hends
    exact absurd hends (by decide)
  refine ⟨idle_playback _ _ (by decide), ?_, ?_, idle_playback _ _ (by decide), ?_, ?_⟩
  · intro h
    exact absurd (h.failed .server (by decide +kernel) trivial) (by decide +kernel)
  · intro h
    exact absurd (h.failed (.reset 8) (by decide +kernel) trivial) (by decide +kernel)
  · exact hext _ (by decide +kernel)
  · exact hext _ (by decide +kernel)

end Lando.H2
