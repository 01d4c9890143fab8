/-
Lando/Requests.lean

The requests of the two clients.

The firmware computes from the index of a chunk whether it is the last one;
the host looks ahead.  For every body that is not empty the two agree
(`sendRequest_eq`, over any transport, failures included).  An empty body has
no chunks: the host then sends an empty DATA frame with END_STREAM, and the
firmware sends nothing behind the HEADERS, which leave the request open.

`IsRequest` says what a request should look like on the wire.  The link has to
take its messages (`Transport.Takes`), as both clients' links do while their
sessions have nonces left (`takes_firmware`, `takes_host`).
-/
import Lando.Decimal
import Lando.Posts

namespace Lando.H2

open Framing

variable {σ ε : Type}

/-! ### Bodies -/

/-- The two ways to find the last chunk. -/
theorem last_chunk {n i len : ℕ} {rest : List UInt8} (hn : 0 < n)
    (h : i * n + rest.length = len) :
    decide (len ≤ (i + 1) * n) = (Bytes.chunks n (rest.drop n)).isEmpty := by
  rw [Nat.succ_mul, ← h]
  by_cases hle : rest.length ≤ n
  · rw [List.drop_eq_nil_of_le hle, Bytes.chunks_nil]
    exact decide_eq_true (by omega)
  · have hmore : rest.drop n ≠ [] := fun hnil => hle (List.drop_eq_nil_iff.mp hnil)
    rw [Bytes.chunks_cons hn hmore]
    exact decide_eq_false (by omega)

theorem chunkMax_pos : 0 < Fw.Post.chunkMax := by decide

theorem sendBody_eq (T : Transport σ ε) (streamId : UInt32) {len : ℕ} (rest : List UInt8) (i : ℕ)
    (x : Exchange σ) (h : rest ≠ [] → i * Fw.Post.chunkMax + rest.length = len) :
    Fw.Post.sendBody T streamId len i x (Bytes.chunks Fw.Post.chunkMax rest) =
      Host.Post.sendBody T streamId x (Bytes.chunks Fw.Post.chunkMax rest) := by
  induction rest using Bytes.chunks_induction chunkMax_pos generalizing i x with
  | nil =>
    rw [Bytes.chunks_nil]
    rfl
  | step rest hne ih =>
    rw [Bytes.chunks_cons chunkMax_pos hne, Fw.Post.sendBody, Host.Post.sendBody,
      last_chunk chunkMax_pos (h hne)]
    rcases x.write T Noise.maxPlaintextSize (Writer.data streamId (rest.take Fw.Post.chunkMax)
      (Bytes.chunks Fw.Post.chunkMax (rest.drop Fw.Post.chunkMax)).isEmpty) with ⟨y, - | e⟩
    · refine ih (i + 1) y ?_
      intro hmore
      have hlt : Fw.Post.chunkMax < rest.length := by
        by_contra hle
        exact hmore (List.drop_eq_nil_of_le (Nat.not_lt.mp hle))
      rw [List.length_drop, Nat.succ_mul, ← h hne]
      omega
    · rfl

/-- HEADERS fit in the smaller buffer if they fit at all. -/
theorem encode_postHeaders (streamId : UInt32) (authority path : String) (len : UInt64) :
    encode (ε := ε) 320 (Writer.postHeaders streamId authority path len) =
      encode 512 (Writer.postHeaders streamId authority path len) := by
  by_cases hfits : (Cmd.postHeaders streamId authority path len).Fits
  · have hwrites := (writes_frameHeader (.ofNat (postBlockBytes authority.toUTF8.toList
      path.toUTF8.toList len).length) frameType.headers flag.endHeaders streamId).seq
        (.put (postBlockBytes authority.toUTF8.toList path.toUTF8.toList len))
    have hblock : (postBlockBytes authority.toUTF8.toList path.toUTF8.toList len).length ≤ 256 := hfits
    have hlen : (Bytes.toBE 3 (UInt32.ofNat (postBlockBytes authority.toUTF8.toList
        path.toUTF8.toList len).length).toNat ++ [frameType.headers, flag.endHeaders] ++
        Bytes.toBE 4 streamId.toNat ++
        postBlockBytes authority.toUTF8.toList path.toUTF8.toList len).length ≤ 320 := by
      simp only [List.length_append, Bytes.length_toBE, List.length_cons, List.length_nil]
      omega
    rw [postHeaders_eq streamId authority path len hfits]
    exact (encode_writes hwrites hlen).trans
      (encode_writes hwrites (Nat.le_trans hlen (by decide))).symm
  · rw [postHeaders_short streamId authority path len hfits, encode, encode]
    rfl

/-- **The requests agree for every body that is not empty**, over any
transport. -/
theorem sendRequest_eq (T : Transport σ ε) (x : Exchange σ) (streamId : UInt32)
    (authority path : String) {body : List UInt8} (hne : body ≠ []) :
    Fw.Post.sendRequest T x streamId authority path body =
      Host.Post.sendRequest T x streamId authority path body := by
  have hwrite : x.write T 320 (Writer.postHeaders streamId authority path (.ofNat body.length)) =
      x.write T 512 (Writer.postHeaders streamId authority path (.ofNat body.length)) := by
    unfold Exchange.write
    rw [encode_postHeaders]
  unfold Fw.Post.sendRequest Host.Post.sendRequest
  rw [hwrite]
  rcases x.write T 512 (Writer.postHeaders streamId authority path (.ofNat body.length)) with
    ⟨y, - | e⟩
  · have hbody := sendBody_eq T streamId body 0 y fun _ => by rw [Nat.zero_mul, Nat.zero_add]
    have hchunks : Bytes.chunks Host.Post.chunkMax body =
        body.take Fw.Post.chunkMax :: Bytes.chunks Fw.Post.chunkMax (body.drop Fw.Post.chunkMax) :=
      Bytes.chunks_cons chunkMax_pos hne
    simp only [hbody, hchunks]
    rw [Bytes.chunks_cons chunkMax_pos hne]
  · rfl

/-! ### The length of the body -/

theorem writeDigits_eq_fill (buf : List UInt8) (i v : ℕ) :
    Writer.writeDigits buf i v = Decimal.fill buf i v := by
  induction v using Nat.strongRecOn generalizing buf i with
  | _ v ih =>
    rw [Writer.writeDigits, Decimal.fill]
    split_ifs with h
    · rfl
    · exact ih (v / 10) (by omega) _ _

/-- `content-length` is decimal. -/
theorem writeUsize_ofNat {n : ℕ} (h : n < 2 ^ 64) :
    Writer.writeUsize (.ofNat n) = Decimal.ascii n := by
  have hn : (UInt64.ofNat n).toNat = n := UInt64.toNat_ofNat_of_lt' h
  have hzero : UInt64.ofNat n = 0 ↔ n = 0 := by
    rw [← UInt64.toNat_inj, hn]
    rfl
  rw [← Decimal.render_eq (by decide : 0 < 20) (Nat.lt_trans h (by decide))]
  unfold Writer.writeUsize Decimal.render
  simp only [hzero, hn, writeDigits_eq_fill]

/-! ### Requests on the wire -/

/-- DATA frames that carry `body`, with END_STREAM on exactly the last one. -/
structure CarriesBody (streamId : UInt32) (body : List UInt8) (frames : List RawFrame) : Prop where
  data : ∀ f ∈ frames, f.kind = frameType.data ∧ f.streamId = streamId ∧
    f.wire.length ≤ Noise.maxPlaintextSize
  ending : ∃ init last, frames = init ++ [last] ∧
    (∀ f ∈ init, f.header.isEndStream = false) ∧ last.header.isEndStream = true
  payload : frames.flatMap RawFrame.payload = body

/-- A request: HEADERS that leave the stream open and give the length of the
body, and the body.  Each frame fits in one record. -/
def IsRequest (streamId : UInt32) (authority path : String) (body : List UInt8)
    (msgs : List (List UInt8)) : Prop :=
  ∃ head frames, msgs = (head :: frames).map RawFrame.wire ∧
    head.kind = frameType.headers ∧ head.streamId = streamId ∧ head.header.isEndStream = false ∧
    head.wire.length ≤ Noise.maxPlaintextSize ∧
    head.payload = 0x83 :: 0x86 :: (literalBytes 4 path.toUTF8.toList ++
      (literalBytes 1 authority.toUTF8.toList ++
        (literalNamedBytes "content-type".toUTF8.toList "application/json".toUTF8.toList ++
          literalNamedBytes "content-length".toUTF8.toList (Decimal.ascii body.length)))) ∧
    CarriesBody streamId body frames

/-- The transport takes the next `n` messages, each no longer than a record. -/
def Transport.Takes (T : Transport σ ε) : ℕ → σ → Prop
  | 0, _ => True
  | n + 1, t => ∀ m, m.length ≤ Noise.maxPlaintextSize → ∃ t', T.send t m = .ok t' ∧ T.Takes n t'

/-- A count of records that stops short of its limit. -/
theorem Transport.takes_of_room {T : Transport σ ε} (records : σ → ℕ) {limit : ℕ}
    (hsend : ∀ t m, m.length ≤ Noise.maxPlaintextSize → records t + 1 < limit →
      ∃ t', T.send t m = .ok t' ∧ records t' ≤ records t + 1)
    {n : ℕ} {t : σ} (hroom : records t + n < limit) : T.Takes n t := by
  induction n generalizing t with
  | zero => trivial
  | succ n ih =>
    intro m hm
    obtain ⟨t', ht', hcount⟩ := hsend t m hm (by omega)
    exact ⟨t', ht', ih (by omega)⟩

/-- The firmware's connection takes messages while it has nonces. -/
theorem takes_firmware {A : Aead} (hA : A.Lawful) {n : ℕ} {t : Fw.H2Conn × List (List UInt8)}
    (hroom : t.1.session.txNonce.toNat + n < 2 ^ 64) : (Fw.Post.firmware A).Takes n t := by
  refine Transport.takes_of_room (fun t => t.1.session.txNonce.toNat) ?_ hroom
  rintro ⟨conn, socket⟩ m hm hroom
  show ∃ t', (conn.send A m).map (fun r => (r.1, socket)) = .ok t' ∧ _
  rw [Fw.H2Conn.send]
  by_cases hm0 : m = []
  · rw [hm0, Bytes.chunks_nil]
    exact ⟨_, rfl, Nat.le_succ _⟩
  · obtain ⟨out, hout, hnext⟩ := Noise.Session.writeRecord_of_room hA hm hroom
    rw [Bytes.chunks_of_le hm0 hm, Fw.H2Conn.sendChunks, hout]
    exact ⟨_, rfl, Nat.le_of_eq hnext⟩

/-- So does the host's transport. -/
theorem takes_host {A : Aead} (hA : A.Lawful) {n : ℕ} {t : Host.NoiseTransport}
    (hroom : t.session.txNonce.toNat + n < 2 ^ 64) : (Host.Post.host A).Takes n t := by
  refine Transport.takes_of_room (fun t => t.session.txNonce.toNat) ?_ hroom
  intro t m hm hroom
  show ∃ t', (t.send A m).map Prod.fst = .ok t' ∧ _
  rw [Host.NoiseTransport.send]
  by_cases hm0 : m = []
  · rw [hm0, Bytes.chunks_nil]
    exact ⟨_, rfl, Nat.le_succ _⟩
  · obtain ⟨out, hout, hnext⟩ := Noise.Session.writeRecord_of_room hA hm hroom
    rw [Bytes.chunks_of_le hm0 hm, Host.NoiseTransport.sendChunks, hout]
    exact ⟨_, rfl, Nat.le_of_eq hnext⟩

theorem Transport.Takes.write {T : Transport σ ε} {k : ℕ} {x : Exchange σ}
    (h : T.Takes (k + 1) x.link) {n : ℕ} {m : WriterM Unit} {msg : List UInt8}
    (hmsg : encode (ε := ε) n m = .ok msg) (hlen : msg.length ≤ Noise.maxPlaintextSize) :
    ∃ y, x.write T n m = (y, none) ∧ y.sent = x.sent ++ [msg] ∧ T.Takes k y.link := by
  obtain ⟨link, hlink, hrest⟩ := h msg hlen
  refine ⟨{ x with link := link, sent := x.sent ++ [msg] }, ?_, rfl, hrest⟩
  rw [Exchange.write, hmsg]
  simp only [x.send_eq, hlink]

/-- The messages of a request: HEADERS, and DATA for each chunk, or for the end
of an empty body. -/
def messageCount (body : List UInt8) : ℕ := max 1 (Bytes.chunks Fw.Post.chunkMax body).length + 1

theorem messageCount_of_ne {body : List UInt8} (h : body ≠ []) :
    messageCount body = (Bytes.chunks Fw.Post.chunkMax body).length + 1 := by
  rw [messageCount, Bytes.chunks_cons chunkMax_pos h, List.length_cons, Nat.max_eq_right]
  exact Nat.succ_pos _

/-- A DATA frame of a request. -/
def dataFrame {streamId : UInt32} (hid : streamId.toNat < 2 ^ 31) (chunk : List UInt8) (last : Bool)
    (h : chunk.length < 2 ^ 24) : RawFrame :=
  Cmd.frame ⟨.data streamId chunk last, hid, h⟩

theorem length_dataFrame_le {streamId : UInt32} (hid : streamId.toNat < 2 ^ 31) {chunk : List UInt8}
    (last : Bool) (h : chunk.length < 2 ^ 24) (hle : chunk.length ≤ Fw.Post.chunkMax) :
    (dataFrame hid chunk last h).wire.length ≤ Noise.maxPlaintextSize := by
  have hmax : frameHeaderLen + Fw.Post.chunkMax = Noise.maxPlaintextSize := by decide
  rw [RawFrame.length_wire, ← hmax]
  exact Nat.add_le_add_left hle _

theorem isEndStream_dataFrame {streamId : UInt32} (hid : streamId.toNat < 2 ^ 31)
    (chunk : List UInt8) (last : Bool) (h : chunk.length < 2 ^ 24) :
    (dataFrame hid chunk last h).header.isEndStream = last := by
  cases last with
  | false =>
    show ((0 : UInt8) &&& flag.endStream != 0) = false
    decide
  | true =>
    show (flag.endStream &&& flag.endStream != 0) = true
    decide

theorem CarriesBody.single {streamId : UInt32} (hid : streamId.toNat < 2 ^ 31) {chunk : List UInt8}
    (h : chunk.length < 2 ^ 24) (hle : chunk.length ≤ Fw.Post.chunkMax) :
    CarriesBody streamId chunk [dataFrame hid chunk true h] where
  data := by
    intro f hf
    rw [List.mem_singleton.mp hf]
    exact ⟨rfl, rfl, length_dataFrame_le hid true h hle⟩
  ending := ⟨[], _, rfl, nofun, isEndStream_dataFrame hid chunk true h⟩
  payload := List.append_nil chunk

theorem CarriesBody.cons {streamId : UInt32} (hid : streamId.toNat < 2 ^ 31)
    {chunk body : List UInt8} (h : chunk.length < 2 ^ 24) (hle : chunk.length ≤ Fw.Post.chunkMax)
    {frames : List RawFrame} (hbody : CarriesBody streamId body frames) :
    CarriesBody streamId (chunk ++ body) (dataFrame hid chunk false h :: frames) where
  data := by
    intro f hf
    rcases List.mem_cons.mp hf with rfl | hf
    · exact ⟨rfl, rfl, length_dataFrame_le hid false h hle⟩
    · exact hbody.data f hf
  ending := by
    obtain ⟨init, last, rfl, hinit, hlast⟩ := hbody.ending
    refine ⟨_ :: init, last, rfl, ?_, hlast⟩
    intro f hf
    rcases List.mem_cons.mp hf with rfl | hf
    · exact isEndStream_dataFrame hid chunk false h
    · exact hinit f hf
  payload := by
    rw [List.flatMap_cons, hbody.payload]
    rfl

/-- The frames of a body that is not empty. -/
theorem carriesBody_sendBody {T : Transport σ ε} {streamId : UInt32}
    (hid : streamId.toNat < 2 ^ 31) {x : Exchange σ} {chunks : List (List UInt8)}
    (htakes : T.Takes chunks.length x.link) (hne : chunks ≠ []) (hchunks : ∀ c ∈ chunks, c.length ≤ Fw.Post.chunkMax) :
    ∃ y frames, Host.Post.sendBody T streamId x chunks = (y, none) ∧
      y.sent = x.sent ++ frames.map RawFrame.wire ∧
      CarriesBody streamId chunks.flatten frames := by
  induction chunks generalizing x with
  | nil => exact absurd rfl hne
  | cons chunk chunks ih =>
    have hle := hchunks chunk List.mem_cons_self
    have hlt : chunk.length < 2 ^ 24 := Nat.lt_of_le_of_lt hle (by decide)
    have hshort := length_dataFrame_le hid chunks.isEmpty hlt hle
    obtain ⟨y, hy, hsent, hrest⟩ := htakes.write (encode_frame (ε := ε)
      ⟨.data streamId chunk chunks.isEmpty, hid, hlt⟩ trivial hshort) hshort
    have hy' : x.write T Noise.maxPlaintextSize (Writer.data streamId chunk chunks.isEmpty) =
      (y, none) := hy
    simp only [Host.Post.sendBody, hy']
    cases chunks with
    | nil =>
      refine ⟨y, [dataFrame hid chunk true hlt], rfl, hsent, ?_⟩
      rw [List.flatten_singleton]
      exact .single hid hlt hle
    | cons c cs =>
      obtain ⟨z, frames, hz, hframes, hbody⟩ := ih hrest (List.cons_ne_nil c cs)
        fun c' hc' => hchunks c' (List.mem_cons_of_mem chunk hc')
      refine ⟨z, dataFrame hid chunk false hlt :: frames, hz, ?_, hbody.cons hid hlt hle⟩
      rw [hframes, hsent, List.append_assoc]
      rfl

/-- The HEADERS frame of a request. -/
def headersFrame {streamId : UInt32} (hid : streamId.toNat < 2 ^ 31) {authority path : String}
    {len : UInt64} (h : (Cmd.postHeaders streamId authority path len).Fits) : RawFrame :=
  Cmd.frame ⟨.postHeaders streamId authority path len, hid, Nat.lt_of_le_of_lt h (by decide)⟩

theorem length_headersFrame_le {streamId : UInt32} (hid : streamId.toNat < 2 ^ 31)
    {authority path : String} {len : UInt64}
    (h : (Cmd.postHeaders streamId authority path len).Fits) :
    (headersFrame hid h).wire.length ≤ frameHeaderLen + 256 := by
  rw [RawFrame.length_wire]
  exact Nat.add_le_add_left h _

/-- **The host sends a request**, whatever the body. -/
theorem isRequest_host {T : Transport σ ε} {x : Exchange σ} {streamId : UInt32}
    (hid : streamId.toNat < 2 ^ 31) {authority path : String} {body : List UInt8}
    (htakes : T.Takes (messageCount body) x.link) (hlen : body.length < 2 ^ 64)
    (hfits : (Cmd.postHeaders streamId authority path (.ofNat body.length)).Fits) :
    ∃ msgs, (Host.Post.sendRequest T x streamId authority path body).1.sent = x.sent ++ msgs ∧
      IsRequest streamId authority path body msgs := by
  have hhead := length_headersFrame_le hid hfits
  obtain ⟨y, hy, hsent, hrest⟩ := htakes.write (encode_frame (ε := ε)
    ⟨.postHeaders streamId authority path (.ofNat body.length), hid,
      Nat.lt_of_le_of_lt hfits (by decide)⟩ hfits (Nat.le_trans hhead (by decide : _ ≤ 512)))
    (Nat.le_trans hhead (by decide))
  have hy' : x.write T 512 (Writer.postHeaders streamId authority path (.ofNat body.length)) =
    (y, none) := hy
  -- the body follows in DATA frames
  obtain ⟨z, frames, hz, hframes, hbody⟩ : ∃ z frames,
      Host.Post.sendRequest T x streamId authority path body = (z, none) ∧
        z.sent = y.sent ++ frames.map RawFrame.wire ∧ CarriesBody streamId body frames := by
    unfold Host.Post.sendRequest
    simp only [hy']
    by_cases hne : body = []
    · subst hne
      rw [Bytes.chunks_nil] at hrest
      have hlt : ([] : List UInt8).length < 2 ^ 24 := by decide
      have hshort := length_dataFrame_le hid true hlt (Nat.zero_le _)
      obtain ⟨z, hz, hzsent, -⟩ := Transport.Takes.write (k := 0) hrest (encode_frame (ε := ε)
        ⟨.data streamId [] true, hid, by show 0 < 2 ^ 24; decide⟩ trivial hshort) hshort
      refine ⟨z, [dataFrame hid [] true (by decide)], ?_, hzsent, .single hid _ (Nat.zero_le _)⟩
      rw [Bytes.chunks_nil]
      exact hz
    · have hchunks : Bytes.chunks Host.Post.chunkMax body = body.take Host.Post.chunkMax ::
          Bytes.chunks Host.Post.chunkMax (body.drop Host.Post.chunkMax) :=
        Bytes.chunks_cons chunkMax_pos hne
      have htakes' : T.Takes (Bytes.chunks Host.Post.chunkMax body).length y.link := by
        have hcount := Nat.succ_injective (messageCount_of_ne hne)
        exact hcount ▸ hrest
      have hmany : Bytes.chunks Host.Post.chunkMax body ≠ [] := by
        rw [hchunks]
        exact List.cons_ne_nil _ _
      obtain ⟨z, frames, hz, hframes, hbody⟩ := carriesBody_sendBody hid htakes' hmany
        fun c hc => (Bytes.mem_chunks chunkMax_pos hc).2
      rw [show (Bytes.chunks Host.Post.chunkMax body).flatten = body from
        Bytes.flatten_chunks chunkMax_pos body] at hbody
      refine ⟨z, frames, ?_, hframes, hbody⟩
      rw [hchunks] at hz ⊢
      exact hz
  refine ⟨(headersFrame hid hfits :: frames).map RawFrame.wire, ?_, headersFrame hid hfits, frames,
    rfl, rfl, rfl, ?_, Nat.le_trans hhead (by decide), ?_, hbody⟩
  · rw [hz]
    show z.sent = _
    rw [hframes, hsent, List.append_assoc]
    rfl
  · show (flag.endHeaders &&& flag.endStream != 0) = false
    decide
  · rw [← writeUsize_ofNat hlen]
    rfl

/-- The firmware sends an empty body as nothing. -/
theorem sent_postStream_nil {T : Transport σ ε} {x : Exchange σ} {streamId : UInt32}
    (hid : streamId.toNat < 2 ^ 31) {authority path : String}
    (htakes : T.Takes (messageCount []) x.link)
    (hfits : (Cmd.postHeaders streamId authority path (.ofNat 0)).Fits) :
    (Fw.Post.sendRequest T x streamId authority path []).1.sent =
      x.sent ++ [(headersFrame hid hfits).wire] := by
  have hhead := length_headersFrame_le hid hfits
  obtain ⟨y, hy, hsent, -⟩ := htakes.write (encode_frame (ε := ε)
    ⟨.postHeaders streamId authority path (.ofNat 0), hid, Nat.lt_of_le_of_lt hfits (by decide)⟩
    hfits (Nat.le_trans hhead (by decide : _ ≤ 320))) (Nat.le_trans hhead (by decide))
  have hy' : x.write T 320 (Writer.postHeaders streamId authority path
    (.ofNat ([] : List UInt8).length)) = (y, none) := hy
  unfold Fw.Post.sendRequest
  simp only [hy', Bytes.chunks_nil]
  exact hsent

/-! ### Stream ids -/

/-- The stream ids of calls, one after the other. -/
def streamIds (call : String → String → List UInt8 → Exchange σ → Exchange σ × Turned ε) :
    List (String × String × List UInt8) → Exchange σ → List UInt32
  | [], _ => []
  | (authority, path, body) :: requests, x =>
      x.nextStream :: streamIds call requests (call authority path body x).1

/-- Odd, and ever larger. -/
def Ascending (ids : List UInt32) : Prop :=
  ids.Pairwise (· < ·) ∧ ∀ id ∈ ids, id.toNat % 2 = 1 ∧ id.toNat < 2 ^ 31

theorem ascending_streamIds
    {call : String → String → List UInt8 → Exchange σ → Exchange σ × Turned ε}
    (hcall : ∀ authority path body x, (call authority path body x).1.nextStream = x.nextStream + 2)
    {requests : List (String × String × List UInt8)} {x : Exchange σ}
    (hodd : x.nextStream.toNat % 2 = 1)
    (hroom : x.nextStream.toNat + 2 * requests.length ≤ 2 ^ 31 + 1) :
    Ascending (streamIds call requests x) ∧
      ∀ id ∈ streamIds call requests x, x.nextStream ≤ id := by
  induction requests generalizing x with
  | nil => exact ⟨⟨List.Pairwise.nil, nofun⟩, nofun⟩
  | cons request requests ih =>
    obtain ⟨authority, path, body⟩ := request
    rw [List.length_cons] at hroom
    have hnext : (x.nextStream + 2).toNat = x.nextStream.toNat + 2 := by
      rw [UInt32.toNat_add]
      exact Nat.mod_eq_of_lt (by show x.nextStream.toNat + 2 < 2 ^ 32; omega)
    have hid := hcall authority path body x
    obtain ⟨⟨hpairs, hids⟩, hle⟩ := ih (x := (call authority path body x).1)
      (by rw [hid, hnext]; omega) (by rw [hid, hnext]; omega)
    have hlt : ∀ id ∈ streamIds call requests (call authority path body x).1, x.nextStream < id := by
      intro id hmem
      have h := hle id hmem
      rw [hid] at h
      rw [UInt32.lt_iff_toNat_lt]
      rw [UInt32.le_iff_toNat_le, hnext] at h
      omega
    refine ⟨⟨List.pairwise_cons.mpr ⟨hlt, hpairs⟩, ?_⟩, ?_⟩
    · intro id hmem
      rcases List.mem_cons.mp hmem with rfl | hmem
      · exact ⟨hodd, by omega⟩
      · exact hids id hmem
    · intro id hmem
      rcases List.mem_cons.mp hmem with rfl | hmem
      · exact UInt32.le_refl _
      · exact UInt32.le_of_lt (hlt id hmem)

theorem nextStream_postStream (T : Transport σ ε) (authority path : String) (body : List UInt8)
    (k : ℕ) (x : Exchange σ) :
    (Fw.Post.postStream T authority path body k x).1.nextStream = x.nextStream + 2 := by
  obtain ⟨link, msgs, hkept, -⟩ := (Fw.Post.requested_sendRequest T
    { x with nextStream := x.nextStream + 2 } x.nextStream authority path body).changed
  unfold Fw.Post.postStream
  simp only
  rcases he : Fw.Post.sendRequest T { x with nextStream := x.nextStream + 2 } x.nextStream authority
    path body with ⟨y, - | e⟩
  · rw [he] at hkept
    refine (nextStream_run (fun x => ((Fw.Post.responds T _).kept x).2) k y).trans ?_
    exact congrArg Exchange.nextStream hkept
  · rw [he] at hkept
    exact congrArg Exchange.nextStream hkept

theorem nextStream_post (T : Transport σ ε) (authority path : String) (body : List UInt8)
    (onData : List (List UInt8) → Bool) (k : ℕ) (x : Exchange σ) :
    (Host.Post.post T authority path body onData k x).1.nextStream = x.nextStream + 2 := by
  obtain ⟨link, msgs, hkept, -⟩ := (Host.Post.requested_sendRequest T
    { x with nextStream := x.nextStream + 2 } x.nextStream authority path body).changed
  unfold Host.Post.post
  simp only
  rcases he : Host.Post.sendRequest T { x with nextStream := x.nextStream + 2 } x.nextStream
    authority path body with ⟨y, - | e⟩
  · rw [he] at hkept
    refine (nextStream_run (fun x => ((Host.Post.responds T _ onData).kept x).2) k y).trans ?_
    exact congrArg Exchange.nextStream hkept
  · rw [he] at hkept
    exact congrArg Exchange.nextStream hkept

/-! ### Main result -/

/-- **Requests.**  For every authority and path whose HEADERS fit, over a
transport that takes the messages, the host sends a request whatever the body
is; the firmware sends the same messages, and so a request, if and only if the
body is not empty.  Up to 2^30 calls of either client use odd stream ids, ever
larger ones, over any transport. -/
theorem requests_alike_iff (T : Transport σ ε) :
    (∀ (x : Exchange σ) (streamId : UInt32) (authority path : String) (body : List UInt8),
      streamId.toNat < 2 ^ 31 → body.length < 2 ^ 64 →
      (Cmd.postHeaders streamId authority path (.ofNat body.length)).Fits →
      T.Takes (messageCount body) x.link →
      let fw := (Fw.Post.sendRequest T x streamId authority path body).1
      let host := (Host.Post.sendRequest T x streamId authority path body).1
      (∃ msgs, host.sent = x.sent ++ msgs ∧ IsRequest streamId authority path body msgs) ∧
        ((∃ msgs, fw.sent = x.sent ++ msgs ∧ host.sent = x.sent ++ msgs ∧
          IsRequest streamId authority path body msgs) ↔ body ≠ [])) ∧
    (∀ (requests : List (String × String × List UInt8)) (onData : List (List UInt8) → Bool) (k : ℕ)
      (x : Exchange σ), x.nextStream = 1 → requests.length ≤ 2 ^ 30 →
        Ascending (streamIds (Fw.Post.postStream T · · · k) requests x) ∧
        Ascending (streamIds (Host.Post.post T · · · onData k) requests x)) := by
  refine ⟨?_, ?_⟩
  · intro x streamId authority path body hid hlen hfits htakes fw host
    have hhost := isRequest_host hid htakes hlen hfits
    refine ⟨hhost, ?_, ?_⟩
    · -- an empty body: one message against two
      rintro ⟨msgs, hfw, -, head, frames, hmsgs, -, -, -, -, -, hbody⟩ rfl
      have hsent : fw.sent = x.sent ++ [(headersFrame hid hfits).wire] :=
        sent_postStream_nil hid htakes hfits
      obtain ⟨init, last, rfl, -⟩ := hbody.ending
      have hone := congrArg List.length (List.append_cancel_left (hsent.symm.trans hfw))
      rw [hmsgs, List.length_map] at hone
      simp only [List.length_cons, List.length_append, List.length_nil] at hone
      omega
    · intro hne
      obtain ⟨msgs, hsent, hrequest⟩ := hhost
      have hfw : fw = host := congrArg Prod.fst (sendRequest_eq T x streamId authority path hne)
      exact ⟨msgs, hfw ▸ hsent, hsent, hrequest⟩
  · intro requests onData k x hx hroom
    have hodd : x.nextStream.toNat % 2 = 1 := by
      rw [hx]
      rfl
    -- the ids stay below 2^31 over all the calls
    have hroom' : x.nextStream.toNat + 2 * requests.length ≤ 2 ^ 31 + 1 := by
      rw [hx]
      show 1 + 2 * requests.length ≤ 2 ^ 31 + 1
      omega
    refine ⟨?_, ?_⟩
    · exact (ascending_streamIds
        (fun authority path body x => nextStream_postStream T authority path body k x)
        hodd hroom').1
    · exact (ascending_streamIds
        (fun authority path body x => nextStream_post T authority path body onData k x)
        hodd hroom').1

/-- A body of one byte, over the firmware's connection with three nonces left
and over the host's; and two calls. -/
theorem requests_alike_iff_one_byte :
    let A := checksumAead
    let key (n : UInt8) : Key := Vector.replicate 32 n
    let session : Noise.Session := ⟨key 1, key 2, .ofNat (2 ^ 64 - 4), 0, key 3⟩
    let x := Exchange.idle (Fw.H2Conn.new session, []) FrameReader.new 1
    let y : Exchange Host.NoiseTransport := .idle ⟨[], session, [], 0⟩ FrameReader.new 1
    (∃ msgs, (Fw.Post.sendRequest (Fw.Post.firmware A) x 1 "a" "/" [1]).1.sent = msgs ∧
      (Host.Post.sendRequest (Fw.Post.firmware A) x 1 "a" "/" [1]).1.sent = msgs ∧
      IsRequest 1 "a" "/" [1] msgs) ∧
    (∃ msgs, (Host.Post.sendRequest (Host.Post.host A) y 1 "a" "/" [1]).1.sent = msgs ∧
      IsRequest 1 "a" "/" [1] msgs) ∧
    Ascending (streamIds (Fw.Post.postStream (Fw.Post.firmware A) · · · 0)
      [("a", "/", [1]), ("a", "/b", [])] x) := by
  intro A key session x y
  have hfits : (Cmd.postHeaders 1 "a" "/" (.ofNat [(1 : UInt8)].length)).Fits := by
    show (postBlockBytes _ _ _).length ≤ 256
    decide +kernel
  have hcount : messageCount [1] = 2 := by
    rw [messageCount, Bytes.chunks_of_le (List.cons_ne_nil _ _) (by decide)]
    rfl
  have hfirmware : (Fw.Post.firmware A).Takes (messageCount [1]) x.link := by
    rw [hcount]
    exact takes_firmware checksumAead_lawful (by decide)
  have hhost : (Host.Post.host A).Takes (messageCount [1]) y.link := by
    rw [hcount]
    exact takes_host checksumAead_lawful (by decide)
  obtain ⟨hrequests, hids⟩ := requests_alike_iff (Fw.Post.firmware A)
  obtain ⟨-, halike⟩ := hrequests x 1 "a" "/" [1] (by decide) (by decide) hfits hfirmware
  obtain ⟨hsent, -⟩ := (requests_alike_iff (Host.Post.host A)).1 y 1 "a" "/" [1] (by decide)
    (by decide) hfits hhost
  exact ⟨halike.mpr (by decide), hsent, (hids _ (fun _ => true) 0 x rfl (by decide)).1⟩

/-- **An empty body leaves the request open.**  The host ends it with an empty
DATA frame; nothing that the firmware sends has END_STREAM. -/
theorem empty_body_left_open :
    let x := Exchange.idle ([], []) FrameReader.new 1
    (Cmd.postHeaders 1 "a" "/" (.ofNat ([] : List UInt8).length)).Fits ∧
      (Fw.Post.sendRequest playback x 1 "a" "/" []).1.sent ≠
        (Host.Post.sendRequest playback x 1 "a" "/" []).1.sent ∧
      ∀ msg ∈ (Fw.Post.sendRequest playback x 1 "a" "/" []).1.sent,
        (parseHeader (msg.take frameHeaderLen)).isEndStream = false := by
  refine ⟨?_, by decide +kernel, by decide +kernel⟩
  show (postBlockBytes _ _ _).length ≤ 256
  decide +kernel

end Lando.H2
