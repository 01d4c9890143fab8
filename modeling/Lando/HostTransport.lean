/-
Lando/HostTransport.lean

The host's end of the record stream (`NoiseTransport` in
`lando-host/src/transport.rs`).

`connect` reads into one buffer of 8192 bytes until the upgrade response and
the Noise response are complete.  What it read beyond them goes through
`absorb`, everything later through `pump`.  The two decode the same stream,
but only `pump` waits for the rest of a record: `absorb` refuses a record
that is cut behind its header, and drops one that is cut inside it.

So the record boundaries decide.  For a valid server stream (`ServerStream`)
the run delivers every record exactly when the read that completed the
handshake ended at one of them (`ServerStream.Aligned`).  The bytes dropped
otherwise leave the rest of the stream out of step, and as long as no slice of
the stream opens but the records themselves (`Unforged`), no later one is where
`pump` looks for it.
-/
import Lando.NoiseHandshake
import Lando.Socket
import Lando.Upgrade

namespace Lando.Host

open Bytes Noise Upgrade Socket

/-- The messages of the source, with what they quote. -/
inductive Error
  /-- "building upgrade request". -/
  | building (e : UpgradeError)
  /-- "connecting to". -/
  | connecting
  /-- "sending upgrade". -/
  | sending
  /-- "connection closed before upgrade completed". -/
  | upgradeClosed
  /-- "server refused the upgrade". -/
  | upgradeRefused (text : List UInt8)
  /-- "parsing upgrade response". -/
  | upgrade (e : UpgradeError)
  /-- "upgrade response exceeded buffer". -/
  | bufferExceeded
  /-- "control plane rejected the handshake". -/
  | rejected (message : List UInt8)
  /-- "connection closed during Noise handshake". -/
  | handshakeClosed
  /-- "completing Noise handshake". -/
  | handshake (e : NoiseError)
  /-- "truncated record coalesced with handshake". -/
  | truncated
  /-- "unexpected Noise frame type ... after handshake". -/
  | unexpectedCoalesced (kind : UInt8)
  /-- "decrypting coalesced record". -/
  | decryptingCoalesced (e : NoiseError)
  /-- "encrypting record". -/
  | encrypting (e : NoiseError)
  /-- "reading from control plane". -/
  | reading
  /-- "record claims ... bytes, over the 4 KiB cap". -/
  | overCap (len : ℕ)
  /-- "decrypting record". -/
  | decrypting (e : NoiseError)
  /-- "control plane error". -/
  | controlPlane (text : List UInt8)
  /-- "unexpected Noise frame type". -/
  | unexpectedType (kind : UInt8)
  /-- An error of the socket. -/
  | io
  deriving DecidableEq, Repr

/-- A Noise-encrypted byte stream over TCP: `rx` is decrypted text, consumed
up to `rxPos`. -/
structure NoiseTransport where
  stream : List (List UInt8)
  session : Noise.Session
  rx : List UInt8
  rxPos : ℕ

/-- The length of the buffer that `connect` reads into. -/
def bufLen : ℕ := 8192

/-! ### The handshake -/

/-- `read_into`: the buffer with what a read added to it. -/
def readInto (buf : List UInt8) (stream : List (List UInt8)) :
    Except Error (List UInt8 × List UInt8 × List (List UInt8)) :=
  if buf.length = bufLen then .error .bufferExceeded
  else
    match read (bufLen - buf.length) stream with
    | none => .error .io
    | some (bytes, stream) => .ok (bytes, buf ++ bytes, stream)

/-- Reads until the headers of the response are complete.  Every turn reads
a byte at least, so `k` turns are enough when `k` is more than the room. -/
def awaitUpgrade : ℕ → List UInt8 → List (List UInt8) →
    Except Error (ℕ × List UInt8 × List (List UInt8))
  | 0, _, _ => .error .bufferExceeded
  | k + 1, buf, stream =>
      match readInto buf stream with
      | .error e => .error e
      | .ok ([], _, _) => .error .upgradeClosed
      | .ok (_ :: _, buf, stream) =>
          match parseResponse buf with
          | .ok bodyStart => .ok (bodyStart, buf, stream)
          | .error .incomplete => awaitUpgrade k buf stream
          | .error .notSwitching => .error (.upgradeRefused buf)
          | .error e => .error (.upgrade e)

/-- Reads until the Noise response is complete. -/
def awaitResponse (bodyStart : ℕ) : ℕ → List UInt8 → List (List UInt8) →
    Except Error (List UInt8 × List (List UInt8))
  | k, buf, stream =>
      if buf.length - bodyStart < responseLen then
        if headerLen ≤ buf.length - bodyStart ∧ buf.getD bodyStart 0 = msgTypeError then
          let len := fromBE (slice buf (bodyStart + 1) (bodyStart + 3))
          let last := min (bodyStart + headerLen + len) buf.length
          .error (.rejected (slice buf (bodyStart + headerLen) last))
        else
          match k with
          | 0 => .error .bufferExceeded
          | k + 1 =>
              match readInto buf stream with
              | .error e => .error e
              | .ok ([], _, _) => .error .handshakeClosed
              | .ok (_ :: _, buf, stream) => awaitResponse bodyStart k buf stream
      else .ok (buf, stream)

namespace NoiseTransport

/-- The loop of `absorb`.  A turn takes three bytes at least. -/
def absorbLoop (A : Aead) : ℕ → NoiseTransport → List UInt8 → Except Error NoiseTransport
  | 0, t, _ => .ok t
  | k + 1, t, bytes =>
      if bytes.length < headerLen then .ok t
      else
        let (kind, len) := parseHeader (bytes.take headerLen)
        if bytes.length < headerLen + len then .error .truncated
        else if kind ≠ msgTypeRecord then .error (.unexpectedCoalesced kind)
        else
          match t.session.readRecord A (slice bytes headerLen (headerLen + len)) with
          | .error e => .error (.decryptingCoalesced e)
          | .ok (session, text) =>
              absorbLoop A k { t with session := session, rx := t.rx ++ text }
                (bytes.drop (headerLen + len))

/-- Decrypts bytes already read from the socket during the handshake. -/
def absorb (A : Aead) (t : NoiseTransport) (bytes : List UInt8) : Except Error NoiseTransport :=
  absorbLoop A bytes.length t bytes

/-- Reads and decrypts one more Noise record, appending to the buffer. -/
def pump (A : Aead) (t : NoiseTransport) : Except Error NoiseTransport :=
  match readExact headerLen t.stream with
  | none => .error .reading
  | some (header, stream) =>
      let (kind, len) := parseHeader header
      if maxCiphertextSize < len then .error (.overCap len)
      else
        match readExact len stream with
        | none => .error .reading
        | some (body, stream) =>
            if kind = msgTypeRecord then
              match t.session.readRecord A body with
              | .error e => .error (.decrypting e)
              | .ok (session, text) =>
                  .ok { t with stream := stream, session := session, rx := t.rx ++ text }
            else if kind = msgTypeError then .error (.controlPlane body)
            else .error (.unexpectedType kind)

/-- Plaintext decrypted but not yet consumed. -/
def buffered (t : NoiseTransport) : List UInt8 := t.rx.drop t.rxPos

/-- `consume`: the buffer is cut when it is used up, or when 16 KiB of it are. -/
def consume (t : NoiseTransport) (n : ℕ) : NoiseTransport :=
  let rxPos := t.rxPos + n
  if rxPos = t.rx.length then { t with rx := [], rxPos := 0 }
  else if 16 * 1024 < rxPos then { t with rx := t.rx.drop rxPos, rxPos := 0 }
  else { t with rxPos := rxPos }

/-- One record for each piece of a text. -/
def sendChunks (A : Aead) : Noise.Session → List (List UInt8) →
    Except Error (Noise.Session × List UInt8)
  | session, [] => .ok (session, [])
  | session, chunk :: chunks =>
      match session.writeRecord A chunk maxMessageSize with
      | .error e => .error (.encrypting e)
      | .ok (session, frame) =>
          match sendChunks A session chunks with
          | .error e => .error e
          | .ok (session, frames) => .ok (session, frame ++ frames)

/-- Encrypts and sends `plaintext`, splitting it across records as needed; the
result is what was written to the socket. -/
def send (A : Aead) (t : NoiseTransport) (plaintext : List UInt8) :
    Except Error (NoiseTransport × List UInt8) :=
  match sendChunks A t.session (chunks maxPlaintextSize plaintext) with
  | .error e => .error e
  | .ok (session, written) => .ok ({ t with session := session }, written)

/-- The part of `connect` after the request is sent. -/
def receive (P : Primitives) (handshake : Handshake) (stream : List (List UInt8)) :
    Except Error NoiseTransport :=
  match awaitUpgrade (bufLen + 1) [] stream with
  | .error e => .error e
  | .ok (bodyStart, buf, stream) =>
      match awaitResponse bodyStart (bufLen + 1) buf stream with
      | .error e => .error e
      | .ok (buf, stream) =>
          match handshake.finish P (slice buf bodyStart (bodyStart + responseLen)) with
          | .error e => .error (.handshake e)
          | .ok session =>
              let t : NoiseTransport := ⟨stream, session, [], 0⟩
              let leftoverStart := bodyStart + responseLen
              if leftoverStart < buf.length then t.absorb P.toAead (buf.drop leftoverStart)
              else .ok t

/-- `NoiseTransport::connect`.  `dial` is what TCP came to, `sent` whether
the request could be written. -/
def connect (P : Primitives) (dial : Except Error Unit) (sent : Bool) (host : String)
    (controlKey : MachinePublic) (machineKey ephemeral : MachinePrivate)
    (capabilityVersion : UInt16) (stream : List (List UInt8)) : Except Error NoiseTransport :=
  match Handshake.start P machineKey controlKey capabilityVersion ephemeral with
  -- a panic of the source, on a cipher that cannot encrypt 32 bytes
  | .error e => .error (.handshake e)
  | .ok (handshake, initiation) =>
      match buildRequest host initiation maxRequestLen with
      | .error e => .error (.building e)
      | .ok _ =>
          match dial with
          | .error e => .error e
          | .ok () => if sent then receive P handshake stream else .error .sending

/-- Pumps until everything that was sent is read, or a pump fails. -/
def pumpAll (A : Aead) : ℕ → NoiseTransport → NoiseTransport × Option Error
  | 0, t => (t, none)
  | k + 1, t =>
      if t.stream.flatten = [] then (t, none)
      else
        match t.pump A with
        | .error e => (t, some e)
        | .ok t => pumpAll A k t

/-- What comes of a connection: the transport after the last record that was
sent, or the first failure. -/
def drive (A : Aead) : Except Error NoiseTransport → Except Error NoiseTransport
  | .error e => .error e
  | .ok t =>
      match t.pumpAll A t.stream.flatten.length with
      | (t, none) => .ok t
      | (_, some e) => .error e

/-! ### Frames -/

/-- What the host makes of a frame. -/
def accept (A : Aead) (s : Noise.Session) (f : Frame) :
    Except Error (Noise.Session × List UInt8) :=
  if maxCiphertextSize < f.body.length then .error (.overCap f.body.length)
  else if f.kind = msgTypeRecord then
    match s.readRecord A f.body with
    | .error e => .error (.decrypting e)
    | .ok res => .ok res
  else if f.kind = msgTypeError then .error (.controlPlane f.body)
  else .error (.unexpectedType f.kind)

/-! ### Pumping -/

variable {A : Aead}

/-- A pump takes the frame at the front. -/
theorem pump_wire {t : NoiseTransport} {f : Frame} {rest : List UInt8} (hflow : Flowing t.stream)
    (hbytes : t.stream.flatten = f.wire ++ rest) :
    ∃ stream, Flowing stream ∧ stream.flatten = rest ∧
      t.pump A = (accept A t.session f).map fun r =>
        { t with stream := stream, session := r.1, rx := t.rx ++ r.2 } := by
  have hhead : t.stream.flatten.take headerLen = f.head := by rw [hbytes, f.take_wire]
  have hrest : t.stream.flatten.drop headerLen = f.body ++ rest := by
    rw [hbytes, Frame.wire, List.append_assoc, List.drop_left' f.length_head]
  have hlen : t.stream.flatten.length = headerLen + f.body.length + rest.length := by
    rw [hbytes, List.length_append, f.length_wire]
  obtain ⟨stream₁, he₁, hflat₁, hflow₁⟩ :=
    readExact_spec (n := headerLen) hflow (by omega)
  rw [hhead] at he₁
  rw [hrest] at hflat₁
  obtain ⟨stream₂, he₂, hflat₂, hflow₂⟩ :=
    readExact_spec (n := f.body.length) hflow₁ (by rw [hflat₁, List.length_append]; omega)
  rw [hflat₁, List.take_left] at he₂
  rw [hflat₁, List.drop_left] at hflat₂
  refine ⟨stream₂, hflow₂, hflat₂, ?_⟩
  unfold pump accept
  simp only [he₁, f.parseHeader_head]
  by_cases hcap : maxCiphertextSize < f.body.length
  · rw [if_pos hcap, if_pos hcap]
    rfl
  rw [if_neg hcap, if_neg hcap, he₂]
  simp only
  by_cases hrecord : f.kind = msgTypeRecord
  · rw [if_pos hrecord, if_pos hrecord]
    rcases t.session.readRecord A f.body with e | ⟨session, text⟩
    · rfl
    · rfl
  · rw [if_neg hrecord, if_neg hrecord]
    by_cases herror : f.kind = msgTypeError
    · rw [if_pos herror, if_pos herror]
      rfl
    · rw [if_neg herror, if_neg herror]
      rfl

/-- A pump that succeeds found a frame at the front. -/
theorem pump_ok {t t' : NoiseTransport} (hflow : Flowing t.stream) (h : t.pump A = .ok t') :
    ∃ f : Frame, t.stream.flatten = f.wire ++ t'.stream.flatten ∧ Flowing t'.stream ∧
      ∃ text, accept A t.session f = .ok (t'.session, text) ∧ t'.rx = t.rx ++ text := by
  have hhead : headerLen ≤ t.stream.flatten.length := by
    by_contra hshort
    unfold pump at h
    rw [readExact_none (Nat.not_le.mp hshort)] at h
    cases h
  have hbody : headerLen + (parseHeader (t.stream.flatten.take headerLen)).2 ≤
      t.stream.flatten.length := by
    by_contra hshort
    obtain ⟨stream, he, hflat, -⟩ := readExact_spec hflow hhead
    unfold pump at h
    rw [he] at h
    simp only at h
    have hnone : readExact (parseHeader (t.stream.flatten.take headerLen)).2 stream = none := by
      apply readExact_none
      rw [hflat, List.length_drop]
      omega
    rw [hnone] at h
    split_ifs at h
  obtain ⟨f, rest, hbytes⟩ := exists_frame hhead hbody
  obtain ⟨stream, hflow', hrest, hpump⟩ := pump_wire (A := A) hflow hbytes
  rw [h] at hpump
  rcases hf : accept A t.session f with e | ⟨session, text⟩
  · rw [hf] at hpump
    cases hpump
  · rw [hf] at hpump
    obtain rfl := Except.ok.inj hpump
    exact ⟨f, by rw [hbytes, hrest], hflow', text, hf, rfl⟩

/-- **Pumping refines `decode`**: over the frames of a stream it delivers the
text of those that are accepted and stops at the first that is not. -/
theorem pumpAll_wires {k : ℕ} {t : NoiseTransport} {frames : List Frame}
    (hflow : Flowing t.stream) (hbytes : t.stream.flatten = wires frames)
    (hk : t.stream.flatten.length ≤ k) :
    ∃ t' text err, t.pumpAll A k = (t', err) ∧
      decode (accept A) t.session frames = (t'.session, text, err) ∧ t'.rx = t.rx ++ text := by
  induction k generalizing t frames with
  | zero =>
    have hnil := List.length_eq_zero_iff.mp (Nat.le_zero.mp hk)
    cases frames with
    | nil => exact ⟨t, [], none, rfl, rfl, (List.append_nil _).symm⟩
    | cons f frames =>
      have hpos := length_wire_ge f
      rw [hnil] at hbytes
      have hlen := congrArg List.length hbytes
      rw [wires_cons, List.length_append, List.length_nil] at hlen
      simp only [headerLen] at hpos
      omega
  | succ k ih =>
    rw [pumpAll]
    cases frames with
    | nil =>
      rw [if_pos (by rw [hbytes, wires_nil])]
      exact ⟨t, [], none, rfl, rfl, (List.append_nil _).symm⟩
    | cons f frames =>
      -- a frame takes bytes, so the stream gets shorter
      have hpos := length_wire_ge f
      simp only [headerLen] at hpos
      rw [wires_cons] at hbytes
      have hlen := congrArg List.length hbytes
      rw [List.length_append] at hlen
      have hne : t.stream.flatten ≠ [] := by
        intro hnil
        rw [hnil, List.length_nil] at hlen
        omega
      rw [if_neg hne]
      obtain ⟨stream, hflow', hrest, hpump⟩ := pump_wire (A := A) hflow hbytes
      rw [hpump]
      rcases hf : accept A t.session f with e | ⟨session, text⟩
      · exact ⟨t, [], some e, rfl, decode_cons_error hf frames, (List.append_nil _).symm⟩
      · -- the rest of the stream, by induction
        obtain ⟨t', rest, err, he, hdec, hrx⟩ :=
          ih (t := { t with stream := stream, session := session, rx := t.rx ++ text }) hflow' hrest
            (by rw [hrest]; omega)
        refine ⟨t', text ++ rest, err, he, ?_, ?_⟩
        · rw [decode_cons_ok hf, hdec]
        · rw [hrx, List.append_assoc]

/-- Pumping that reads everything found a stream of accepted frames. -/
theorem pumpAll_none {k : ℕ} {t t' : NoiseTransport} (hflow : Flowing t.stream)
    (hk : t.stream.flatten.length ≤ k) (h : t.pumpAll A k = (t', none)) :
    ∃ frames text, t.stream.flatten = wires frames ∧
      decode (accept A) t.session frames = (t'.session, text, none) := by
  induction k generalizing t with
  | zero =>
    obtain ⟨rfl, -⟩ := Prod.mk.inj h
    exact ⟨[], [], List.length_eq_zero_iff.mp (Nat.le_zero.mp hk), rfl⟩
  | succ k ih =>
    rw [pumpAll] at h
    by_cases hnil : t.stream.flatten = []
    · rw [if_pos hnil] at h
      obtain ⟨rfl, -⟩ := Prod.mk.inj h
      exact ⟨[], [], hnil, rfl⟩
    rw [if_neg hnil] at h
    rcases hpump : t.pump A with e | t₁
    · rw [hpump] at h
      cases h
    · rw [hpump] at h
      obtain ⟨f, hbytes, hflow₁, text, hf, hrx⟩ := pump_ok hflow hpump
      have hpos := length_wire_ge f
      simp only [headerLen] at hpos
      have hlen := congrArg List.length hbytes
      rw [List.length_append] at hlen
      obtain ⟨frames, rest, hrest, hdec⟩ := ih hflow₁ (by omega) h
      refine ⟨f :: frames, text ++ rest, by rw [hbytes, hrest, wires_cons], ?_⟩
      rw [decode_cons_ok hf, hdec]

/-! ### Absorbing -/

theorem accept_ok {s : Noise.Session} {f : Frame} {r : Noise.Session × List UInt8}
    (h : accept A s f = .ok r) :
    f.kind = msgTypeRecord ∧ f.body.length ≤ maxCiphertextSize ∧ s.readRecord A f.body = .ok r := by
  unfold accept at h
  split_ifs at h with hcap hkind
  rcases hread : s.readRecord A f.body with e | r'
  · rw [hread] at h
    cases h
  · rw [hread] at h
    obtain rfl := Except.ok.inj h
    exact ⟨hkind, Nat.not_lt.mp hcap, rfl⟩

/-- Absorbing goes through whole frames as pumping does. -/
theorem absorbLoop_wires {k : ℕ} {t : NoiseTransport} {pre : List Frame} {s' : Noise.Session}
    {text : List UInt8} (part : List UInt8)
    (hpre : decode (accept A) t.session pre = (s', text, none))
    (hk : (wires pre ++ part).length ≤ k) :
    ∃ k', part.length ≤ k' ∧ absorbLoop A k t (wires pre ++ part) =
      absorbLoop A k' { t with session := s', rx := t.rx ++ text } part := by
  induction pre generalizing k t text with
  | nil =>
    simp only [decode, Prod.mk.injEq] at hpre
    obtain ⟨rfl, rfl, -⟩ := hpre
    exact ⟨k, hk, by rw [List.append_nil, wires_nil, List.nil_append]⟩
  | cons f pre ih =>
    obtain ⟨s₁, t₁, t₂, hf, hrest, rfl⟩ := decode_cons_none hpre
    obtain ⟨hkind, -, hread⟩ := accept_ok hf
    have hlen := f.length_wire
    rw [wires_cons, List.append_assoc, List.length_append] at hk
    simp only [headerLen] at hlen
    cases k with
    | zero => omega
    | succ k =>
      obtain ⟨k', hk', he⟩ :=
        ih (k := k) (t := { t with session := s₁, rx := t.rx ++ t₁ }) hrest (by omega)
      refine ⟨k', hk', ?_⟩
      -- the turn for `f`
      have hslice : slice (f.wire ++ (wires pre ++ part)) headerLen (headerLen + f.body.length) =
          f.body := by
        rw [Frame.wire, List.append_assoc]
        exact slice_append_mid f.length_head.symm rfl
      have hdrop : (f.wire ++ (wires pre ++ part)).drop (headerLen + f.body.length) =
          wires pre ++ part := List.drop_left' f.length_wire
      rw [wires_cons, List.append_assoc, absorbLoop, f.take_wire, f.parseHeader_head]
      simp only [List.length_append, hlen, headerLen] at hslice hdrop ⊢
      rw [if_neg (by omega), if_neg (by omega), if_neg (by rw [hkind]; exact fun h => h rfl),
        hslice, hread, hdrop]
      simp only
      rw [he, List.append_assoc]

/-- A header that is cut is dropped. -/
theorem absorbLoop_few {k : ℕ} {t : NoiseTransport} {part : List UInt8}
    (h : part.length < headerLen) : absorbLoop A k t part = .ok t := by
  cases k with
  | zero => rfl
  | succ k => rw [absorbLoop, if_pos h]

/-- A record that is cut behind its header is refused. -/
theorem absorbLoop_truncated {k : ℕ} {t : NoiseTransport} {f : Frame} {part rest : List UInt8}
    (hf : part ++ rest = f.wire) (hrest : rest ≠ []) (hhead : headerLen ≤ part.length)
    (hk : part.length ≤ k) : absorbLoop A k t part = .error .truncated := by
  cases k with
  | zero =>
    simp only [headerLen] at hhead
    omega
  | succ k =>
    have htake : part.take headerLen = f.head := by
      have h := f.take_wire []
      rwa [List.append_nil, ← hf, List.take_append_of_le_length hhead] at h
    have hlen : part.length < headerLen + f.body.length := by
      have h := congrArg List.length hf
      have hpos := List.length_pos_iff.mpr hrest
      rw [List.length_append, f.length_wire] at h
      omega
    rw [absorbLoop, if_neg (Nat.not_lt.mpr hhead), htake, f.parseHeader_head]
    simp only
    rw [if_pos hlen]

/-! ### Out of step -/

theorem unforged_decode {sent : List UInt8} {s s' : Noise.Session} {pre post : List Frame}
    {text : List UInt8} (h : Unforged A sent s (pre ++ post))
    (hpre : decode (accept A) s pre = (s', text, none)) : Unforged A sent s' post := by
  induction pre generalizing s text with
  | nil =>
    obtain ⟨rfl, -⟩ := Prod.mk.inj hpre
    exact h
  | cons f pre ih =>
    obtain ⟨s₁, t₁, _, hf, hrest, -⟩ := decode_cons_none hpre
    exact ih (h.next (accept_ok hf).2.2) hrest

/-- The body of a frame is a slice of the bytes in which the frame stands. -/
theorem body_infix_wires (g : Frame) (others : List Frame) : g.body <:+: wires (g :: others) :=
  ⟨g.head, wires others, by rw [wires_cons, Frame.wire]⟩

/-- Frames found in the bytes sent and accepted in place of `frames` have the
same bodies, so they cannot make up for one or two bytes that are missing. -/
theorem unforged_length {sent : List UInt8} {s s' : Noise.Session} {frames others : List Frame}
    {text : List UInt8} {lost : ℕ} (h : Unforged A sent s frames)
    (hsent : wires others <:+: sent) (hothers : decode (accept A) s others = (s', text, none))
    (hpos : 0 < lost) (hfew : lost < headerLen) :
    (wires others).length + lost ≠ (wires frames).length := by
  induction frames generalizing s others text with
  | nil =>
    intro hlen
    rw [wires_nil, List.length_nil] at hlen
    omega
  | cons f frames ih =>
    intro hlen
    have hthree := length_wire_ge f
    rw [wires_cons, List.length_append] at hlen
    cases others with
    | nil =>
      rw [wires_nil, List.length_nil] at hlen
      omega
    | cons g others =>
      obtain ⟨s₁, t₁, _, hg, hrest, -⟩ := decode_cons_none hothers
      obtain ⟨-, -, hread⟩ := accept_ok hg
      have hbody := h.1 g.body s₁ t₁ ((body_infix_wires g others).trans hsent) hread
      have hsame : g.wire.length = f.wire.length := by
        rw [g.length_wire, f.length_wire, hbody]
      have hsent' : wires others <:+: sent :=
        (List.suffix_append g.wire (wires others)).isInfix.trans hsent
      rw [hbody] at hread
      refine ih (h.next hread) hsent' hrest ?_
      rw [wires_cons, List.length_append] at hlen
      omega

end NoiseTransport

/-! ### The handshake on a valid stream -/

/-- A valid stream of a server: the upgrade response, the Noise response, and
records that open one after the other. -/
structure ServerStream (P : Primitives) (handshake : Handshake) where
  headers : List UInt8
  response : List UInt8
  frames : List Frame
  session : Noise.Session
  text : List UInt8
  upgrade : parseResponse headers = .ok headers.length
  noise : handshake.finish P response = .ok session
  records : ∃ s', decode (NoiseTransport.accept P.toAead) session frames = (s', text, none)

namespace ServerStream

variable {P : Primitives} {handshake : Handshake} (v : ServerStream P handshake)

/-- All that the server sends. -/
def bytes : List UInt8 := v.headers ++ (v.response ++ wires v.frames)

/-- Where the handshake is complete. -/
def complete : ℕ := v.headers.length + responseLen

/-- Where the read ends that completes the handshake, when the stream comes
in the segments `s`. -/
def readEnd (s : List (List UInt8)) : ℕ := (fill bufLen v.complete [] s).1.length

/-- That read ends between two records. -/
def Aligned (s : List (List UInt8)) : Prop :=
  ∃ pre post, v.frames = pre ++ post ∧ v.readEnd s = v.complete + (wires pre).length

variable {v}

theorem length_response : v.response.length = responseLen := Handshake.length_of_finish v.noise

theorem complete_le : v.complete ≤ v.bytes.length := by
  rw [complete, bytes, List.length_append, List.length_append, v.length_response]
  omega

/-- Where there is room, and not all has been read, a read adds something. -/
theorem read_more {buf : List UInt8} {s : List (List UInt8)} (hflow : Flowing s)
    (hbytes : buf ++ s.flatten = v.bytes) (hmore : buf.length < v.bytes.length)
    (hroom : buf.length < bufLen) :
    ∃ b bs s', read (bufLen - buf.length) s = some (b :: bs, s') ∧ Flowing s' ∧
      buf ++ b :: bs ++ s'.flatten = v.bytes ∧ (buf ++ b :: bs).length ≤ bufLen := by
  rcases hread : read (bufLen - buf.length) s with - | ⟨bytes, s'⟩
  · rw [read_none hread, List.flatten_nil, List.append_nil] at hbytes
    rw [hbytes] at hmore
    omega
  obtain ⟨hsplit, hlen, hsome, hflow'⟩ := read_spec hflow hread
  cases bytes with
  | nil => exact absurd rfl (hsome (by omega))
  | cons b bs =>
    refine ⟨b, bs, s', rfl, hflow', ?_, ?_⟩
    · rw [← hbytes, ← hsplit, List.append_assoc]
    · rw [List.length_append]
      omega

/-- The first loop stops with the read that completes the headers. -/
theorem awaitUpgrade_eq {k : ℕ} {buf : List UInt8} {s : List (List UInt8)} (hflow : Flowing s)
    (hbytes : buf ++ s.flatten = v.bytes) (hlt : buf.length < v.headers.length)
    (hlen : buf.length ≤ bufLen) (hk : bufLen < k + buf.length) :
    (v.headers.length ≤ bufLen →
        awaitUpgrade k buf s = .ok (v.headers.length, fill bufLen v.headers.length buf s)) ∧
      (bufLen < v.headers.length → ∃ e, awaitUpgrade k buf s = .error e) := by
  induction k generalizing buf s with
  | zero => omega
  | succ k ih =>
    rw [awaitUpgrade, readInto]
    by_cases hfull : buf.length = bufLen
    · rw [if_pos hfull]
      exact ⟨fun h => by omega, fun _ => ⟨_, rfl⟩⟩
    rw [if_neg hfull]
    have hmore : buf.length < v.bytes.length := by
      rw [bytes, List.length_append]
      omega
    obtain ⟨b, bs, s', hread, hflow', hbytes', hlen'⟩ := read_more hflow hbytes hmore (by omega)
    rw [hread]
    simp only [parseResponse_front v.upgrade hbytes']
    by_cases hdone : v.headers.length ≤ (buf ++ b :: bs).length
    · rw [if_pos hdone]
      refine ⟨fun hfits => ?_, fun h => by omega⟩
      rw [fill_read hfits hlt hread, fill_of_le hdone]
    · rw [if_neg hdone]
      have hnext := ih hflow' hbytes' (Nat.not_le.mp hdone) hlen'
        (by rw [List.length_append, List.length_cons]; omega)
      refine ⟨fun hfits => ?_, hnext.2⟩
      rw [fill_read hfits hlt hread]
      exact hnext.1 hfits

/-- The second loop stops with the read that completes the Noise response. -/
theorem awaitResponse_eq {k : ℕ} {buf : List UInt8} {s : List (List UInt8)} (hflow : Flowing s)
    (hbytes : buf ++ s.flatten = v.bytes) (hlen : buf.length ≤ bufLen)
    (hk : bufLen < k + buf.length) :
    (v.complete ≤ bufLen →
        awaitResponse v.headers.length k buf s = .ok (fill bufLen v.complete buf s)) ∧
      (bufLen < v.complete → ∃ e, awaitResponse v.headers.length k buf s = .error e) := by
  induction k generalizing buf s with
  | zero => omega
  | succ k ih =>
    rw [awaitResponse]
    by_cases hdone : v.complete ≤ buf.length
    · rw [if_neg (by rw [complete] at hdone; omega)]
      exact ⟨fun _ => by rw [fill_of_le hdone], fun h => by omega⟩
    rw [if_pos (by simp only [complete, responseLen] at hdone ⊢; omega)]
    -- the message is a response, so the server did not refuse
    have hkind : ¬ (headerLen ≤ buf.length - v.headers.length ∧
        buf.getD v.headers.length 0 = msgTypeError) := by
      rintro ⟨hthree, hkind⟩
      have hresp := Handshake.kind_of_finish v.noise
      have hlt : v.headers.length < buf.length := by
        simp only [headerLen] at hthree
        omega
      have hget : buf.getD v.headers.length 0 = v.response.getD 0 0 := by
        have hpos : 0 < v.response.length := by rw [v.length_response]; decide
        have h := congrArg (fun l => l[v.headers.length]?) hbytes
        simp only [bytes] at h
        rw [List.getElem?_append_left hlt, List.getElem?_append_right (Nat.le_refl _),
          Nat.sub_self, List.getElem?_append_left hpos] at h
        rw [List.getD_eq_getElem?_getD, h, List.getD_eq_getElem?_getD]
      rw [hget, hresp] at hkind
      exact absurd hkind (by decide)
    rw [if_neg hkind, readInto]
    by_cases hfull : buf.length = bufLen
    · rw [if_pos hfull]
      exact ⟨fun h => by omega, fun _ => ⟨_, rfl⟩⟩
    rw [if_neg hfull]
    have hmore : buf.length < v.bytes.length := (Nat.not_le.mp hdone).trans_le v.complete_le
    obtain ⟨b, bs, s', hread, hflow', hbytes', hlen'⟩ := read_more hflow hbytes hmore (by omega)
    rw [hread]
    have hnext := ih hflow' hbytes' hlen' (by rw [List.length_append, List.length_cons]; omega)
    refine ⟨fun hfits => ?_, hnext.2⟩
    rw [fill_read hfits (Nat.not_le.mp hdone) hread]
    exact hnext.1 hfits

theorem headers_ne_nil : v.headers ≠ [] := by
  intro h
  have hup := v.upgrade
  rw [h] at hup
  cases hup

/-- A front that holds the handshake. -/
theorem eq_front {buf rest : List UInt8} (hbytes : buf ++ rest = v.bytes)
    (hle : v.complete ≤ buf.length) :
    ∃ front, buf = v.headers ++ (v.response ++ front) ∧ front ++ rest = wires v.frames := by
  have hhead : (v.headers ++ v.response).length = v.complete := by
    rw [List.length_append, v.length_response, complete]
  have hbytes' : buf ++ rest = v.headers ++ v.response ++ wires v.frames := by
    rw [hbytes, bytes, List.append_assoc]
  have htake := congrArg (List.take v.complete) hbytes'
  rw [List.take_append_of_le_length hle, List.take_left' hhead] at htake
  have hdrop := congrArg (List.drop v.complete) hbytes'
  rw [List.drop_append_of_le_length hle, List.drop_left' hhead] at hdrop
  refine ⟨buf.drop v.complete, ?_, hdrop⟩
  rw [← List.append_assoc, ← htake, List.take_append_drop]

/-- The loops, over the whole stream: they leave what one `fill` does, unless
the buffer is too short. -/
theorem receive_eq {s : List (List UInt8)} (hflow : Flowing s) (hbytes : s.flatten = v.bytes) :
    (v.complete ≤ bufLen → ∃ front stream, v.readEnd s = v.complete + front.length ∧
        Flowing stream ∧ front ++ stream.flatten = wires v.frames ∧
        NoiseTransport.receive P handshake s =
          NoiseTransport.absorb P.toAead ⟨stream, v.session, [], 0⟩ front) ∧
      (bufLen < v.complete → ∃ e, NoiseTransport.receive P handshake s = .error e) := by
  have hbytes' : [] ++ s.flatten = v.bytes := hbytes
  have hpos : ([] : List UInt8).length < v.headers.length :=
    List.length_pos_iff.mpr v.headers_ne_nil
  have hle : v.headers.length ≤ v.complete := Nat.le_add_right _ _
  have hall := v.complete_le
  have hup := awaitUpgrade_eq (k := bufLen + 1) hflow hbytes' hpos (Nat.zero_le _)
    (Nat.lt_succ_self _)
  unfold NoiseTransport.receive
  -- headers longer than the buffer end the first loop in an error
  by_cases hfits : v.headers.length ≤ bufLen
  swap
  · obtain ⟨e, he⟩ := hup.2 (Nat.not_le.mp hfits)
    exact ⟨fun h => by omega, fun _ => ⟨e, by rw [he]⟩⟩
  rw [hup.1 hfits]
  obtain ⟨hsplit, -, hflow₁⟩ := fill_spec hflow hfits
    (show v.headers.length ≤ ([] ++ s.flatten).length by rw [hbytes']; omega)
  have hresp := awaitResponse_eq (k := bufLen + 1) hflow₁ (hsplit.trans hbytes')
    (length_fill_le (Nat.zero_le bufLen)) (by omega)
  constructor
  · intro hroom
    obtain ⟨hsplit', hle', hflow'⟩ := fill_spec hflow hroom
      (show v.complete ≤ ([] ++ s.flatten).length by rw [hbytes']; exact hall)
    -- the two loops fill the same buffer, so they are one fill
    rw [fill_fill hle hroom] at hresp
    simp only [hresp.1 hroom]
    rw [readEnd]
    generalize fill bufLen v.complete [] s = filled at hsplit' hle' hflow' ⊢
    obtain ⟨buf, stream⟩ := filled
    simp only at hsplit' hle' hflow' ⊢
    obtain ⟨front, rfl, hfront⟩ := v.eq_front (hsplit'.trans hbytes') hle'
    have hslice : slice (v.headers ++ (v.response ++ front)) v.headers.length
        (v.headers.length + responseLen) = v.response :=
      slice_append_mid rfl (by rw [v.length_response])
    have hlen : (v.headers ++ (v.response ++ front)).length = v.complete + front.length := by
      rw [List.length_append, List.length_append, v.length_response, complete, Nat.add_assoc]
    have hdrop : (v.headers ++ (v.response ++ front)).drop (v.headers.length + responseLen) =
        front := by
      rw [← List.append_assoc]
      exact List.drop_left' (by rw [List.length_append, v.length_response])
    refine ⟨front, stream, hlen, hflow', hfront, ?_⟩
    rw [hslice, v.noise, hdrop]
    simp only
    -- nothing read beyond the handshake: nothing to absorb
    by_cases hnil : front = []
    · subst hnil
      rw [if_neg (by rw [hlen]; exact Nat.lt_irrefl _)]
      rfl
    · have hsome := List.length_pos_iff.mpr hnil
      rw [if_pos (by rw [hlen, complete]; omega)]
  · intro hlong
    obtain ⟨e, he⟩ := hresp.2 hlong
    exact ⟨e, by simp only [he]⟩

/-- With the read at a record boundary, every record is delivered. -/
theorem drive_aligned {s : List (List UInt8)} (hflow : Flowing s) (hbytes : s.flatten = v.bytes)
    (hfits : v.complete ≤ bufLen) (h : v.Aligned s) :
    ∃ t, NoiseTransport.drive P.toAead (NoiseTransport.receive P handshake s) = .ok t ∧
      t.rx = v.text := by
  obtain ⟨front, stream, hend, hflow', hfront, he⟩ := (v.receive_eq hflow hbytes).1 hfits
  obtain ⟨pre, post, hframes, hpre⟩ := h
  rw [hframes, wires_append] at hfront
  obtain ⟨rfl, hstream⟩ := List.append_inj hfront (by omega)
  obtain ⟨s', hdec⟩ := v.records
  rw [hframes] at hdec
  obtain ⟨s₁, text, hopen⟩ := decode_front hdec
  obtain ⟨rest, hrest, htext⟩ := decode_rest hopen hdec
  obtain ⟨k', -, habsorb⟩ := NoiseTransport.absorbLoop_wires (k := (wires pre).length)
    (t := ⟨stream, v.session, [], 0⟩) [] hopen (by rw [List.append_nil])
  rw [List.append_nil, NoiseTransport.absorbLoop_few (show [].length < headerLen by decide)]
    at habsorb
  obtain ⟨t, more, err, hpump, hdec', hrx⟩ := NoiseTransport.pumpAll_wires (A := P.toAead)
    (t := ⟨stream, s₁, [] ++ text, 0⟩) hflow' hstream (Nat.le_refl _)
  rw [hrest] at hdec'
  simp only [Prod.mk.injEq] at hdec'
  obtain ⟨-, rfl, rfl⟩ := hdec'
  refine ⟨t, ?_, by rw [hrx, htext]; rfl⟩
  rw [he, NoiseTransport.absorb, habsorb, NoiseTransport.drive, hpump]

/-- With the read inside a record, the run fails. -/
theorem drive_not_aligned {s : List (List UInt8)} (hflow : Flowing s)
    (hbytes : s.flatten = v.bytes) (hfits : v.complete ≤ bufLen)
    (hauth : Unforged P.toAead (wires v.frames) v.session v.frames) (h : ¬ v.Aligned s) :
    ∃ e, NoiseTransport.drive P.toAead (NoiseTransport.receive P handshake s) = .error e := by
  obtain ⟨front, stream, hend, hflow', hfront, he⟩ := (v.receive_eq hflow hbytes).1 hfits
  obtain ⟨s', hdec⟩ := v.records
  have hslice : stream.flatten <:+: wires v.frames :=
    hfront ▸ (List.suffix_append front stream.flatten).isInfix
  rcases cut_wires hfront with
    ⟨pre, post, hframes, rfl, -⟩ | ⟨pre, post, f, part, rest, hframes, rfl, hf, hsome, hmore, hback⟩
  · exact absurd ⟨pre, post, hframes, hend⟩ h
  generalize wires v.frames = sent at hauth hslice
  rw [hframes] at hdec hauth
  obtain ⟨s₁, text, hopen⟩ := decode_front hdec
  obtain ⟨k', hk', habsorb⟩ := NoiseTransport.absorbLoop_wires (k := (wires pre ++ part).length)
    (t := ⟨stream, v.session, [], 0⟩) part hopen (Nat.le_refl _)
  rw [he, NoiseTransport.absorb, habsorb]
  by_cases hhead : headerLen ≤ part.length
  · exact ⟨_, by rw [NoiseTransport.absorbLoop_truncated hf hmore hhead hk']; rfl⟩
  -- the start of a header is dropped, and what follows is out of step
  rw [NoiseTransport.absorbLoop_few (Nat.not_le.mp hhead), NoiseTransport.drive]
  rcases hpump : NoiseTransport.pumpAll P.toAead stream.flatten.length
    ⟨stream, s₁, [] ++ text, 0⟩ with ⟨t, - | e⟩
  · obtain ⟨others, text', hothers, hdec'⟩ :=
      NoiseTransport.pumpAll_none (t := ⟨stream, s₁, [] ++ text, 0⟩) hflow' (Nat.le_refl _) hpump
    simp only at hothers
    refine absurd ?_ (NoiseTransport.unforged_length (NoiseTransport.unforged_decode hauth hopen)
      (hothers ▸ hslice) hdec' (List.length_pos_iff.mpr hsome) (Nat.not_le.mp hhead))
    rw [← hothers, hback, wires_cons, ← hf]
    simp only [List.length_append]
    omega
  · exact ⟨e, rfl⟩

theorem drive_cases {s : List (List UInt8)} (hflow : Flowing s) (hbytes : s.flatten = v.bytes)
    (hfits : v.complete ≤ bufLen) (hauth : Unforged P.toAead (wires v.frames) v.session v.frames) :
    (v.Aligned s ∧ ∃ t,
        NoiseTransport.drive P.toAead (NoiseTransport.receive P handshake s) = .ok t ∧
          t.rx = v.text) ∨
      ¬ v.Aligned s ∧ ∃ e,
        NoiseTransport.drive P.toAead (NoiseTransport.receive P handshake s) = .error e := by
  by_cases h : v.Aligned s
  · exact .inl ⟨h, v.drive_aligned hflow hbytes hfits h⟩
  · exact .inr ⟨h, v.drive_not_aligned hflow hbytes hfits hauth h⟩

end ServerStream

/-! ### Two cuts of one stream -/

/-- Two runs both deliver the same text, or both fail. -/
def SameOutcome (a b : Except Error NoiseTransport) : Prop :=
  (∃ t u, a = .ok t ∧ b = .ok u ∧ t.rx = u.rx) ∨ (∃ e, a = .error e) ∧ ∃ e, b = .error e

theorem SameOutcome.rx_eq {a b : Except Error NoiseTransport} (h : SameOutcome a b) :
    a.toOption.map (·.rx) = b.toOption.map (·.rx) := by
  rcases h with ⟨t, u, rfl, rfl, h⟩ | ⟨⟨e, rfl⟩, ⟨e', rfl⟩⟩
  · exact congrArg some h
  · rfl

theorem connect_eq {P : Primitives} {host : String} {controlKey : MachinePublic}
    {machineKey ephemeral : MachinePrivate} {capabilityVersion : UInt16} {handshake : Handshake}
    {initiation : List UInt8}
    (hstart : Handshake.start P machineKey controlKey capabilityVersion ephemeral =
      .ok (handshake, initiation))
    (hrequest : (buildRequest host initiation maxRequestLen).isOk)
    (s : List (List UInt8)) :
    NoiseTransport.connect P (.ok ()) true host controlKey machineKey ephemeral capabilityVersion
      s = NoiseTransport.receive P handshake s := by
  rw [NoiseTransport.connect, hstart]
  rcases hr : buildRequest host initiation maxRequestLen with e | request
  · rw [hr] at hrequest
    cases hrequest
  · simp only [hr, if_true]

/-- **The cut decides.**  The request was sent and the server answers with a
valid stream, which comes in the segments `s` or in the segments `t`.  Reads
that complete the handshake at a record boundary lead to a run that delivers
all of the text.  Where no slice of what the server sent opens but the records
that it sealed, the two runs come to the same if and only if the handshake
overflows the buffer in both, or both reads end at a boundary, or both inside a
record. -/
theorem same_outcome_iff_aligned {P : Primitives} {host : String} {controlKey : MachinePublic}
    {machineKey ephemeral : MachinePrivate} {capabilityVersion : UInt16} {handshake : Handshake}
    {initiation : List UInt8}
    (hstart : Handshake.start P machineKey controlKey capabilityVersion ephemeral =
      .ok (handshake, initiation))
    (hrequest : (buildRequest host initiation maxRequestLen).isOk)
    (v : ServerStream P handshake) {s t : List (List UInt8)} (hs : Flowing s) (ht : Flowing t)
    (hsv : s.flatten = v.bytes) (htv : t.flatten = v.bytes) :
    let run := fun stream => NoiseTransport.drive P.toAead
      (NoiseTransport.connect P (.ok ()) true host controlKey machineKey ephemeral
        capabilityVersion stream)
    (v.complete ≤ bufLen → v.Aligned s → ∃ u, run s = .ok u ∧ u.rx = v.text) ∧
      (Unforged P.toAead (wires v.frames) v.session v.frames →
        (SameOutcome (run s) (run t) ↔ bufLen < v.complete ∨ (v.Aligned s ↔ v.Aligned t))) := by
  intro run
  have hrun : ∀ stream, run stream =
      NoiseTransport.drive P.toAead (NoiseTransport.receive P handshake stream) := by
    intro stream
    show NoiseTransport.drive _ (NoiseTransport.connect _ _ _ _ _ _ _ _ _) = _
    rw [connect_eq hstart hrequest]
  rw [hrun s, hrun t]
  refine ⟨fun hfits h => v.drive_aligned hs hsv hfits h, fun hauth => ?_⟩
  by_cases hlong : bufLen < v.complete
  · -- the handshake overflows the buffer in both runs
    obtain ⟨e, he⟩ := (v.receive_eq hs hsv).2 hlong
    obtain ⟨e', he'⟩ := (v.receive_eq ht htv).2 hlong
    refine ⟨fun _ => .inl hlong, fun _ => .inr ⟨⟨e, ?_⟩, ⟨e', ?_⟩⟩⟩
    · rw [he, NoiseTransport.drive]
    · rw [he', NoiseTransport.drive]
  have hfits := Nat.not_lt.mp hlong
  -- each run delivers everything or fails, as its read was aligned or not
  rcases v.drive_cases hs hsv hfits hauth with ⟨has, u, hu, hurx⟩ | ⟨has, e, he⟩
  · rcases v.drive_cases ht htv hfits hauth with ⟨hat, w, hw, hwrx⟩ | ⟨hat, e, he⟩
    · rw [hu, hw]
      simp [SameOutcome, has, hat, hurx, hwrx]
    · rw [hu, he]
      simp [SameOutcome, has, hat, hlong]
  · rcases v.drive_cases ht htv hfits hauth with ⟨hat, w, hw, -⟩ | ⟨hat, e', he'⟩
    · rw [he, hw]
      simp [SameOutcome, has, hat, hlong]
    · rw [he, he']
      simp [SameOutcome, has, hat]

/-- The handshake of a client with small keys. -/
def sampleHandshake : Handshake where
  state := ⟨0, 0⟩
  machineKey := ⟨Vector.replicate 32 2⟩
  ephemeral := ⟨Vector.replicate 32 3⟩

/-- Its initiation. -/
def sampleInitiation : List UInt8 :=
  [0, 145, 1, 0, 96] ++ List.replicate 32 86 ++ List.replicate 32 87 ++
    (List.replicate 8 [135, 71, 7, 199]).flatten

theorem sample_start :
    Handshake.start samplePrimitives ⟨Vector.replicate 32 2⟩ ⟨Vector.replicate 32 84⟩ 145
      ⟨Vector.replicate 32 3⟩ = .ok (sampleHandshake, sampleInitiation) := by
  decide +kernel

theorem sample_request : (buildRequest "a" sampleInitiation maxRequestLen).isOk := by
  decide +kernel

/-- The record of the text `[7]` that the server of that handshake seals under
a nonce. -/
def sampleRecord (nonce : UInt64) : Frame where
  kind := msgTypeRecord
  body := 7 :: (checksumAead.tagOf 0 (recordNonce nonce) [] [7]).toList
  fits := by simp

/-- The shortest headers, a response, and two records. -/
def sampleStream : ServerStream samplePrimitives sampleHandshake where
  headers := [65, 32, 49, 48, 49, 13, 10, 13, 10]
  response := [2, 0, 48] ++ List.replicate 32 81 ++ (List.replicate 4 [135, 71, 7, 199]).flatten
  frames := [sampleRecord 0, sampleRecord 1]
  session := ⟨0, 0, 0, 0, 0⟩
  text := [7, 7]
  upgrade := by decide +kernel
  noise := by decide +kernel
  records := ⟨⟨0, 0, 0, 2, 0⟩, by decide +kernel⟩

/-- The slices of a list, which are the fronts of its tails. -/
theorem mem_slices {body sent : List UInt8} (h : body <:+: sent) :
    body ∈ sent.tails.flatMap List.inits := by
  obtain ⟨before, after, rfl⟩ := h
  rw [List.append_assoc]
  exact List.mem_flatMap.mpr ⟨body ++ after, (List.mem_tails ..).mpr (List.suffix_append _ _),
    (List.mem_inits ..).mpr (List.prefix_append _ _)⟩

/-- What opens ends in the bytes of its checksum, each of which goes on from that
of the key and the nonce. -/
theorem checksum_readRecord {s : Noise.Session} {body : List UInt8}
    {r : Noise.Session × List UInt8} (h : s.readRecord checksumAead body = .ok r) :
    tagLen ≤ body.length ∧ ∀ i < tagLen, body[body.length - tagLen + i]? =
      some ((body.take (body.length - tagLen)).foldl (fun acc b => acc * 31 + b + .ofNat i)
        (checksumByte (s.rx.toList ++ (recordNonce s.rxNonce).toList) (.ofNat i))) := by
  unfold Noise.Session.readRecord at h
  split_ifs at h with hshort hnonce
  simp only at h
  split at h
  · cases h
  · rename_i plain hopen
    simp only [checksumAead] at hopen
    split_ifs at hopen with htag
    refine ⟨Nat.not_lt.mp hshort, fun i hi => ?_⟩
    have hlen : body.length - tagLen + 16 = body.length := by
      simp only [tagLen] at hshort ⊢
      omega
    have hdrop : body.drop (body.length - tagLen) =
        (checksumAead.tagOf s.rx (recordNonce s.rxNonce) []
          (body.take (body.length - tagLen))).toList := by
      rw [← htag, toList_read (Nat.le_of_eq hlen), slice, Nat.add_sub_cancel_left,
        List.take_of_length_le (by rw [List.length_drop]; omega)]
    have hbyte : (body.drop (body.length - tagLen))[i]? = some (checksumByte
        (s.rx.toList ++ (recordNonce s.rxNonce).toList ++ [] ++
          body.take (body.length - tagLen)) (.ofNat i)) := by
      rw [hdrop, checksumAead.tagOf, Vector.toList_ofFn, List.getElem?_ofFn]
      exact dif_pos hi
    rw [← List.getElem?_drop, hbyte, List.append_nil, checksumByte, List.foldl_append]
    rfl

/-- In those two records nothing opens but each under its own nonce.  The first byte
of a checksum and the last are enough to tell. -/
theorem sampleStream_unforged :
    Unforged checksumAead (wires sampleStream.frames) sampleStream.session
      sampleStream.frames := by
  -- a nonce, and those two bytes for the key and the nonce alone
  let seeds : List (ℕ × UInt8 × UInt8) := [(0, 135, 199), (1, 136, 200)]
  have hseeds : ∀ q ∈ seeds,
      checksumByte ((0 : Key).toList ++ (recordNonce (.ofNat q.1)).toList) (.ofNat 0) = q.2.1 ∧
        checksumByte ((0 : Key).toList ++ (recordNonce (.ofNat q.1)).toList) (.ofNat 15) = q.2.2 := by
    decide +kernel
  have hslices : ∀ q ∈ seeds, ∀ body ∈ (wires sampleStream.frames).tails.flatMap List.inits,
      tagLen ≤ body.length →
        body[body.length - tagLen + 0]? = some ((body.take (body.length - tagLen)).foldl
          (fun acc b => acc * 31 + b + .ofNat 0) q.2.1) →
        body[body.length - tagLen + 15]? = some ((body.take (body.length - tagLen)).foldl
          (fun acc b => acc * 31 + b + .ofNat 15) q.2.2) →
        body = (sampleRecord (.ofNat q.1)).body := by
    decide +kernel
  have hopens : ∀ q ∈ seeds, ∀ (s : Noise.Session) (body : List UInt8)
      (r : Noise.Session × List UInt8), s.rx = 0 → s.rxNonce = .ofNat q.1 →
      body <:+: wires sampleStream.frames → s.readRecord checksumAead body = .ok r →
        body = (sampleRecord (.ofNat q.1)).body := by
    intro q hq s body r hrx hnonce hslice h
    obtain ⟨hlong, htag⟩ := checksum_readRecord h
    have hfirst := htag 0 (by decide)
    have hlast := htag 15 (by decide)
    rw [hrx, hnonce, (hseeds q hq).1] at hfirst
    rw [hrx, hnonce, (hseeds q hq).2] at hlast
    exact hslices q hq body (mem_slices hslice) hlong hfirst hlast
  refine ⟨?_, ?_, trivial⟩
  · intro body s' text hslice h
    exact hopens (0, 135, 199) (by decide) _ body _ rfl rfl hslice h
  · intro body s' text hslice h
    exact hopens (1, 136, 200) (by decide) _ body _ rfl rfl hslice h

/-- The stream in two segments. -/
def cutAt (n : ℕ) : List (List UInt8) := [sampleStream.bytes.take n, sampleStream.bytes.drop n]

theorem flowing_cutAt : ∀ n ∈ [60, 62, 70, 80], Flowing (cutAt n) := by
  unfold Flowing
  decide +kernel

/-- That client's run on what it receives. -/
def sampleRun (segments : List (List UInt8)) : Except Error NoiseTransport :=
  NoiseTransport.drive checksumAead
    (NoiseTransport.connect samplePrimitives (.ok ()) true "a" ⟨Vector.replicate 32 84⟩
      ⟨Vector.replicate 32 2⟩ ⟨Vector.replicate 32 3⟩ 145 segments)

/-- The handshake ends at 60.  Cut there and cut at 80, behind the first record. -/
theorem same_outcome_iff_aligned_boundaries :
    checksumAead.Lawful ∧ SameOutcome (sampleRun (cutAt 60)) (sampleRun (cutAt 80)) := by
  have has : sampleStream.Aligned (cutAt 60) :=
    ⟨[], [sampleRecord 0, sampleRecord 1], rfl, by decide +kernel⟩
  have hat : sampleStream.Aligned (cutAt 80) :=
    ⟨[sampleRecord 0], [sampleRecord 1], rfl, by decide +kernel⟩
  refine ⟨checksumAead_lawful, ?_⟩
  exact ((same_outcome_iff_aligned sample_start sample_request sampleStream
    (flowing_cutAt 60 (by decide)) (flowing_cutAt 80 (by decide)) (by decide +kernel)
    (by decide +kernel)).2 sampleStream_unforged).mpr (.inr ⟨fun _ => hat, fun _ => has⟩)

/-- Cut inside a record, the stream is refused; cut inside a header, the
start of it is lost and the rest is not delivered; in one piece it is. -/
theorem coalesced_record_lost :
    Flowing [sampleStream.bytes] ∧ Flowing (cutAt 70) ∧ Flowing (cutAt 62) ∧
      (cutAt 70).flatten = sampleStream.bytes ∧ (cutAt 62).flatten = sampleStream.bytes ∧
      ¬ SameOutcome (sampleRun [sampleStream.bytes]) (sampleRun (cutAt 70)) ∧
      ¬ SameOutcome (sampleRun [sampleStream.bytes]) (sampleRun (cutAt 62)) := by
  have hwhole : (sampleRun [sampleStream.bytes]).toOption.map (·.rx) = some [7, 7] := by
    decide +kernel
  have hrecord : (sampleRun (cutAt 70)).toOption.map (·.rx) = none := by decide +kernel
  have hheader : (sampleRun (cutAt 62)).toOption.map (·.rx) = none := by decide +kernel
  refine ⟨by unfold Flowing; decide +kernel, flowing_cutAt 70 (by decide),
    flowing_cutAt 62 (by decide), by decide +kernel, by decide +kernel, ?_, ?_⟩
  · intro h
    have hrx := h.rx_eq
    rw [hwhole, hrecord] at hrx
    cases hrx
  · intro h
    have hrx := h.rx_eq
    rw [hwhole, hheader] at hrx
    cases hrx

end Lando.Host
