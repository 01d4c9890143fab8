/-
Lando/FwH2Conn.lean

The firmware's end of the record stream (`lando-fw/src/h2conn.rs`).

Ciphertext is staged in a buffer of 8192 bytes, `raw`, and decrypted into one
of 4096, `pending`, as far as that has room; a record that does not fit stays
staged.  The buffers are modelled by their used parts, so `pending_len` and
`raw_len` are lengths, and that no write leaves its buffer is part of what is
proved (`Fits`).

The stream behind a connection is a list of frames of which `raw` and the
socket hold the bytes still to be decrypted:

    conn.raw ++ socket.flatten = wires frames

`drainRecords` takes frames off the front of that list (`DrainSpec`), as
`Noise.decode` does with the firmware's rules, and stops for one of two
reasons: the next frame is not complete, or there is text waiting and the
next frame does not fit behind it.  From that everything else follows; in
particular, a pump without text waiting never finds the staging buffer full.
-/
import Lando.H2Frame
import Lando.Noise
import Lando.Socket

namespace Lando.Fw

open Bytes Noise Socket

/-- `H2Error`. -/
inductive H2Error
  | io
  | noise
  | frame
  | server
  | tooLarge
  deriving DecidableEq, Repr

/-- An HTTP/2 connection inside a Noise session: `pending` is decrypted text,
consumed up to `pendingPos`, and `raw` ciphertext that is not decrypted. -/
structure H2Conn where
  session : Noise.Session
  reader : H2.FrameReader
  nextStream : UInt32
  pending : List UInt8
  pendingPos : ℕ
  raw : List UInt8

namespace H2Conn

/-- The length of `pending`. -/
def pendingCap : ℕ := maxMessageSize

/-- The length of `raw`. -/
def rawCap : ℕ := 2 * maxMessageSize

/-- A connection around a fresh session. -/
def new (session : Noise.Session) : H2Conn where
  session := session
  reader := .new
  nextStream := 1
  pending := []
  pendingPos := 0
  raw := []

/-- The text that waits to be consumed. -/
def available (conn : H2Conn) : List UInt8 := conn.pending.drop conn.pendingPos

/-! ### Sending -/

/-- One record for each piece of a text. -/
def sendChunks (A : Aead) : Noise.Session → List (List UInt8) →
    Except H2Error (Noise.Session × List UInt8)
  | session, [] => .ok (session, [])
  | session, chunk :: chunks =>
      match session.writeRecord A chunk maxMessageSize with
      | .error _ => .error .noise
      | .ok (session, frame) =>
          match sendChunks A session chunks with
          | .error e => .error e
          | .ok (session, frames) => .ok (session, frame ++ frames)

/-- Encrypts and sends `plaintext`, splitting across records; the result is
what was written to the socket. -/
def send (A : Aead) (conn : H2Conn) (plaintext : List UInt8) :
    Except H2Error (H2Conn × List UInt8) :=
  match sendChunks A conn.session (chunks maxPlaintextSize plaintext) with
  | .error e => .error e
  | .ok (session, written) => .ok ({ conn with session := session }, written)

/-- Several messages, one after the other. -/
def sendAll (A : Aead) : H2Conn → List (List UInt8) → Except H2Error (H2Conn × List UInt8)
  | conn, [] => .ok (conn, [])
  | conn, msg :: msgs =>
      match conn.send A msg with
      | .error e => .error e
      | .ok (conn, written) =>
          match sendAll A conn msgs with
          | .error e => .error e
          | .ok (conn, more) => .ok (conn, written ++ more)

/-! ### Receiving -/

/-- The loop of `drain_records`, on what is left of `raw`.  A turn takes three
bytes at least, so as many turns as there are bytes are enough. -/
def drainLoop (A : Aead) : ℕ → H2Conn → List UInt8 → H2Conn × List UInt8 × Except H2Error Unit
  | 0, conn, rest => (conn, rest, .ok ())
  | k + 1, conn, rest =>
      if rest.length < headerLen then (conn, rest, .ok ())
      else
        let (kind, len) := parseHeader (rest.take headerLen)
        if maxCiphertextSize < len then (conn, rest, .error .tooLarge)
        -- wait for the rest of this record
        else if rest.length < headerLen + len then (conn, rest, .ok ())
        else if kind = msgTypeError then (conn, rest, .error .server)
        -- leave the record staged if its plaintext will not fit
        else if pendingCap < conn.pending.length + len then (conn, rest, .ok ())
        else
          match conn.session.readRecord A (slice rest headerLen (headerLen + len)) with
          | .error _ => (conn, rest, .error .noise)
          | .ok (session, text) =>
              drainLoop A k { conn with session := session, pending := conn.pending ++ text }
                (rest.drop (headerLen + len))

/-- Consumed text makes room. -/
def reclaim (conn : H2Conn) : H2Conn :=
  { conn with pending := conn.pending.drop conn.pendingPos, pendingPos := 0 }

/-- Decrypts every complete record in `raw`, leaving any partial tail.  On an
error `raw` stays as it is. -/
def drainRecords (A : Aead) (conn : H2Conn) : H2Conn × Except H2Error Unit :=
  let conn := conn.reclaim
  match drainLoop A conn.raw.length conn conn.raw with
  | (conn, rest, .ok ()) => ({ conn with raw := rest }, .ok ())
  | (conn, _, .error e) => (conn, .error e)

/-- Stages ciphertext already read from the socket. -/
def absorb (A : Aead) (conn : H2Conn) (bytes : List UInt8) : H2Conn × Except H2Error Unit :=
  if rawCap < conn.raw.length + bytes.length then (conn, .error .tooLarge)
  else drainRecords A { conn with raw := conn.raw ++ bytes }

/-- How a pump ended: with more text, with nothing more to read, or with an
error. -/
inductive Pumped
  | ready
  | waiting
  | failed (e : H2Error)
  deriving DecidableEq, Repr

/-- The loop of `pump`, which stops when more than `before` bytes of text are
there.  A turn reads a byte at least. -/
def pumpLoop (A : Aead) (before : ℕ) : ℕ → H2Conn → List (List UInt8) →
    H2Conn × List (List UInt8) × Pumped
  | 0, conn, socket => (conn, socket, .waiting)
  | k + 1, conn, socket =>
      if conn.raw.length = rawCap then (conn, socket, .failed .tooLarge)
      else
        match read (rawCap - conn.raw.length) socket with
        | none => (conn, socket, .waiting)
        | some ([], socket) => (conn, socket, .failed .io)
        | some (b :: bs, socket) =>
            match drainRecords A { conn with raw := conn.raw ++ b :: bs } with
            | (conn, .error e) => (conn, socket, .failed e)
            | (conn, .ok ()) =>
                if before < conn.available.length then (conn, socket, .ready)
                else pumpLoop A before k conn socket

/-- Reads from the socket until at least one more record is decrypted. -/
def pump (A : Aead) (conn : H2Conn) (socket : List (List UInt8)) :
    H2Conn × List (List UInt8) × Pumped :=
  let before := conn.available.length
  -- records may already be staged and simply blocked on room
  match drainRecords A conn with
  | (conn, .error e) => (conn, socket, .failed e)
  | (conn, .ok ()) =>
      if before < conn.available.length then (conn, socket, .ready)
      else pumpLoop A before (socket.flatten.length + 1) conn socket

/-- The consumer takes `n` bytes. -/
def consume (conn : H2Conn) (n : ℕ) : H2Conn := { conn with pendingPos := conn.pendingPos + n }

/-! ### Frames off the front -/

/-- What the firmware makes of a frame. -/
def accept (A : Aead) (s : Noise.Session) (f : Frame) :
    Except H2Error (Noise.Session × List UInt8) :=
  if maxCiphertextSize < f.body.length then .error .tooLarge
  else if f.kind = msgTypeError then .error .server
  else
    match s.readRecord A f.body with
    | .error _ => .error .noise
    | .ok res => .ok res

/-- Why draining stopped in front of the frames `post`, with `rest` of their
bytes at hand and `text` waiting. -/
inductive Stopped (text : List UInt8) (post : List Frame) (rest : List UInt8) : Prop
  /-- The next frame is not complete. -/
  | short (short : rest.length < maxMessageSize)
      (incomplete : ∀ f frames, post = f :: frames → rest.length < f.wire.length)
  /-- The next frame does not fit behind the text. -/
  | full (full : text ≠ [])

/-- What draining does to the text and the session, for the frames `frames`
of which `rest` are at hand and `more` are to come. -/
inductive DrainSpec (A : Aead) (conn : H2Conn) (frames : List Frame) (more : List UInt8) :
    H2Conn × List UInt8 × Except H2Error Unit → Prop
  | stop {pre post : List Frame} {session : Noise.Session} {text rest : List UInt8}
      (split : frames = pre ++ post)
      (opened : decode (accept A) conn.session pre = (session, text, none))
      (bytes : rest ++ more = wires post)
      (room : (conn.pending ++ text).length ≤ pendingCap)
      (why : Stopped (conn.pending ++ text) post rest) :
      DrainSpec A conn frames more
        ({ conn with session := session, pending := conn.pending ++ text }, rest, .ok ())
  | fail {pre post : List Frame} {f : Frame} {session : Noise.Session} {text rest : List UInt8}
      {e : H2Error} (split : frames = pre ++ f :: post)
      (opened : decode (accept A) conn.session pre = (session, text, none))
      (rejected : accept A session f = .error e)
      (room : (conn.pending ++ text).length ≤ pendingCap) :
      DrainSpec A conn frames more
        ({ conn with session := session, pending := conn.pending ++ text }, rest, .error e)

/-- A frame in front of the others. -/
theorem DrainSpec.cons {A : Aead} {conn : H2Conn} {f : Frame} {frames : List Frame}
    {more text : List UInt8} {s : Noise.Session}
    {res : H2Conn × List UInt8 × Except H2Error Unit}
    (hf : accept A conn.session f = .ok (s, text))
    (h : DrainSpec A { conn with session := s, pending := conn.pending ++ text } frames more res) :
    DrainSpec A conn (f :: frames) more res := by
  have hopen : ∀ {pre : List Frame} {s' : Noise.Session} {t : List UInt8},
      decode (accept A) s pre = (s', t, none) →
        decode (accept A) conn.session (f :: pre) = (s', text ++ t, none) := by
    intro pre s' t ht
    rw [decode_cons_ok hf, ht]
  cases h with
  | @stop pre post session t rest split opened bytes room why =>
    simp only [List.append_assoc] at room why ⊢
    exact .stop (by rw [split]; rfl) (hopen opened) bytes room why
  | @fail pre post g session t rest e split opened rejected room =>
    simp only [List.append_assoc] at room ⊢
    exact .fail (by rw [split]; rfl) (hopen opened) rejected room

/-- Draining at the stop. -/
theorem DrainSpec.nil {A : Aead} {conn : H2Conn} {frames : List Frame} {more rest : List UInt8}
    (hbytes : rest ++ more = wires frames) (hroom : conn.pending.length ≤ pendingCap)
    (why : Stopped conn.pending frames rest) : DrainSpec A conn frames more (conn, rest, .ok ()) := by
  have hnil : conn.pending ++ [] = conn.pending := List.append_nil _
  have h : DrainSpec A conn frames more
      ({ conn with session := conn.session, pending := conn.pending ++ [] }, rest, .ok ()) :=
    .stop (List.nil_append frames).symm rfl hbytes (by rw [hnil]; exact hroom)
      (by rw [hnil]; exact why)
  rwa [hnil] at h

/-- Draining at a frame that is rejected. -/
theorem DrainSpec.reject {A : Aead} {conn : H2Conn} {f : Frame} {frames : List Frame}
    {more rest : List UInt8} {e : H2Error} (hf : accept A conn.session f = .error e)
    (hroom : conn.pending.length ≤ pendingCap) :
    DrainSpec A conn (f :: frames) more (conn, rest, .error e) := by
  have hnil : conn.pending ++ [] = conn.pending := List.append_nil _
  have h : DrainSpec A conn (f :: frames) more
      ({ conn with session := conn.session, pending := conn.pending ++ [] }, rest, .error e) :=
    .fail (List.nil_append (f :: frames)).symm rfl hf (by rw [hnil]; exact hroom)
  rwa [hnil] at h

/-- With less than a header at hand, the next frame is not complete. -/
theorem Stopped.few {text rest : List UInt8} (post : List Frame) (h : rest.length < headerLen) :
    Stopped text post rest := by
  refine .short (Nat.lt_of_lt_of_le h (by decide)) ?_
  intro f frames _
  exact Nat.lt_of_lt_of_le h (length_wire_ge f)

/-- **Draining takes frames off the front.** -/
theorem drainLoop_spec {A : Aead} {k : ℕ} {conn : H2Conn} {rest more : List UInt8}
    {frames : List Frame} (hk : rest.length ≤ k) (hbytes : rest ++ more = wires frames)
    (hroom : conn.pending.length ≤ pendingCap) :
    DrainSpec A conn frames more (drainLoop A k conn rest) := by
  induction k generalizing conn rest frames with
  | zero =>
    rw [drainLoop]
    exact .nil hbytes hroom (.few frames (Nat.lt_of_le_of_lt hk (by decide)))
  | succ k ih =>
    rw [drainLoop]
    by_cases hheader : rest.length < headerLen
    · rw [if_pos hheader]
      exact .nil hbytes hroom (.few frames hheader)
    rw [if_neg hheader]
    cases frames with
    | nil =>
      have hnil := (List.append_eq_nil_iff.mp hbytes).1
      rw [hnil] at hheader
      exact absurd (show [].length < headerLen by decide) hheader
    | cons f frames =>
      have hhead : rest.take headerLen = f.head := by
        have h := congrArg (List.take headerLen) hbytes
        rwa [List.take_append_of_le_length (by omega), wires_cons, f.take_wire] at h
      rw [hhead, f.parseHeader_head]
      simp only
      by_cases hlong : maxCiphertextSize < f.body.length
      · rw [if_pos hlong]
        exact .reject (if_pos hlong) hroom
      have hcap : headerLen + f.body.length ≤ maxMessageSize := by
        simp only [maxCiphertextSize, maxMessageSize, headerLen] at hlong ⊢
        omega
      rw [if_neg hlong]
      by_cases hpart : rest.length < headerLen + f.body.length
      · rw [if_pos hpart]
        refine .nil hbytes hroom (.short (by omega) ?_)
        rintro g gs he
        obtain ⟨rfl, rfl⟩ := List.cons.inj he
        rw [f.length_wire]
        exact hpart
      rw [if_neg hpart]
      obtain ⟨rest', rfl, hbytes'⟩ := eq_wire_append hbytes (by rw [f.length_wire]; omega)
      by_cases herror : f.kind = msgTypeError
      · rw [if_pos herror]
        refine .reject ?_ hroom
        rw [accept, if_neg hlong, if_pos herror]
      rw [if_neg herror]
      by_cases hfull : pendingCap < conn.pending.length + f.body.length
      · rw [if_pos hfull]
        refine .nil hbytes hroom (.full ?_)
        -- a frame fits into an empty buffer
        rintro hnil
        rw [hnil, List.length_nil] at hfull
        simp only [pendingCap, headerLen] at hfull hcap
        omega
      rw [if_neg hfull]
      have hbody : slice (f.wire ++ rest') headerLen (headerLen + f.body.length) = f.body := by
        rw [Frame.wire, List.append_assoc]
        exact slice_append_mid f.length_head.symm rfl
      have hdrop : (f.wire ++ rest').drop (headerLen + f.body.length) = rest' := by
        rw [← f.length_wire, List.drop_left]
      rw [hbody, hdrop]
      rcases hread : conn.session.readRecord A f.body with e | ⟨s, text⟩
      · refine .reject ?_ hroom
        rw [accept, if_neg hlong, if_neg herror, hread]
      · have haccept : accept A conn.session f = .ok (s, text) := by
          rw [accept, if_neg hlong, if_neg herror, hread]
        have htext := (Session.readRecord_ok hread).2
        refine .cons haccept (ih ?_ hbytes' ?_)
        · rw [List.length_append, f.length_wire] at hk
          simp only [headerLen] at hk
          omega
        · rw [List.length_append]
          omega

/-! ### The buffers -/

/-- The used parts lie within their buffers. -/
structure Fits (conn : H2Conn) : Prop where
  pos_le : conn.pendingPos ≤ conn.pending.length
  pending_le : conn.pending.length ≤ pendingCap
  raw_le : conn.raw.length ≤ rawCap

theorem Fits.new (session : Noise.Session) : (H2Conn.new session).Fits :=
  ⟨Nat.le_refl 0, Nat.zero_le _, Nat.zero_le _⟩

/-- `conn'` is `conn` after the frames `pre`, which gave `text`. -/
structure Advanced (A : Aead) (conn conn' : H2Conn) (pre : List Frame) (text : List UInt8) :
    Prop where
  opened : decode (accept A) conn.session pre = (conn'.session, text, none)
  available : conn'.available = conn.available ++ text
  reader : conn'.reader = conn.reader
  nextStream : conn'.nextStream = conn.nextStream
  fits : conn'.Fits

theorem Advanced.refl (A : Aead) {conn : H2Conn} (h : conn.Fits) : Advanced A conn conn [] [] :=
  ⟨rfl, (List.append_nil _).symm, rfl, rfl, h⟩

theorem Advanced.trans {A : Aead} {c₁ c₂ c₃ : H2Conn} {pre post : List Frame}
    {text more : List UInt8} (h : Advanced A c₁ c₂ pre text) (h' : Advanced A c₂ c₃ post more) :
    Advanced A c₁ c₃ (pre ++ post) (text ++ more) where
  opened := by rw [decode_append h.opened, h'.opened]
  available := by rw [h'.available, h.available, List.append_assoc]
  reader := h'.reader.trans h.reader
  nextStream := h'.nextStream.trans h.nextStream
  fits := h'.fits

/-- Text in front of a stop. -/
theorem drainRecords_spec (A : Aead) {conn : H2Conn} {more : List UInt8} {frames : List Frame}
    (hfits : conn.Fits) (hbytes : conn.raw ++ more = wires frames) :
    (∃ conn' pre post text, drainRecords A conn = (conn', .ok ()) ∧ frames = pre ++ post ∧
        Advanced A conn conn' pre text ∧ conn'.raw ++ more = wires post ∧
        Stopped conn'.available post conn'.raw) ∨
      ∃ conn' pre f post text e, drainRecords A conn = (conn', .error e) ∧
        frames = pre ++ f :: post ∧ Advanced A conn conn' pre text ∧
        accept A conn'.session f = .error e := by
  have hroom : conn.reclaim.pending.length ≤ pendingCap := by
    show (conn.pending.drop conn.pendingPos).length ≤ pendingCap
    have := hfits.pending_le
    rw [List.length_drop]
    omega
  have hspec := drainLoop_spec (A := A) (Nat.le_refl conn.raw.length) hbytes hroom
  unfold drainRecords
  simp only
  have hraw : conn.reclaim.raw = conn.raw := rfl
  rw [hraw]
  rcases hres : drainLoop A conn.raw.length conn.reclaim conn.raw with ⟨conn', rest, out⟩
  rw [hres] at hspec
  cases hspec with
  | @stop pre post session text rest split opened bytes room why =>
    refine .inl ⟨_, pre, post, text, rfl, split, ⟨opened, ?_, rfl, rfl, ⟨?_, ?_, ?_⟩⟩, bytes, why⟩
    · rfl
    · exact Nat.zero_le _
    · exact room
    · show rest.length ≤ rawCap
      -- what is staged is shorter than it was
      have hlen : rest.length + more.length = (wires post).length := by
        rw [← bytes, List.length_append]
      have hlen' : conn.raw.length + more.length = (wires pre).length + (wires post).length := by
        rw [← List.length_append, hbytes, split, wires_append, List.length_append]
      have := hfits.raw_le
      omega
  | @fail pre post f session text rest e split opened rejected room =>
    refine .inr ⟨_, pre, f, post, text, e, rfl, split, ⟨opened, ?_, rfl, rfl, ⟨?_, ?_, ?_⟩⟩,
      rejected⟩
    · rfl
    · exact Nat.zero_le _
    · exact room
    · exact hfits.raw_le

/-! ### Pumping -/

/-- What a pump does, in front of the frames `frames`. -/
inductive PumpSpec (A : Aead) (conn : H2Conn) (frames : List Frame) :
    H2Conn × List (List UInt8) × Pumped → Prop
  | ready {conn' : H2Conn} {pre post : List Frame} {text : List UInt8}
      {socket : List (List UInt8)} (split : frames = pre ++ post)
      (advanced : Advanced A conn conn' pre text) (some : text ≠ [])
      (bytes : conn'.raw ++ socket.flatten = wires post) (flow : Flowing socket) :
      PumpSpec A conn frames (conn', socket, .ready)
  /-- Everything that was sent is read. -/
  | waiting {conn' : H2Conn} {pre post : List Frame} (split : frames = pre ++ post)
      (advanced : Advanced A conn conn' pre []) (bytes : conn'.raw = wires post)
      (why : Stopped conn'.available post conn'.raw) : PumpSpec A conn frames (conn', [], .waiting)
  | rejected {conn' : H2Conn} {pre post : List Frame} {f : Frame} {text : List UInt8}
      {socket : List (List UInt8)} {e : H2Error} (split : frames = pre ++ f :: post)
      (advanced : Advanced A conn conn' pre text) (rejected : accept A conn'.session f = .error e) :
      PumpSpec A conn frames (conn', socket, .failed e)
  /-- The staging buffer is full of frames that do not fit behind the text. -/
  | full {conn' : H2Conn} {pre post : List Frame} {socket : List (List UInt8)}
      (split : frames = pre ++ post) (advanced : Advanced A conn conn' pre [])
      (text : conn.available ≠ []) : PumpSpec A conn frames (conn', socket, .failed .tooLarge)

/-- The bytes read are staged; neither the session nor the text changes. -/
theorem Advanced.stage {A : Aead} {conn conn' : H2Conn} {pre : List Frame}
    {text bytes : List UInt8} (h : Advanced A { conn with raw := conn.raw ++ bytes } conn' pre text) :
    Advanced A conn conn' pre text :=
  ⟨h.opened, h.available, h.reader, h.nextStream, h.fits⟩

theorem pumpLoop_spec {A : Aead} {k : ℕ} {conn c : H2Conn} {socket : List (List UInt8)}
    {pre post : List Frame} (hadv : Advanced A conn c pre []) (hflow : Flowing socket)
    (hbytes : c.raw ++ socket.flatten = wires post) (hwhy : Stopped c.available post c.raw)
    (hk : socket.flatten.length < k) :
    PumpSpec A conn (pre ++ post) (pumpLoop A conn.available.length k c socket) := by
  induction k generalizing c socket pre post with
  | zero => omega
  | succ k ih =>
    have havail : c.available = conn.available := by rw [hadv.available, List.append_nil]
    rw [pumpLoop]
    by_cases hfull : c.raw.length = rawCap
    · rw [if_pos hfull]
      refine .full rfl hadv ?_
      cases hwhy with
      | short short =>
        rw [hfull] at short
        exact absurd short (by decide)
      | full full => rwa [havail] at full
    rw [if_neg hfull]
    have hraw := hadv.fits.raw_le
    -- every turn reads a byte at least, which is what `k` counts
    rcases hread : read (rawCap - c.raw.length) socket with - | ⟨bytes, socket'⟩
    · obtain rfl := read_none hread
      rw [List.flatten_nil, List.append_nil] at hbytes
      exact .waiting rfl hadv hbytes hwhy
    obtain ⟨hsplit, hroom, hsome, hflow'⟩ := read_spec hflow hread
    cases bytes with
    | nil => exact absurd rfl (hsome (by omega))
    | cons b bs =>
      have hfits : H2Conn.Fits { c with raw := c.raw ++ b :: bs } := by
        refine ⟨hadv.fits.pos_le, hadv.fits.pending_le, ?_⟩
        show (c.raw ++ b :: bs).length ≤ rawCap
        rw [List.length_append]
        omega
      have hbytes' : c.raw ++ b :: bs ++ socket'.flatten = wires post := by
        rw [← hbytes, ← hsplit, List.append_assoc]
      have hk' : socket'.flatten.length < k := by
        have hlen := congrArg List.length hsplit
        rw [List.length_append, List.length_cons] at hlen
        omega
      simp only
      rcases drainRecords_spec A hfits hbytes' with
        ⟨c', pre', post', text, he, rfl, hadv', hrest, hwhy'⟩ |
        ⟨c', pre', f, post', text, e, he, rfl, hadv', hrej⟩
      · have hadv'' := hadv.trans hadv'.stage
        rw [he]
        simp only
        rw [← List.append_assoc]
        -- new text ends the loop
        by_cases hmore : conn.available.length < c'.available.length
        · rw [if_pos hmore]
          refine .ready rfl hadv'' ?_ hrest hflow'
          intro hnil
          rw [hadv''.available, hnil, List.append_nil] at hmore
          omega
        · rw [if_neg hmore]
          obtain rfl : text = [] := by
            rw [hadv''.available, List.nil_append, List.length_append] at hmore
            exact List.length_eq_zero_iff.mp (by omega)
          exact ih hadv'' hflow' hrest hwhy' hk'
      · rw [he]
        simp only
        exact .rejected (List.append_assoc pre pre' _).symm (hadv.trans hadv'.stage) hrej

/-- **Pumping takes frames off the front**, until there is more text or
nothing more to read. -/
theorem pump_spec {A : Aead} {conn : H2Conn} {socket : List (List UInt8)} {frames : List Frame}
    (hfits : conn.Fits) (hflow : Flowing socket)
    (hbytes : conn.raw ++ socket.flatten = wires frames) :
    PumpSpec A conn frames (conn.pump A socket) := by
  unfold pump
  simp only
  rcases drainRecords_spec A hfits hbytes with
    ⟨c, pre, post, text, he, rfl, hadv, hrest, hwhy⟩ | ⟨c, pre, f, post, text, e, he, rfl, hadv, hrej⟩
  · rw [he]
    simp only
    by_cases hmore : conn.available.length < c.available.length
    · rw [if_pos hmore]
      refine .ready rfl hadv ?_ hrest hflow
      intro hnil
      rw [hadv.available, hnil, List.append_nil] at hmore
      omega
    · rw [if_neg hmore]
      obtain rfl : text = [] := by
        rw [hadv.available, List.length_append] at hmore
        exact List.length_eq_zero_iff.mp (by omega)
      exact pumpLoop_spec hadv hflow hrest hwhy (Nat.lt_succ_self _)
  · rw [he]
    exact .rejected rfl hadv hrej

/-! ### From a sender -/

/-- A record of the other end is accepted. -/
theorem accept_record {A : Aead} {s : Noise.Session} {f : Frame}
    {res : Noise.Session × List UInt8} (hkind : f.kind = msgTypeRecord)
    (hlen : f.body.length ≤ maxCiphertextSize) (h : s.readRecord A f.body = .ok res) :
    accept A s f = .ok res := by
  rw [accept, if_neg (Nat.not_lt.mpr hlen), if_neg (by rw [hkind]; decide), h]

/-- What a sender writes, the other end reads. -/
theorem sendChunks_decode {A : Aead} (hA : A.Lawful) {s s' r : Noise.Session}
    {cs : List (List UInt8)} {written : List UInt8} (h : sendChunks A s cs = .ok (s', written))
    (hkey : r.rx = s.tx) (hnonce : r.rxNonce = s.txNonce) :
    ∃ frames r', written = wires frames ∧
      decode (accept A) r frames = (r', cs.flatten, none) ∧ r'.rx = s'.tx ∧
      r'.rxNonce = s'.txNonce := by
  induction cs generalizing s r written with
  | nil =>
    obtain ⟨rfl, rfl⟩ := Prod.mk.inj (Except.ok.inj h)
    exact ⟨[], r, rfl, rfl, hkey, hnonce⟩
  | cons chunk cs ih =>
    rw [sendChunks] at h
    rcases hw : s.writeRecord A chunk maxMessageSize with e | ⟨s₁, frame⟩
    · rw [hw] at h
      cases h
    rw [hw] at h
    simp only at h
    rcases hs : sendChunks A s₁ cs with e | ⟨s₂, more⟩
    · rw [hs] at h
      cases h
    rw [hs] at h
    obtain ⟨rfl, rfl⟩ := Prod.mk.inj (Except.ok.inj h)
    obtain ⟨rfl, f, hkind, hcap, rfl, hread⟩ := Session.writeRecord_ok hA hw
    have hf := accept_record hkind hcap (hread r hkey hnonce)
    obtain ⟨frames, r', rfl, hdec, hkey', hnonce'⟩ :=
      ih (r := { r with rxNonce := r.rxNonce + 1 }) hs hkey (by simp only [hnonce])
    refine ⟨f :: frames, r', rfl, ?_, hkey', hnonce'⟩
    rw [decode_cons_ok hf, hdec]
    rfl

theorem sendAll_decode {A : Aead} (hA : A.Lawful) {conn conn' : H2Conn} {r : Noise.Session}
    {messages : List (List UInt8)} {written : List UInt8}
    (h : conn.sendAll A messages = .ok (conn', written)) (hkey : r.rx = conn.session.tx)
    (hnonce : r.rxNonce = conn.session.txNonce) :
    ∃ frames r', written = wires frames ∧
      decode (accept A) r frames = (r', messages.flatten, none) := by
  induction messages generalizing conn r written with
  | nil =>
    obtain ⟨rfl, rfl⟩ := Prod.mk.inj (Except.ok.inj h)
    exact ⟨[], r, rfl, rfl⟩
  | cons msg messages ih =>
    rw [sendAll, send] at h
    rcases hs : sendChunks A conn.session (chunks maxPlaintextSize msg) with e | ⟨s₁, bytes⟩
    · rw [hs] at h
      cases h
    rw [hs] at h
    simp only at h
    rcases hm : sendAll A { conn with session := s₁ } messages with e | ⟨conn₂, more⟩
    · rw [hm] at h
      cases h
    rw [hm] at h
    obtain ⟨rfl, rfl⟩ := Prod.mk.inj (Except.ok.inj h)
    obtain ⟨frames, r₁, rfl, hdec, hkey', hnonce'⟩ := sendChunks_decode hA hs hkey hnonce
    obtain ⟨frames', r₂, rfl, hdec'⟩ := ih hm hkey' hnonce'
    refine ⟨frames ++ frames', r₂, (wires_append _ _).symm, ?_⟩
    rw [decode_append hdec, hdec', flatten_chunks (by decide), List.flatten_cons]

/-- Sending works as long as there are nonces. -/
theorem sendChunks_ok {A : Aead} (hA : A.Lawful) {s : Noise.Session} {cs : List (List UInt8)}
    (hlen : ∀ c ∈ cs, c.length ≤ maxPlaintextSize) (hnonce : s.txNonce.toNat + cs.length < 2 ^ 64) :
    ∃ s' written, sendChunks A s cs = .ok (s', written) ∧
      s'.txNonce.toNat = s.txNonce.toNat + cs.length := by
  induction cs generalizing s with
  | nil => exact ⟨s, [], rfl, rfl⟩
  | cons chunk cs ih =>
    rw [List.length_cons] at hnonce
    obtain ⟨out, hw, hnext⟩ :=
      Session.writeRecord_of_room hA (hlen chunk List.mem_cons_self) (s := s) (by omega)
    obtain ⟨s', written, hs, hcount⟩ := ih (s := { s with txNonce := s.txNonce + 1 })
      (fun c hc => hlen c (List.mem_cons_of_mem _ hc)) (by rw [hnext]; omega)
    refine ⟨s', out ++ written, ?_, ?_⟩
    · rw [sendChunks, hw]
      simp only [hs]
    · rw [hcount, hnext, List.length_cons]
      omega

/-! ### Runs of a receiver -/

/-- A connection, what the socket has still to deliver, and what the consumer
took so far. -/
structure Reception where
  conn : H2Conn
  socket : List (List UInt8)
  consumed : List UInt8

/-- The states that a consumer can bring about: it takes text that is there,
and pumps; a pump that fails ends the run. -/
inductive Reached (A : Aead) (start : Reception) : Reception → Prop
  | start : Reached A start start
  | consume {r : Reception} (before : Reached A start r) {n : ℕ}
      (le : n ≤ r.conn.available.length) :
      Reached A start ⟨r.conn.consume n, r.socket, r.consumed ++ r.conn.available.take n⟩
  | pump {r : Reception} (before : Reached A start r) {conn : H2Conn}
      {socket : List (List UInt8)} {out : Pumped} (eq : r.conn.pump A r.socket = (conn, socket, out))
      (ok : ∀ e, out ≠ .failed e) : Reached A start ⟨conn, socket, r.consumed⟩

/-- In step with a sender of `plaintext`: what is consumed, what waits and
what the rest of the stream decrypts to make up the text. -/
structure InStep (A : Aead) (plaintext : List UInt8) (r : Reception) (frames : List Frame)
    (rest : List UInt8) : Prop where
  fits : r.conn.Fits
  flow : Flowing r.socket
  bytes : r.conn.raw ++ r.socket.flatten = wires frames
  opens : ∃ s, decode (accept A) r.conn.session frames = (s, rest, none)
  text : r.consumed ++ (r.conn.available ++ rest) = plaintext

theorem available_consume (conn : H2Conn) (n : ℕ) :
    (conn.consume n).available = conn.available.drop n := by
  show conn.pending.drop (conn.pendingPos + n) = (conn.pending.drop conn.pendingPos).drop n
  rw [List.drop_drop]

theorem Fits.consume {conn : H2Conn} (h : conn.Fits) {n : ℕ} (hn : n ≤ conn.available.length) :
    (conn.consume n).Fits := by
  refine ⟨?_, h.pending_le, h.raw_le⟩
  have := h.pos_le
  rw [available, List.length_drop] at hn
  show conn.pendingPos + n ≤ conn.pending.length
  omega

/-- Frames taken off the front keep in step. -/
theorem InStep.advance {A : Aead} {plaintext rest text : List UInt8} {r : Reception}
    {pre post : List Frame} {conn : H2Conn} {socket : List (List UInt8)}
    (h : InStep A plaintext r (pre ++ post) rest) (hadv : Advanced A r.conn conn pre text)
    (hbytes : conn.raw ++ socket.flatten = wires post) (hflow : Flowing socket) :
    ∃ rest', InStep A plaintext ⟨conn, socket, r.consumed⟩ post rest' ∧ rest = text ++ rest' := by
  obtain ⟨s, hs⟩ := h.opens
  obtain ⟨rest', hrest', rfl⟩ := decode_rest hadv.opened hs
  refine ⟨rest', ⟨hadv.fits, hflow, hbytes, ⟨s, hrest'⟩, ?_⟩, rfl⟩
  show r.consumed ++ (conn.available ++ rest') = plaintext
  rw [hadv.available, List.append_assoc, h.text]

theorem InStep.step {A : Aead} {plaintext : List UInt8} {start r : Reception}
    {frames : List Frame} {rest : List UInt8} (h : InStep A plaintext start frames rest)
    (hr : Reached A start r) : ∃ frames rest, InStep A plaintext r frames rest := by
  induction hr with
  | start => exact ⟨frames, rest, h⟩
  | @consume r before n le ih =>
    obtain ⟨frames, rest, ih⟩ := ih
    refine ⟨frames, rest, ih.fits.consume le, ih.flow, ih.bytes, ih.opens, ?_⟩
    show r.consumed ++ r.conn.available.take n ++ ((r.conn.consume n).available ++ rest) = plaintext
    rw [available_consume, List.append_assoc, ← List.append_assoc (r.conn.available.take n),
      List.take_append_drop, ih.text]
  | @pump r before conn socket out eq ok ih =>
    obtain ⟨frames, rest, ih⟩ := ih
    have hspec := pump_spec (A := A) ih.fits ih.flow ih.bytes
    rw [eq] at hspec
    cases hspec with
    | @ready _ pre post text _ split advanced some bytes flow =>
      subst split
      obtain ⟨rest', hstep, -⟩ := ih.advance advanced bytes flow
      exact ⟨post, rest', hstep⟩
    | @waiting _ pre post split advanced bytes why =>
      subst split
      have hbytes : conn.raw ++ ([] : List (List UInt8)).flatten = wires post := by
        rw [bytes, List.flatten_nil, List.append_nil]
      obtain ⟨rest', hstep, -⟩ := ih.advance advanced hbytes nofun
      exact ⟨post, rest', hstep⟩
    | rejected => exact absurd rfl (ok _)
    | full => exact absurd rfl (ok _)

/-- Without text waiting, draining stops only where a frame is missing. -/
theorem Stopped.eq_nil {post : List Frame} {rest : List UInt8} (h : Stopped [] post rest)
    (hrest : rest = wires post) : post = [] := by
  cases h with
  | full full => exact absurd rfl full
  | short short incomplete =>
    cases post with
    | nil => rfl
    | cons f frames =>
      have hlt := incomplete f frames rfl
      rw [hrest, wires_cons, List.length_append] at hlt
      omega

/-- What a pump of a connection that is in step comes to. -/
def Pumps (plaintext : List UInt8) (r : Reception) : H2Conn × List (List UInt8) × Pumped → Prop
  | (conn, _, .ready) => r.conn.available.length < conn.available.length
  | (_, _, .waiting) => r.conn.available = [] → r.consumed = plaintext
  | (_, _, .failed e) => e = .tooLarge ∧ r.conn.available ≠ []

theorem InStep.pumps {A : Aead} {plaintext rest : List UInt8} {r : Reception}
    {frames : List Frame} (h : InStep A plaintext r frames rest) :
    Pumps plaintext r (r.conn.pump A r.socket) := by
  have hspec := pump_spec (A := A) h.fits h.flow h.bytes
  generalize r.conn.pump A r.socket = res at hspec
  cases hspec with
  | @ready conn pre post text socket split advanced some bytes flow =>
    show r.conn.available.length < conn.available.length
    have hpos := List.length_pos_iff.mpr some
    rw [advanced.available, List.length_append]
    omega
  | @waiting conn pre post split advanced bytes why =>
    intro hnil
    subst split
    have havail : conn.available = [] := by rw [advanced.available, hnil, List.append_nil]
    rw [havail] at why
    obtain rfl := why.eq_nil bytes
    -- nothing is staged, nothing waits and nothing is left to decrypt
    obtain ⟨s, hs⟩ := h.opens
    rw [List.append_nil, advanced.opened] at hs
    obtain rfl : rest = [] := by
      have := (Prod.mk.inj (Prod.mk.inj hs).2).1
      exact this.symm
    have htext := h.text
    rwa [hnil, List.append_nil, List.append_nil] at htext
  | rejected split advanced rejected =>
    subst split
    obtain ⟨s, hs⟩ := h.opens
    exact absurd hs (decode_ne_none advanced.opened rejected)
  | full split advanced text => exact ⟨rfl, text⟩

/-- **The receive path is exact.**  Whatever a sender with the mirrored
session sends, however the bytes are cut into a leftover of the handshake and
reads of the socket, and however the consumer takes the text: what it has
taken, what waits for it and what is to come make up the text that was sent,
the used parts stay within their buffers, and no pump fails to decrypt.  A
pump hands over more text or has read everything there is, and with nothing
waiting that is everything that was sent; it fails only for text that is not
taken. -/
theorem reception_exact {A : Aead} (hA : A.Lawful) {tx tx' : H2Conn} {session : Noise.Session}
    (hmirror : tx.session.Mirrored session) {messages : List (List UInt8)} {sent : List UInt8}
    (hsent : tx.sendAll A messages = .ok (tx', sent)) {leftover : List UInt8}
    {segments : List (List UInt8)} (hcut : leftover ++ segments.flatten = sent)
    (hleftover : leftover.length ≤ 512) (hflow : Flowing segments) :
    ∃ conn, (H2Conn.new session).absorb A leftover = (conn, .ok ()) ∧
      ∀ r, Reached A ⟨conn, segments, []⟩ r →
        r.conn.Fits ∧ (∃ rest, r.consumed ++ (r.conn.available ++ rest) = messages.flatten) ∧
          Pumps messages.flatten r (r.conn.pump A r.socket) := by
  obtain ⟨frames, s, rfl, hdec⟩ := sendAll_decode hA hsent hmirror.tx.symm hmirror.txNonce.symm
  have hstaged : H2Conn.Fits { H2Conn.new session with raw := [] ++ leftover } :=
    ⟨Nat.zero_le _, Nat.zero_le _, Nat.le_trans hleftover (by decide)⟩
  have habsorb : (H2Conn.new session).absorb A leftover =
      drainRecords A { H2Conn.new session with raw := [] ++ leftover } := by
    refine if_neg ?_
    show ¬ rawCap < 0 + leftover.length
    have : 512 ≤ rawCap := by decide
    omega
  rw [habsorb]
  rcases drainRecords_spec A hstaged hcut with
    ⟨conn, pre, post, text, he, rfl, hadv, hrest, -⟩ |
    ⟨conn, pre, f, post, text, e, he, rfl, hadv, hrej⟩
  · refine ⟨conn, he, ?_⟩
    obtain ⟨rest, hpost, htext⟩ := decode_rest hadv.opened hdec
    have hstart : InStep A messages.flatten ⟨conn, segments, []⟩ post rest := by
      refine ⟨hadv.fits, hflow, hrest, ⟨s, hpost⟩, ?_⟩
      show [] ++ (conn.available ++ rest) = messages.flatten
      rw [hadv.available, htext]
      rfl
    intro r hr
    obtain ⟨frames, rest', hstep⟩ := hstart.step hr
    exact ⟨hstep.fits, ⟨rest', hstep.text⟩, hstep.pumps⟩
  · exact absurd hdec (decode_ne_none hadv.opened hrej)

/-- One message, read byte by byte. -/
theorem reception_exact_byte_by_byte :
    let key (n : UInt8) : Key := Vector.replicate 32 n
    let tx := H2Conn.new ⟨key 1, key 2, 0, 0, key 3⟩
    let session : Noise.Session := ⟨key 2, key 1, 0, 0, key 3⟩
    ∃ tx' sent, checksumAead.Lawful ∧ tx.session.Mirrored session ∧
      tx.sendAll checksumAead [[1, 2, 3]] = .ok (tx', sent) ∧
      Flowing (sent.map ([·])) ∧
      ∃ conn, (H2Conn.new session).absorb checksumAead [] = (conn, .ok ()) ∧
        ∀ r, Reached checksumAead ⟨conn, sent.map ([·]), []⟩ r →
          r.conn.Fits ∧ (∃ rest, r.consumed ++ (r.conn.available ++ rest) = [1, 2, 3]) ∧
            Pumps [1, 2, 3] r (r.conn.pump checksumAead r.socket) := by
  intro key tx session
  have hmirror : tx.session.Mirrored session := ⟨rfl, rfl, rfl, rfl, rfl⟩
  have hlen : ∀ c ∈ ([[1, 2, 3]] : List (List UInt8)), c.length ≤ maxPlaintextSize := by decide
  obtain ⟨s', written, hs, -⟩ :=
    sendChunks_ok checksumAead_lawful (s := tx.session) hlen (by decide)
  have hsent : tx.sendAll checksumAead [[1, 2, 3]] =
      .ok ({ tx with session := s' }, written ++ []) := by
    rw [sendAll, send, chunks_of_le (by decide) (by decide), hs]
    rfl
  have hflow : Flowing ((written ++ []).map ([·])) := by
    intro seg hseg
    obtain ⟨b, -, rfl⟩ := List.mem_map.mp hseg
    exact List.cons_ne_nil _ _
  have hcut : [] ++ ((written ++ []).map ([·])).flatten = written ++ [] := by
    rw [List.nil_append]
    exact List.flatMap_singleton' _
  exact ⟨_, _, checksumAead_lawful, hmirror, hsent, hflow,
    reception_exact checksumAead_lawful hmirror hsent hcut (by decide) hflow⟩

end H2Conn

end Lando.Fw
