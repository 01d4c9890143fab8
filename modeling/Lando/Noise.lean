/-
Lando/Noise.lean

The record layer of the ts2021 control channel (`noise.rs`): frames

    type u8 | length u16 | body

big-endian, and in a record the body is a ciphertext and its tag.  The nonce
counts records, big-endian, and transport records have no associated data.

A session opens records in order: the nonce is not on the wire, so a frame is
accepted for what was accepted before it.  `decode` runs over the frames of a
stream as any receiver does, and stops at the first one it rejects; the two
receivers of the program differ only in the `accept` they run it with.
-/
import Lando.Crypto

namespace Lando.Noise

open Bytes

/-- The type of the client's first message. -/
def msgTypeInitiation : UInt8 := 1

/-- The type of the server's answer. -/
def msgTypeResponse : UInt8 := 2

/-- The type of a refusal. -/
def msgTypeError : UInt8 := 3

/-- The type of everything later. -/
def msgTypeRecord : UInt8 := 4

/-- The length of the first message, header included. -/
def initiationLen : ℕ := 101

/-- The length of the answer, header included. -/
def responseLen : ℕ := 51

/-- A type and a length. -/
def headerLen : ℕ := 3

/-- A version, a type and a length. -/
def initiationHeaderLen : ℕ := 5

/-- The tag of a sealed text. -/
def tagLen : ℕ := 16

/-- The limit for a record on the wire. -/
def maxMessageSize : ℕ := 4096

/-- The limit for what stands behind the header. -/
def maxCiphertextSize : ℕ := maxMessageSize - headerLen

/-- The limit for the text of a record. -/
def maxPlaintextSize : ℕ := maxCiphertextSize - tagLen

/-- `NoiseError`. -/
inductive NoiseError
  | unexpectedType (kind : UInt8)
  | serverError
  | badLength
  | decrypt
  | shortBuffer
  | nonceExhausted
  deriving DecidableEq, Repr

/-! ### Sessions -/

/-- An established transport. -/
structure Session where
  tx : Key
  rx : Key
  txNonce : UInt64
  rxNonce : UInt64
  handshakeHash : Key
  deriving DecidableEq

/-- Four zero bytes, then the counter, big-endian. -/
def recordNonce (counter : UInt64) : Nonce :=
  ⟨(List.replicate 4 0 ++ toBE 8 counter.toNat).toArray, by simp⟩

namespace Session

/-- Frames and encrypts one record into a buffer of `outLen` bytes; the
result is what was written there. -/
def writeRecord (A : Aead) (s : Session) (plaintext : List UInt8) (outLen : ℕ) :
    Except NoiseError (Session × List UInt8) :=
  if maxPlaintextSize < plaintext.length then .error .badLength
  else
    let total := headerLen + plaintext.length + tagLen
    if outLen < total then .error .shortBuffer
    else if s.txNonce = .ofNat (2 ^ 64 - 1) then .error .nonceExhausted
    else
      match A.encryptInPlaceDetached s.tx (recordNonce s.txNonce) [] plaintext with
      | none => .error .decrypt
      | some (body, tag) =>
          let header := msgTypeRecord :: toBE 2 (plaintext.length + tagLen)
          .ok ({ s with txNonce := s.txNonce + 1 }, header ++ body ++ tag.toList)

/-- Decrypts a record body in place; the result is what stands in front of
the tag then. -/
def readRecord (A : Aead) (s : Session) (body : List UInt8) :
    Except NoiseError (Session × List UInt8) :=
  if body.length < tagLen then .error .badLength
  else if s.rxNonce = .ofNat (2 ^ 64 - 1) then .error .nonceExhausted
  else
    let plaintextLen := body.length - tagLen
    let ct := body.take plaintextLen
    let tag := read 16 body plaintextLen
    match A.decryptInPlaceDetached s.rx (recordNonce s.rxNonce) [] ct tag with
    | none => .error .decrypt
    | some plain => .ok ({ s with rxNonce := s.rxNonce + 1 }, plain.take plaintextLen)

/-- The two ends of one transport. -/
structure Mirrored (a b : Session) : Prop where
  tx : a.tx = b.rx
  rx : a.rx = b.tx
  txNonce : a.txNonce = b.rxNonce
  rxNonce : a.rxNonce = b.txNonce
  handshakeHash : a.handshakeHash = b.handshakeHash

end Session

/-- Parses a frame header into the type and the length of the body. -/
def parseHeader (hdr : List UInt8) : UInt8 × ℕ := (hdr.getD 0 0, fromBE (slice hdr 1 3))

/-! ### Frames -/

/-- A frame on the wire. -/
structure Frame where
  kind : UInt8
  body : List UInt8
  fits : body.length < 2 ^ 16
  deriving DecidableEq

namespace Frame

/-- The three bytes in front of the body. -/
def head (f : Frame) : List UInt8 := f.kind :: toBE 2 f.body.length

/-- The frame as it is sent. -/
def wire (f : Frame) : List UInt8 := f.head ++ f.body

@[simp] theorem length_head (f : Frame) : f.head.length = headerLen := by
  rw [head, List.length_cons, length_toBE]
  rfl

theorem length_wire (f : Frame) : f.wire.length = headerLen + f.body.length := by
  rw [wire, List.length_append, length_head]

theorem parseHeader_head (f : Frame) : parseHeader f.head = (f.kind, f.body.length) := by
  have hfits : f.body.length < 256 ^ 2 := f.fits
  have hslice : slice f.head 1 3 = toBE 2 f.body.length := by
    show (toBE 2 f.body.length).take 2 = toBE 2 f.body.length
    exact List.take_of_length_le (Nat.le_of_eq (length_toBE _ _))
  rw [parseHeader, hslice, fromBE_toBE hfits]
  rfl

theorem take_wire (f : Frame) (rest : List UInt8) : (f.wire ++ rest).take headerLen = f.head := by
  rw [wire, List.append_assoc, List.take_left' f.length_head]

end Frame

/-- The byte stream of a list of frames. -/
def wires (frames : List Frame) : List UInt8 := (frames.map Frame.wire).flatten

@[simp] theorem wires_nil : wires [] = [] := rfl

@[simp] theorem wires_cons (f : Frame) (frames : List Frame) :
    wires (f :: frames) = f.wire ++ wires frames := rfl

@[simp] theorem wires_append (fs gs : List Frame) : wires (fs ++ gs) = wires fs ++ wires gs := by
  rw [wires, List.map_append, List.flatten_append, wires, wires]

theorem length_wire_ge (f : Frame) : headerLen ≤ f.wire.length := by
  rw [f.length_wire]
  omega

theorem length_le_wires (frames : List Frame) : frames.length ≤ (wires frames).length := by
  induction frames with
  | nil => exact Nat.le_refl 0
  | cons f frames ih =>
    have hpos := length_wire_ge f
    simp only [headerLen] at hpos
    rw [wires_cons, List.length_append, List.length_cons]
    omega

/-- The bytes of a frame that is complete. -/
theorem eq_wire_append {f : Frame} {frames : List Frame} {rest more : List UInt8}
    (hbytes : rest ++ more = wires (f :: frames)) (hlen : f.wire.length ≤ rest.length) :
    ∃ rest', rest = f.wire ++ rest' ∧ rest' ++ more = wires frames := by
  have htake : rest.take f.wire.length = f.wire := by
    have h := congrArg (List.take f.wire.length) hbytes
    rwa [List.take_append_of_le_length hlen, wires_cons, List.take_left] at h
  have hdrop : rest.drop f.wire.length ++ more = wires frames := by
    have h := congrArg (List.drop f.wire.length) hbytes
    rwa [List.drop_append_of_le_length hlen, wires_cons, List.drop_left] at h
  refine ⟨rest.drop f.wire.length, ?_, hdrop⟩
  rw [← htake, List.length_take, Nat.min_eq_left hlen, List.take_append_drop]

/-- Where a stream of frames is cut: between two of them, or inside one. -/
inductive Cut (front back : List UInt8) (frames : List Frame) : Prop
  | between (pre post : List Frame) (split : frames = pre ++ post) (front : front = wires pre)
      (back : back = wires post)
  | inside (pre post : List Frame) (f : Frame) (part rest : List UInt8)
      (split : frames = pre ++ f :: post) (front : front = wires pre ++ part)
      (frame : part ++ rest = f.wire) (some : part ≠ []) (more : rest ≠ [])
      (back : back = rest ++ wires post)

theorem cut_wires {front back : List UInt8} {frames : List Frame}
    (h : front ++ back = wires frames) : Cut front back frames := by
  induction frames generalizing front with
  | nil =>
    obtain ⟨rfl, rfl⟩ := List.append_eq_nil_iff.mp h
    exact .between [] [] rfl rfl rfl
  | cons f frames ih =>
    by_cases hlen : f.wire.length ≤ front.length
    · obtain ⟨front', rfl, h'⟩ := eq_wire_append h hlen
      rcases ih h' with
        ⟨pre, post, rfl, rfl, rfl⟩ | ⟨pre, post, g, part, rest, rfl, rfl, hg, hsome, hmore, rfl⟩
      · exact .between (f :: pre) post rfl rfl rfl
      · exact .inside (f :: pre) post g part rest rfl (List.append_assoc _ _ _).symm hg hsome hmore
          rfl
    · by_cases hnil : front = []
      · subst hnil
        exact .between [] (f :: frames) rfl rfl h
      · -- the front ends inside the first frame
        have hfront : f.wire.take front.length = front := by
          have h' := congrArg (List.take front.length) h
          rw [List.take_left, wires_cons, List.take_append_of_le_length (by omega)] at h'
          exact h'.symm
        have hback : back = f.wire.drop front.length ++ wires frames := by
          have h' := congrArg (List.drop front.length) h
          rwa [List.drop_left, wires_cons, List.drop_append_of_le_length (by omega)] at h'
        refine .inside [] frames f front (f.wire.drop front.length) rfl rfl ?_ hnil ?_ hback
        · have h' := List.take_append_drop front.length f.wire
          rwa [hfront] at h'
        · intro hdrop
          have := List.drop_eq_nil_iff.mp hdrop
          omega

/-- Any bytes start with a frame, if they are as many as its header says. -/
theorem exists_frame {bytes : List UInt8} (hhead : headerLen ≤ bytes.length)
    (hlen : headerLen + (parseHeader (bytes.take headerLen)).2 ≤ bytes.length) :
    ∃ (f : Frame) (rest : List UInt8), bytes = f.wire ++ rest := by
  obtain ⟨k, b₁, b₂, rest, rfl⟩ : ∃ k b₁ b₂ rest, bytes = k :: b₁ :: b₂ :: rest := by
    match bytes, hhead with
    | k :: b₁ :: b₂ :: rest, _ => exact ⟨k, b₁, b₂, rest, rfl⟩
  have hparse : (parseHeader ((k :: b₁ :: b₂ :: rest).take headerLen)).2 = fromBE [b₁, b₂] := rfl
  rw [hparse] at hlen
  have hbody : (rest.take (fromBE [b₁, b₂])).length = fromBE [b₁, b₂] := by
    rw [List.length_take]
    simp only [List.length_cons, headerLen] at hlen
    omega
  have hbound : fromBE [b₁, b₂] < 2 ^ 16 := by
    have h₁ := b₁.toNat_lt
    have h₂ := b₂.toNat_lt
    show b₂.toNat + 256 * (b₁.toNat + 256 * 0) < 2 ^ 16
    omega
  refine ⟨⟨k, rest.take (fromBE [b₁, b₂]), by rw [hbody]; exact hbound⟩,
    rest.drop (fromBE [b₁, b₂]), ?_⟩
  have hback : toBE 2 (fromBE [b₁, b₂]) = [b₁, b₂] := toBE_fromBE [b₁, b₂]
  simp only [Frame.wire, Frame.head, hbody, hback, List.cons_append, List.nil_append,
    List.take_append_drop]

/-! ### Records -/

namespace Session

/-- A record that was written is a frame that the other end reads back. -/
theorem writeRecord_ok {A : Aead} (hA : A.Lawful) {s s' : Session} {plaintext out : List UInt8}
    {outLen : ℕ} (h : s.writeRecord A plaintext outLen = .ok (s', out)) :
    s' = { s with txNonce := s.txNonce + 1 } ∧
      ∃ f : Frame, f.kind = msgTypeRecord ∧ f.body.length ≤ maxCiphertextSize ∧ out = f.wire ∧
        ∀ r : Session, r.rx = s.tx → r.rxNonce = s.txNonce →
          r.readRecord A f.body = .ok ({ r with rxNonce := r.rxNonce + 1 }, plaintext) := by
  unfold writeRecord at h
  by_cases hlong : maxPlaintextSize < plaintext.length
  · rw [if_pos hlong] at h
    cases h
  rw [if_neg hlong] at h
  by_cases hshort : outLen < headerLen + plaintext.length + tagLen
  · simp only [if_pos hshort] at h
    cases h
  simp only [if_neg hshort] at h
  by_cases hnonce : s.txNonce = .ofNat (2 ^ 64 - 1)
  · rw [if_pos hnonce] at h
    cases h
  rw [if_neg hnonce] at h
  rcases henc : A.encryptInPlaceDetached s.tx (recordNonce s.txNonce) [] plaintext with
    - | ⟨body, tag⟩
  · rw [henc] at h
    cases h
  rw [henc] at h
  obtain ⟨rfl, rfl⟩ := Prod.mk.inj (Except.ok.inj h)
  -- the lengths: a body as long as the text, with a tag behind it
  have hbody := hA.encrypt_length _ _ _ _ _ _ henc
  have htag : tag.toList.length = tagLen := Vector.length_toList
  have hlen : (body ++ tag.toList).length = plaintext.length + tagLen := by
    rw [List.length_append, hbody, htag]
  have hcap : plaintext.length + tagLen ≤ maxCiphertextSize := by
    simp only [maxPlaintextSize, maxCiphertextSize, maxMessageSize, headerLen, tagLen] at hlong ⊢
    omega
  have hfits : (body ++ tag.toList).length < 2 ^ 16 := by
    rw [hlen]
    exact Nat.lt_of_le_of_lt hcap (by decide)
  refine ⟨rfl, ⟨msgTypeRecord, body ++ tag.toList, hfits⟩, rfl, by rw [hlen]; exact hcap, ?_, ?_⟩
  · simp only [Frame.wire, Frame.head, hlen, List.append_assoc]
  · intro r hrx hnonce'
    -- the reader splits the body where the writer joined it
    have hsub : (body ++ tag.toList).length - tagLen = body.length := by
      rw [hlen, hbody, Nat.add_sub_cancel]
    have hread : read 16 (body ++ tag.toList) body.length = tag := by
      apply read_eq
      have hmid : slice (body ++ (tag.toList ++ [])) body.length (body.length + 16) = tag.toList :=
        slice_append_mid rfl (by rw [htag]; rfl)
      rwa [List.append_nil] at hmid
    unfold readRecord
    rw [if_neg (by rw [hlen]; omega), if_neg (by rw [hnonce']; exact hnonce)]
    simp only [hsub, List.take_left, hread, hrx, hnonce', hA.decrypt_encrypt _ _ _ _ _ _ henc]
    rw [hbody, List.take_length]

/-- A text that fits in a record is written, unless the nonces are used up. -/
theorem writeRecord_of_fits {A : Aead} (hA : A.Lawful) {s : Session} {plaintext : List UInt8}
    {outLen : ℕ} (hlen : plaintext.length ≤ maxPlaintextSize)
    (hout : headerLen + plaintext.length + tagLen ≤ outLen)
    (hnonce : s.txNonce ≠ .ofNat (2 ^ 64 - 1)) :
    ∃ out, s.writeRecord A plaintext outLen = .ok ({ s with txNonce := s.txNonce + 1 }, out) := by
  have hlim : plaintext.length / 64 < 2 ^ 32 - 1 := by
    simp only [maxPlaintextSize, maxCiphertextSize, maxMessageSize, headerLen, tagLen] at hlen
    omega
  obtain ⟨⟨body, tag⟩, he⟩ := Option.isSome_iff_exists.mp
    (hA.encrypt_isSome s.tx (recordNonce s.txNonce) [] plaintext hlim)
  refine ⟨msgTypeRecord :: toBE 2 (plaintext.length + tagLen) ++ body ++ tag.toList, ?_⟩
  unfold writeRecord
  simp only [if_neg (Nat.not_lt.mpr hlen), if_neg (Nat.not_lt.mpr hout), if_neg hnonce, he]

/-- A session with room for one more nonce writes one more record. -/
theorem writeRecord_of_room {A : Aead} (hA : A.Lawful) {s : Session} {plaintext : List UInt8}
    (hlen : plaintext.length ≤ maxPlaintextSize) (hroom : s.txNonce.toNat + 1 < 2 ^ 64) :
    ∃ out, s.writeRecord A plaintext maxMessageSize =
        .ok ({ s with txNonce := s.txNonce + 1 }, out) ∧
      (s.txNonce + 1).toNat = s.txNonce.toNat + 1 := by
  have hne : s.txNonce ≠ .ofNat (2 ^ 64 - 1) := by
    intro he
    have hmax : (UInt64.ofNat (2 ^ 64 - 1)).toNat = 2 ^ 64 - 1 := rfl
    rw [he, hmax] at hroom
    omega
  have hout : headerLen + plaintext.length + tagLen ≤ maxMessageSize := by
    simp only [maxPlaintextSize, maxCiphertextSize, maxMessageSize, headerLen, tagLen] at hlen ⊢
    omega
  obtain ⟨out, hw⟩ := writeRecord_of_fits hA hlen hout hne
  refine ⟨out, hw, ?_⟩
  rw [UInt64.toNat_add]
  exact Nat.mod_eq_of_lt hroom

/-- What a record gives is at most its body, and moves the nonce by one. -/
theorem readRecord_ok {A : Aead} {s s' : Session} {body text : List UInt8}
    (h : s.readRecord A body = .ok (s', text)) :
    s' = { s with rxNonce := s.rxNonce + 1 } ∧ text.length ≤ body.length := by
  unfold readRecord at h
  split_ifs at h
  simp only at h
  split at h
  · cases h
  · obtain ⟨rfl, rfl⟩ := Prod.mk.inj (Except.ok.inj h)
    refine ⟨rfl, ?_⟩
    rw [List.length_take]
    omega

/-- The nonce does not wrap. -/
theorem readRecord_nonce {A : Aead} {s s' : Session} {body text : List UInt8}
    (h : s.readRecord A body = .ok (s', text)) : s'.rxNonce.toNat = s.rxNonce.toNat + 1 := by
  have hmax : s.rxNonce.toNat ≠ 2 ^ 64 - 1 := by
    intro he
    have hnonce : s.rxNonce = .ofNat (2 ^ 64 - 1) := UInt64.toNat_inj.mp he
    unfold readRecord at h
    rw [if_pos hnonce] at h
    split_ifs at h
  rw [(readRecord_ok h).1]
  show (s.rxNonce + 1).toNat = s.rxNonce.toNat + 1
  have hlt := s.rxNonce.toNat_lt
  rw [UInt64.toNat_add]
  exact Nat.mod_eq_of_lt (by show s.rxNonce.toNat + 1 < _; omega)

end Session

/-- Nobody but the sender seals: in each state of the receiver on its way
through `frames`, no slice of the bytes `sent` opens but the body of the next of
them. -/
def Unforged (A : Aead) (sent : List UInt8) : Session → List Frame → Prop
  | _, [] => True
  | s, f :: frames =>
      (∀ body s' text, body <:+: sent → s.readRecord A body = .ok (s', text) → body = f.body) ∧
        Unforged A sent { s with rxNonce := s.rxNonce + 1 } frames

theorem Unforged.next {A : Aead} {sent : List UInt8} {s s' : Session} {f : Frame}
    {frames : List Frame} {text : List UInt8} (h : Unforged A sent s (f :: frames))
    (hread : s.readRecord A f.body = .ok (s', text)) : Unforged A sent s' frames := by
  rw [(Session.readRecord_ok hread).1]
  exact h.2

/-! ### Receivers -/

section Decode

variable {ε : Type} (accept : Session → Frame → Except ε (Session × List UInt8))

/-- Runs over frames up to the first one that is not accepted: the session
then, the text of the frames before, and what became of that frame. -/
def decode : Session → List Frame → Session × List UInt8 × Option ε
  | s, [] => (s, [], none)
  | s, f :: frames =>
      match accept s f with
      | .error e => (s, [], some e)
      | .ok (s', text) =>
          let rest := decode s' frames
          (rest.1, text ++ rest.2.1, rest.2.2)

variable {accept}

theorem decode_cons_ok {s s' : Session} {f : Frame} {text : List UInt8}
    (h : accept s f = .ok (s', text)) (frames : List Frame) :
    decode accept s (f :: frames) =
      ((decode accept s' frames).1, text ++ (decode accept s' frames).2.1,
        (decode accept s' frames).2.2) := by
  rw [decode, h]

theorem decode_cons_error {s : Session} {f : Frame} {e : ε} (h : accept s f = .error e)
    (frames : List Frame) : decode accept s (f :: frames) = (s, [], some e) := by
  rw [decode, h]

/-- The first frame of a stream that is all accepted. -/
theorem decode_cons_none {s s' : Session} {f : Frame} {frames : List Frame} {text : List UInt8}
    (h : decode accept s (f :: frames) = (s', text, none)) :
    ∃ s₁ t₁ t₂, accept s f = .ok (s₁, t₁) ∧ decode accept s₁ frames = (s', t₂, none) ∧
      text = t₁ ++ t₂ := by
  rcases hf : accept s f with e | ⟨s₁, t₁⟩
  · rw [decode_cons_error hf] at h
    cases h
  · rw [decode_cons_ok hf] at h
    rcases hrest : decode accept s₁ frames with ⟨s₂, t₂, err⟩
    rw [hrest] at h
    simp only [Prod.mk.injEq] at h
    obtain ⟨rfl, rfl, rfl⟩ := h
    exact ⟨s₁, t₁, t₂, rfl, hrest, rfl⟩

/-- Frames that were all accepted, followed by others. -/
theorem decode_append {s s' : Session} {pre : List Frame} {text : List UInt8}
    (h : decode accept s pre = (s', text, none)) (post : List Frame) :
    decode accept s (pre ++ post) =
      ((decode accept s' post).1, text ++ (decode accept s' post).2.1,
        (decode accept s' post).2.2) := by
  induction pre generalizing s text with
  | nil =>
    obtain ⟨rfl, htext⟩ := Prod.mk.inj h
    obtain ⟨rfl, -⟩ := Prod.mk.inj htext
    rfl
  | cons f pre ih =>
    obtain ⟨s₁, t₁, t₂, hf, hpre, rfl⟩ := decode_cons_none h
    rw [List.cons_append, decode_cons_ok hf, ih hpre]
    simp only [List.append_assoc]

/-- A front of a stream that is all accepted. -/
theorem decode_front {s s₂ : Session} {pre post : List Frame} {rest : List UInt8}
    (h : decode accept s (pre ++ post) = (s₂, rest, none)) :
    ∃ s₁ text, decode accept s pre = (s₁, text, none) := by
  induction pre generalizing s rest with
  | nil => exact ⟨s, [], rfl⟩
  | cons f pre ih =>
    obtain ⟨s', t, _, hf, hmore, -⟩ := decode_cons_none h
    obtain ⟨s₁, text, hpre⟩ := ih hmore
    exact ⟨s₁, t ++ text, by rw [decode_cons_ok hf, hpre]⟩

/-- What is left of a stream that is all accepted. -/
theorem decode_rest {s s₁ s₂ : Session} {pre post : List Frame} {text rest : List UInt8}
    (hpre : decode accept s pre = (s₁, text, none))
    (h : decode accept s (pre ++ post) = (s₂, rest, none)) :
    ∃ rest', decode accept s₁ post = (s₂, rest', none) ∧ rest = text ++ rest' := by
  rw [decode_append hpre] at h
  rcases hpost : decode accept s₁ post with ⟨s', t, err⟩
  rw [hpost] at h
  simp only [Prod.mk.injEq] at h
  obtain ⟨rfl, rfl, rfl⟩ := h
  exact ⟨t, rfl, rfl⟩

/-- A stream that is all accepted holds no frame that is not. -/
theorem decode_ne_none {s s₁ s₂ : Session} {pre post : List Frame} {f : Frame}
    {text rest : List UInt8} {e : ε} (hpre : decode accept s pre = (s₁, text, none))
    (hf : accept s₁ f = .error e) : decode accept s (pre ++ f :: post) ≠ (s₂, rest, none) := by
  intro h
  obtain ⟨rest', hrest, -⟩ := decode_rest hpre h
  rw [decode_cons_error hf] at hrest
  cases hrest

/-- A frame that is rejected in every state is not passed. -/
theorem decode_isSome {f : Frame} (hf : ∀ s, ∃ e, accept s f = .error e) {frames : List Frame}
    (hmem : f ∈ frames) (s : Session) : (decode accept s frames).2.2.isSome := by
  induction frames generalizing s with
  | nil => cases hmem
  | cons g frames ih =>
    rcases hg : accept s g with e | ⟨s', text⟩
    · rw [decode_cons_error hg]
      rfl
    · rw [decode_cons_ok hg]
      rcases List.mem_cons.mp hmem with rfl | hmem
      · obtain ⟨e, he⟩ := hf s
        rw [he] at hg
        cases hg
      · exact ih hmem s'

/-- Where a receiver stopped. -/
theorem decode_split {s s' : Session} {frames : List Frame} {text : List UInt8} {err : Option ε}
    (h : decode accept s frames = (s', text, err)) :
    ∃ pre post, frames = pre ++ post ∧ decode accept s pre = (s', text, none) ∧
      (err = none → post = []) := by
  induction frames generalizing s text with
  | nil =>
    simp only [decode, Prod.mk.injEq] at h
    obtain ⟨rfl, rfl, rfl⟩ := h
    exact ⟨[], [], rfl, rfl, fun _ => rfl⟩
  | cons f frames ih =>
    rcases hf : accept s f with e | ⟨s₁, t₁⟩
    · rw [decode_cons_error hf] at h
      simp only [Prod.mk.injEq] at h
      obtain ⟨rfl, rfl, rfl⟩ := h
      exact ⟨[], f :: frames, rfl, rfl, nofun⟩
    · rw [decode_cons_ok hf] at h
      rcases hrest : decode accept s₁ frames with ⟨s₂, t₂, err'⟩
      rw [hrest] at h
      simp only [Prod.mk.injEq] at h
      obtain ⟨rfl, rfl, rfl⟩ := h
      obtain ⟨pre, post, rfl, hpre, hpost⟩ := ih hrest
      exact ⟨f :: pre, post, rfl, by rw [decode_cons_ok hf, hpre], hpost⟩

/-- What is accepted was read as a record. -/
def Reads (A : Aead) (accept : Session → Frame → Except ε (Session × List UInt8)) : Prop :=
  ∀ s f r, accept s f = .ok r → s.readRecord A f.body = .ok r

/-- The nonce counts the records that were accepted. -/
theorem decode_nonce {A : Aead} (hreads : Reads A accept) {s s' : Session} {pre : List Frame}
    {text : List UInt8} (h : decode accept s pre = (s', text, none)) :
    s'.rxNonce.toNat = s.rxNonce.toNat + pre.length := by
  induction pre generalizing s text with
  | nil =>
    obtain ⟨rfl, -⟩ := Prod.mk.inj h
    rfl
  | cons f pre ih =>
    obtain ⟨s₁, t₁, _, hf, hrest, -⟩ := decode_cons_none h
    rw [ih hrest, Session.readRecord_nonce (hreads s f _ hf), List.length_cons]
    omega

end Decode

end Lando.Noise
