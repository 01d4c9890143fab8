/-
Lando/DerpLogin.lean

How a client gets onto a relay (`derp/handshake.rs`, and the two clients in
`lando-fw/src/derp.rs` and `lando-host/src/derp.rs`).

The client asks for the upgrade in HTTP, reads the relay's key in a frame,
answers with a box that only this relay opens, and reads a box that only this
client opens.  Everything that the relay sends is one byte stream, and neither
client makes anything of how it is cut: both keep

    staged ++ what is still to come = what follows,

through the headers, through the two frames and beyond them.  So what a client
comes to is a function of the frames (`Fw.RelayLogin.login_eq`,
`Host.RelayLogin.connect_eq`).

The two functions differ.  The firmware skips frames that it does not expect
yet; the host takes them for an error.  The host is accepted exactly where the
firmware is accepted by a relay that sends the two frames first
(`Host.RelayLogin.connect_iff_login`).
-/
import Lando.Crypto
import Lando.FwDerp
import Lando.HostDerp
import Lando.JsonWriter
import Lando.Socket
import Lando.Upgrade

namespace Lando.Derp

open Bytes Framing

/-! ### Boxes -/

/-- The nonce in front of a sealed box. -/
def nonceLen : ℕ := 24

/-- The tag of a sealed box. -/
def tagLen : ℕ := 16

/-- The DERP protocol version this client speaks. -/
def protocolVersion : UInt32 := 2

/-- What a sealed payload adds over its plaintext: nonce plus tag. -/
def sealOverhead : ℕ := nonceLen + tagLen

/-- Seals `plaintext` into `outLen` bytes, the tag ahead of the ciphertext. -/
def «seal» (P : Primitives) (clientSecret peerPublic : Key) (nonce : BoxNonce)
    (plaintext : List UInt8) (outLen : ℕ) : Except DerpError (List UInt8) :=
  if outLen < sealOverhead + plaintext.length then .error .shortBuffer
  else
    match P.boxEncrypt clientSecret peerPublic nonce plaintext with
    | none => .error .crypto
    | some (body, tag) => .ok (nonce.toList ++ tag.toList ++ body)

/-- Opens such a payload. -/
def «open» (P : Primitives) (clientSecret peerPublic : Key) (payload : List UInt8) :
    Except DerpError (List UInt8) :=
  if payload.length < sealOverhead then .error .crypto
  else
    match P.boxDecrypt clientSecret peerPublic (read 24 payload 0) (payload.drop sealOverhead)
      (read 16 payload nonceLen) with
    | none => .error .crypto
    | some plain => .ok plain

/-- The text of `ClientInfo`. -/
def clientInfo : Except Json.JsonError (List UInt8) := do
  let w := Json.Writer.new (List.replicate 64 0)
  let w ← w.beginObject
  let w ← w.fieldU64 "Version".toList protocolVersion.toUInt64
  let w ← w.endObject
  return w.asBytes

/-- The payload of the `ClientInfo` frame: the client's key and the box. -/
def clientInfoPayload (P : Primitives) (clientSecret clientPublic serverPublic : Key)
    (nonce : BoxNonce) (outLen : ℕ) : Except DerpError (List UInt8) :=
  match clientInfo with
  | .error _ => .error .shortBuffer
  | .ok info =>
      if outLen < keyLen then .error .shortBuffer
      else
        («seal» P clientSecret serverPublic nonce info (outLen - keyLen)).map fun sealed =>
          clientPublic.toList ++ sealed

/-- `{"Version":2}`. -/
def versionText : List UInt8 := "\x7b\"Version\":2\x7d".toUTF8.toList

theorem clientInfo_eq : clientInfo = .ok versionText := by decide +kernel

theorem length_versionText : versionText.length = 13 := by decide +kernel

/-- What is sealed from one key pair to another opens at the other end. -/
theorem open_seal {P : Primitives} (hB : P.BoxLawful) (a b : Key) (nonce : BoxNonce)
    {plaintext : List UInt8} {outLen : ℕ} (h : sealOverhead + plaintext.length ≤ outLen) :
    ∃ sealed, «seal» P a (P.x25519Base b) nonce plaintext outLen = .ok sealed ∧
      sealed.length = sealOverhead + plaintext.length ∧
      «open» P b (P.x25519Base a) sealed = .ok plaintext := by
  obtain ⟨⟨body, tag⟩, hbox⟩ :=
    Option.isSome_iff_exists.mp (hB.encrypt_isSome a (P.x25519Base b) nonce plaintext)
  have hbody := hB.inPlace _ _ _ _ _ _ hbox
  have hfront : (nonce.toList ++ tag.toList).length = sealOverhead := by
    rw [List.length_append, Vector.length_toList, Vector.length_toList]
    rfl
  have hlen : (nonce.toList ++ tag.toList ++ body).length = sealOverhead + plaintext.length := by
    rw [List.length_append, hfront, hbody]
  refine ⟨nonce.toList ++ tag.toList ++ body, ?_, hlen, ?_⟩
  · rw [«seal», if_neg (Nat.not_lt.mpr h), hbox]
  have hnonce : Bytes.read 24 (nonce.toList ++ tag.toList ++ body) 0 = nonce := by
    apply read_eq
    rw [slice, List.drop_zero, List.append_assoc, List.take_left' nonce.length_toList]
  have htag : Bytes.read 16 (nonce.toList ++ tag.toList ++ body) nonceLen = tag := by
    apply read_eq
    have hskip : (nonce.toList ++ (tag.toList ++ body)).drop nonceLen = tag.toList ++ body :=
      List.drop_left' nonce.length_toList
    rw [slice, List.append_assoc, hskip, Nat.add_sub_cancel_left, List.take_left' tag.length_toList]
  rw [«open», if_neg (by rw [hlen]; exact Nat.not_lt.mpr (Nat.le_add_right _ _)), hnonce, htag,
    List.drop_left' hfront, hB.decrypt_encrypt _ _ _ _ _ _ hbox]

/-- With any keys there is a box. -/
theorem clientInfoPayload_ok {P : Primitives} (hB : P.BoxLawful) (secret client relay : Key)
    (nonce : BoxNonce) :
    ∃ payload, clientInfoPayload P secret client relay nonce 256 = .ok payload ∧
      payload.length ≤ maxFrameLen := by
  obtain ⟨⟨body, tag⟩, hbox⟩ :=
    Option.isSome_iff_exists.mp (hB.encrypt_isSome secret relay nonce versionText)
  have hbody := hB.inPlace _ _ _ _ _ _ hbox
  have hroom : ¬ 256 - keyLen < sealOverhead + versionText.length := by
    rw [length_versionText]
    decide
  refine ⟨client.toList ++ (nonce.toList ++ tag.toList ++ body), ?_, ?_⟩
  · rw [clientInfoPayload, clientInfo_eq]
    simp only
    rw [if_neg (by decide), «seal», if_neg hroom, hbox]
    rfl
  · simp only [List.length_append, Vector.length_toList, hbody, length_versionText]
    decide

/-- The relay reads the client's key and the version. -/
theorem clientInfoPayload_opens {P : Primitives} (hB : P.BoxLawful) (client relay : Key)
    (nonce : BoxNonce) :
    ∃ payload, clientInfoPayload P client (P.x25519Base client) (P.x25519Base relay) nonce 256 =
        .ok payload ∧ payload.length ≤ maxFrameLen ∧
      payload.take keyLen = (P.x25519Base client).toList ∧
      «open» P relay (P.x25519Base client) (payload.drop keyLen) = .ok versionText := by
  have hfits : sealOverhead + versionText.length ≤ 256 - keyLen := by
    rw [length_versionText]
    decide
  obtain ⟨sealed, hseal, hlen, hopen⟩ := open_seal hB client relay nonce hfits
  have hkey : (P.x25519Base client).toList.length = keyLen := Vector.length_toList
  refine ⟨(P.x25519Base client).toList ++ sealed, ?_, ?_, ?_, ?_⟩
  · rw [clientInfoPayload, clientInfo_eq]
    simp only
    rw [if_neg (by decide), hseal]
    rfl
  · rw [List.length_append, hkey, hlen, length_versionText]
    decide
  · rw [List.take_left' hkey]
  · rw [List.drop_left' hkey, hopen]

/-- What `write_frame` writes. -/
def frameBytes (kind : FrameType) (payload : List UInt8) : Except DerpError (List UInt8) :=
  (writeHeader (List.replicate headerLen 0) kind (.ofNat payload.length)).map fun res =>
    res.1 ++ payload

theorem frameBytes_eq (f : RawFrame) (kind : FrameType) (hkind : f.kind = kind.toU8) :
    frameBytes kind f.payload = .ok f.wire := by
  have hout : headerLen ≤ (List.replicate headerLen (0 : UInt8)).length := by
    rw [List.length_replicate]
  have hhead := writeHeader_eq f kind hkind hout
  rw [frameBytes, RawFrame.wire]
  rcases hw : writeHeader (List.replicate headerLen 0) kind (.ofNat f.payload.length) with
    e | ⟨header, n⟩
  · rw [hw] at hhead
    cases hhead
  · rw [hw] at hhead
    -- the header fills its array
    rw [writeHeader, if_neg (by rw [List.length_replicate]; exact Nat.lt_irrefl _)] at hw
    obtain ⟨rfl, rfl⟩ := Prod.mk.inj (Except.ok.inj hw)
    rw [← Except.ok.inj hhead]
    rfl

/-! ### The upgrade -/

/-- The path that the relay serves. -/
def upgradePath : String := "/derp"

/-- The protocol that the upgrade asks for. -/
def upgradeProtocol : String := "DERP"

/-- The request; both clients write the same. -/
def upgradeRequest (host : String) : List UInt8 :=
  ("GET " ++ upgradePath ++ " HTTP/1.1\r\nHost: " ++ host ++
    "\r\nConnection: Upgrade\r\nUpgrade: " ++ upgradeProtocol ++ "\r\n\r\n").toUTF8.toList

/-- `HTTP/1.1 101`. -/
def switching : List UInt8 := "HTTP/1.1 101".toUTF8.toList

/-- How waiting for the headers ends without them. -/
inductive NoHeaders
  | full
  | closed
  | refused (buf : List UInt8)
  | blocked
  deriving DecidableEq

/-- Reads until the headers end, into a buffer of `size` bytes, and hands over
what came behind them.  `accepts` tests what was read, given where the headers
end in it. -/
def awaitHeaders (size : ℕ) (accepts : List UInt8 → ℕ → Bool) :
    ℕ → List UInt8 → List (List UInt8) → Except NoHeaders (List UInt8 × List (List UInt8))
  | 0, _, _ => .error .full
  | k + 1, buf, socket =>
      if buf.length = size then .error .full
      else
        match Socket.read (size - buf.length) socket with
        | none => .error .blocked
        | some ([], _) => .error .closed
        | some (b :: bs, socket) =>
            let buf := buf ++ b :: bs
            match Upgrade.findHeadersEnd buf with
            | none => awaitHeaders size accepts k buf socket
            | some headersEnd =>
                if accepts buf headersEnd then .ok (buf.drop headersEnd, socket)
                else .error (.refused buf)

/-- Headers that end where the first blank line does. -/
def Headers (head : List UInt8) : Prop := Upgrade.findHeadersEnd head = some head.length

instance (head : List UInt8) : Decidable (Headers head) :=
  inferInstanceAs (Decidable (_ = _))

theorem Headers.carriageReturn {head : List UInt8} (h : Headers head) : (13 : UInt8) ∈ head := by
  obtain ⟨i, hi, -⟩ := Option.map_eq_some_iff.mp h
  obtain ⟨j, hj⟩ := Upgrade.findIdx?_isSome_of_headersEnd hi
  obtain ⟨hlt, heq, -⟩ := List.findIdx?_eq_some_iff_getElem.mp hj
  rw [← eq_of_beq heq]
  exact List.getElem_mem hlt

/-- More bytes do not make a status line. -/
theorem Headers.switching_append {head : List UInt8} (h : Headers head) (more : List UInt8) :
    switching.isPrefixOf (head ++ more) = switching.isPrefixOf head := by
  rw [Bool.eq_iff_iff, List.isPrefixOf_iff_prefix, List.isPrefixOf_iff_prefix]
  refine ⟨fun hpre => ?_, fun hpre => hpre.trans (List.prefix_append head more)⟩
  rcases Nat.le_total switching.length head.length with hle | hle
  · exact List.prefix_of_prefix_length_le hpre (List.prefix_append head more) hle
  · have hin : head <+: switching :=
      List.prefix_of_prefix_length_le (List.prefix_append head more) hpre hle
    exact absurd (hin.subset h.carriageReturn) (by decide +kernel)

theorem Headers.found {head front back rest : List UInt8} (h : Headers head)
    (hbytes : front ++ back = head ++ rest) :
    Upgrade.findHeadersEnd front =
      if head.length ≤ front.length then some head.length else none := by
  obtain ⟨i, hi, hlen⟩ := Option.map_eq_some_iff.mp h
  have hall : Upgrade.findWindow Upgrade.blankLine (front ++ back) = some i := by
    rw [hbytes, Upgrade.findWindow_append hi]
  split_ifs with hle
  · have htake :
        Upgrade.findWindow Upgrade.blankLine ((front ++ back).take front.length) = some i :=
      Upgrade.findWindow_take (by decide) hall (show i + 4 ≤ front.length by omega)
    rw [List.take_left] at htake
    rw [Upgrade.findHeadersEnd, htake, Option.map_some, hlen]
  · rcases hw : Upgrade.findWindow Upgrade.blankLine front with - | j
    · rw [Upgrade.findHeadersEnd, hw]
      rfl
    · rw [Upgrade.findWindow_append hw] at hall
      have hle' : j + 4 ≤ front.length := Upgrade.findWindow_le hw
      obtain rfl := Option.some.inj hall
      omega

/-- Headers that fit are read, in any segments, and nothing behind them is
lost. -/
theorem awaitHeaders_spec {size k : ℕ} {accepts : List UInt8 → ℕ → Bool} {status : Bool}
    {head rest buf : List UInt8} {socket : List (List UInt8)} (h : Headers head)
    (hsize : head.length ≤ size) (haccepts : ∀ more, accepts (head ++ more) head.length = status)
    (hflow : Socket.Flowing socket) (hbytes : buf ++ socket.flatten = head ++ rest)
    (hbuf : buf.length < head.length) (hk : size < k + buf.length) :
    if status then
      ∃ staged socket', awaitHeaders size accepts k buf socket = .ok (staged, socket') ∧
        staged ++ socket'.flatten = rest ∧ Socket.Flowing socket'
    else ∃ buf', awaitHeaders size accepts k buf socket = .error (.refused buf') := by
  induction k generalizing buf socket with
  | zero => omega
  | succ k ih =>
    have hroom : ¬ buf.length = size := by omega
    rw [awaitHeaders, if_neg hroom]
    rcases hread : Socket.read (size - buf.length) socket with - | ⟨bytes, socket'⟩
    · -- the headers are not complete yet, so something is still to come
      rw [Socket.read_none hread, List.flatten_nil, List.append_nil] at hbytes
      rw [hbytes, List.length_append] at hbuf
      omega
    obtain ⟨hsplit, -, hsome, hflow'⟩ := Socket.read_spec hflow hread
    cases bytes with
    | nil => exact absurd rfl (hsome (by omega))
    | cons b bs =>
      have htotal : buf ++ b :: bs ++ socket'.flatten = head ++ rest := by
        rw [← hbytes, ← hsplit, List.append_assoc]
      simp only [h.found htotal]
      by_cases hle : head.length ≤ (buf ++ b :: bs).length
      · obtain ⟨more, hmore⟩ : ∃ more, buf ++ b :: bs = head ++ more := by
          have hpre : head <+: buf ++ b :: bs := List.prefix_of_prefix_length_le
            (List.prefix_append head rest) ⟨socket'.flatten, htotal⟩ hle
          obtain ⟨more, hmore⟩ := hpre
          exact ⟨more, hmore.symm⟩
        rw [if_pos hle]
        simp only [hmore, haccepts]
        cases status with
        | true =>
          refine ⟨more, socket', ?_, ?_, hflow'⟩
          · rw [if_pos rfl, List.drop_left]
          · rw [hmore, List.append_assoc] at htotal
            exact List.append_cancel_left htotal
        | false => exact ⟨head ++ more, by rw [if_neg (by decide)]⟩
      · rw [if_neg hle]
        have hk' : size < k + (buf ++ b :: bs).length := by
          rw [List.length_append, List.length_cons]
          omega
        exact ih hflow' htotal (Nat.not_le.mp hle) hk'

theorem awaitHeaders_start {size : ℕ} (accepts : List UInt8 → ℕ → Bool) {status : Bool}
    {head rest : List UInt8} {socket : List (List UInt8)} (h : Headers head)
    (hsize : head.length ≤ size) (haccepts : ∀ more, accepts (head ++ more) head.length = status)
    (hflow : Socket.Flowing socket) (hbytes : socket.flatten = head ++ rest) :
    if status then
      ∃ staged socket', awaitHeaders size accepts (size + 1) [] socket = .ok (staged, socket') ∧
        staged ++ socket'.flatten = rest ∧ Socket.Flowing socket'
    else ∃ buf', awaitHeaders size accepts (size + 1) [] socket = .error (.refused buf') :=
  awaitHeaders_spec h hsize haccepts hflow hbytes (List.length_pos_of_mem h.carriageReturn)
    (Nat.lt_succ_self size)

end Lando.Derp

/-! ### The firmware -/

namespace Lando.Fw

open Derp Framing

namespace Parser

/-- A call of `next_frame` returns the next frame of the stream, in however many
reads it lies, and keeps what it has read of those behind it. -/
theorem nextFrame_next {s : Parser} {p : List UInt8} {f : Wire format} {fs : List (Wire format)}
    {reads : List (List UInt8)} (h : s.Holds p) (hflow : Socket.Flowing reads)
    (hbytes : p ++ s.rest ++ reads.flatten = stream (f :: fs)) :
    ∃ s' reads', s.nextFrame reads = .returned s' (truncated s.assembled.length f) reads' ∧
      At format s'.reader [] ∧ s'.staged ++ reads'.flatten = stream fs ∧
      Socket.Flowing reads' := by
  induction hl : reads.length using Nat.strong_induction_on generalizing s p reads with
  | _ l ih =>
    have hspec := parse_spec s.rest.length h (Nat.le_refl _)
    unfold nextFrame
    generalize parse s.rest.length s = res at hspec
    cases hspec with
    | @frame s₁ len f' holds length split shorter payload =>
      rw [split, List.append_assoc] at hbytes
      obtain ⟨fs', hfs, hrest⟩ := stream_eq_frame hbytes.symm
      obtain ⟨rfl, rfl⟩ := List.cons.inj hfs
      refine ⟨s₁.reclaim, reads, ?_, holds.place, hrest.symm, hflow⟩
      rw [truncated, ← payload]
    | @protocol s₁ hd tail e split len refused =>
      rw [split, List.append_assoc] at hbytes
      exact absurd hbytes (stream_ne_refused _ len (by rw [refused]; exact Option.some_ne_none _) _)
    | @more s₁ holds length used =>
      rcases reads with - | ⟨- | ⟨b, bs⟩, reads⟩
      · -- a frame that is complete would have been found
        rw [List.flatten_nil, List.append_nil] at hbytes
        exact absurd hbytes (holds.place.noFrame f (stream fs))
      · exact absurd rfl (hflow [] List.mem_cons_self)
      · have hholds : ({ s₁.reclaim with staged := s₁.rest ++ b :: bs } : Parser).Holds
            (p ++ s.rest) := ⟨holds.place, holds.filled_eq, holds.kept⟩
        have hrest : ({ s₁.reclaim with staged := s₁.rest ++ b :: bs } : Parser).rest =
            b :: bs := by
          show (s₁.rest ++ b :: bs).drop 0 = b :: bs
          rw [used, List.nil_append, List.drop_zero]
        have hlen : ({ s₁.reclaim with staged := s₁.rest ++ b :: bs } : Parser).assembled.length =
            s.assembled.length := length
        obtain ⟨s', reads', he, hplace, hleft, hflow'⟩ := ih reads.length
          (by rw [← hl]; exact Nat.lt_succ_self _) hholds hflow.tail
          (by rw [hrest, ← hbytes, List.flatten_cons, List.append_assoc, List.append_assoc]) rfl
        rw [hlen] at he
        exact ⟨s', reads', he, hplace, hleft, hflow'⟩

end Parser

/-- Nothing is returned while nothing comes. -/
theorem nextFrame_blocked (reader : FrameReader) : nextFrame reader [] [] = .blocked := by
  rw [nextFrame, Parser.nextFrame]
  rfl

/-- The frame as the handshake receives it. -/
theorem truncated_512 (f : RawFrame) :
    Parser.truncated 512 f.toWire = (f.type, f.payload.take 512) := by
  rw [Parser.truncated, rawOf_toWire, RawFrame.raw, f.header_toWire]
  split_ifs
  · rw [List.take_take]
    rfl
  · rfl

theorem nextFrame_wires {reader : FrameReader} {staged : List UInt8} {reads : List (List UInt8)}
    {f : RawFrame} {fs : List RawFrame} (h : At format reader []) (hflow : Socket.Flowing reads)
    (hbytes : staged ++ reads.flatten = wires (f :: fs)) :
    ∃ s' reads', nextFrame reader staged reads =
        .returned s' (f.type, f.payload.take 512) reads' ∧
      At format s'.reader [] ∧ s'.staged ++ reads'.flatten = wires fs ∧
      Socket.Flowing reads' := by
  rw [← stream_toWire] at hbytes
  obtain ⟨s', reads', he, hplace, hleft, hflow'⟩ :=
    Parser.nextFrame_next (s := ⟨reader, staged, 0, List.replicate 512 0, 0⟩)
      (Parser.Holds.nil h rfl) hflow hbytes
  rw [stream_toWire] at hleft
  rw [List.length_replicate, truncated_512] at he
  exact ⟨s', reads', he, hplace, hleft, hflow'⟩

namespace RelayLogin

/-- `DerpError` of the firmware, or that it has not come to an end. -/
inductive Ended
  | io
  | upgrade
  | protocol
  | blocked
  | spins
  /-- The request does not fit its buffer. -/
  | panics
  deriving DecidableEq

/-- What `handshake` leaves: the relay's key, what was written, the reader and
the staged bytes, and the reads still to come. -/
structure LoggedIn where
  serverKey : Key
  sent : List UInt8
  reader : FrameReader
  staged : List UInt8
  reads : List (List UInt8)

/-- The request in its buffer of 256 bytes; a host that is too long panics. -/
def buildUpgrade (host : String) : Except Ended (List UInt8) :=
  if (upgradeRequest host).length ≤ 256 then .ok (upgradeRequest host) else .error .panics

/-- How the firmware ends without the end of the headers. -/
def headersError : NoHeaders → Ended
  | .full => .upgrade
  | .closed => .io
  | .refused _ => .upgrade
  | .blocked => .blocked

/-- Calls `next_frame` until it returns a frame of this kind. -/
def awaitFrame (kind : FrameType) : ℕ → FrameReader → List UInt8 → List (List UInt8) →
    Except Ended (List UInt8 × FrameReader × List UInt8 × List (List UInt8))
  | 0, _, _, _ => .error .spins
  | k + 1, reader, staged, reads =>
      match nextFrame reader staged reads with
      | .returned s raw reads =>
          if raw.1 = kind then .ok (raw.2, s.reader, s.staged, reads)
          else awaitFrame kind k s.reader s.staged reads
      | .protocol => .error .protocol
      | .io => .error .io
      | .blocked => .error .blocked
      | .spins => .error .spins

/-- `handshake`, and the `NotePreferred` with which `pump` starts. -/
def login (P : Primitives) (host : String) (nodeSecret nodePublic : Key) (nonce : BoxNonce)
    (socket : List (List UInt8)) : Except Ended LoggedIn := do
  let request ← buildUpgrade host
  let (staged, socket) ← (awaitHeaders stagedSize (fun buf _ => switching.isPrefixOf buf)
    (stagedSize + 1) [] socket).mapError headersError
  -- anything past the headers is already framed DERP
  let reads := Socket.reads stagedSize socket
  let k := staged.length + reads.flatten.length + 1
  let (payload, reader, staged, reads) ← awaitFrame .serverKey k .new staged reads
  let serverKey ← (parseServerKey payload).mapError fun _ => .protocol
  let info ← (clientInfoPayload P nodeSecret nodePublic serverKey nonce 256).mapError
    fun _ => .protocol
  let info ← (frameBytes .clientInfo info).mapError fun _ => .protocol
  let (payload, reader, staged, reads) ← awaitFrame .serverInfo k reader staged reads
  let _ ← (Derp.open P nodeSecret serverKey payload).mapError fun _ => .protocol
  let preferred ← (frameBytes .notePreferred [1]).mapError fun _ => .protocol
  return ⟨serverKey, request ++ info ++ preferred, reader, staged, reads⟩

/-- What the frames of the relay come to: its key, and the frames behind. -/
def accept (P : Primitives) (nodeSecret : Key) (frames : List RawFrame) :
    Except Ended (Key × List RawFrame) :=
  match frames.dropWhile fun f => f.type ≠ .serverKey with
  | [] => .error .blocked
  | f :: rest =>
      match parseServerKey (f.payload.take 512) with
      | .error _ => .error .protocol
      | .ok key =>
          match rest.dropWhile fun f => f.type ≠ .serverInfo with
          | [] => .error .blocked
          | g :: later =>
              match Derp.open P nodeSecret key (g.payload.take 512) with
              | .error _ => .error .protocol
              | .ok _ => .ok (key, later)

theorem length_wires_cons (f : RawFrame) (fs : List RawFrame) :
    (wires fs).length < (wires (f :: fs)).length := by
  rw [wires_cons, List.length_append, RawFrame.wire, List.length_append, f.length_head]
  have : 0 < headerLen := by decide
  omega

theorem awaitFrame_eq (kind : FrameType) {k : ℕ} {reader : FrameReader} {staged : List UInt8}
    {reads : List (List UInt8)} {frames : List RawFrame} (h : At format reader [])
    (hflow : Socket.Flowing reads) (hbytes : staged ++ reads.flatten = wires frames)
    (hk : (wires frames).length < k) :
    match frames.dropWhile fun f => f.type ≠ kind with
    | [] => awaitFrame kind k reader staged reads = .error .blocked
    | f :: rest => ∃ reader' staged' reads',
        awaitFrame kind k reader staged reads =
          .ok (f.payload.take 512, reader', staged', reads') ∧
        At format reader' [] ∧ staged' ++ reads'.flatten = wires rest ∧
        Socket.Flowing reads' := by
  induction frames generalizing k reader staged reads with
  | nil =>
    obtain ⟨k, rfl⟩ : ∃ n, k = n + 1 := ⟨k - 1, by omega⟩
    obtain ⟨rfl, hnil⟩ := List.append_eq_nil_iff.mp hbytes
    have hreads : reads = [] := by
      rcases reads with - | ⟨bytes, reads⟩
      · rfl
      · exact absurd (List.append_eq_nil_iff.mp hnil).1 (hflow bytes List.mem_cons_self)
    subst hreads
    show awaitFrame kind (k + 1) reader [] [] = .error .blocked
    rw [awaitFrame, nextFrame_blocked]
  | cons f frames ih =>
    obtain ⟨k, rfl⟩ : ∃ n, k = n + 1 := ⟨k - 1, by omega⟩
    obtain ⟨s, reads', he, hplace, hleft, hflow'⟩ := nextFrame_wires h hflow hbytes
    have hlt := length_wires_cons f frames
    by_cases hkind : f.type = kind
    · rw [List.dropWhile_cons_of_neg (by simp [hkind])]
      refine ⟨s.reader, s.staged, reads', ?_, hplace, hleft, hflow'⟩
      rw [awaitFrame, he]
      simp only [hkind, if_true]
    · rw [List.dropWhile_cons_of_pos (by simp [hkind]), awaitFrame, he]
      simp only [hkind, if_false]
      exact ih hplace hflow' hleft (by omega)

variable {P : Primitives} {host : String} {head : List UInt8} {frames : List RawFrame}
  {socket : List (List UInt8)}

/-- What the handshake writes. -/
def sentTo (P : Primitives) (host : String) (nodeSecret nodePublic key : Key) (nonce : BoxNonce) :
    List UInt8 :=
  match clientInfoPayload P nodeSecret nodePublic key nonce 256 with
  | .error _ => []
  | .ok info =>
      upgradeRequest host ++ (FrameType.clientInfo.toU8 :: Bytes.toBE 4 info.length ++ info) ++
        [FrameType.notePreferred.toU8, 0, 0, 0, 1, 1]

/-- **What the firmware comes to is a function of the frames**, in whatever
segments they and the headers arrive. -/
theorem login_eq (hB : P.BoxLawful) (hhost : (upgradeRequest host).length ≤ 256)
    (nodeSecret nodePublic : Key) (nonce : BoxNonce) (hhead : Headers head)
    (hsize : head.length ≤ stagedSize) (hflow : Socket.Flowing socket)
    (hbytes : socket.flatten = head ++ wires frames) :
    if switching.isPrefixOf head then
      match accept P nodeSecret frames with
      | .error e => login P host nodeSecret nodePublic nonce socket = .error e
      | .ok (key, later) => ∃ l, login P host nodeSecret nodePublic nonce socket = .ok l ∧
          l.serverKey = key ∧ l.sent = sentTo P host nodeSecret nodePublic key nonce ∧
          At format l.reader [] ∧ l.staged ++ l.reads.flatten = wires later
    else login P host nodeSecret nodePublic nonce socket = .error .upgrade := by
  have hup := awaitHeaders_start (fun buf _ => switching.isPrefixOf buf) hhead hsize
    hhead.switching_append hflow hbytes
  have hrequest : buildUpgrade host = .ok (upgradeRequest host) := if_pos hhost
  unfold login
  rw [hrequest]
  cases hs : switching.isPrefixOf head with
  | false =>
    rw [hs] at hup
    obtain ⟨buf', hup⟩ := hup
    show (_ : Except Ended LoggedIn) = _
    rw [hup]
    rfl
  | true =>
    rw [hs] at hup
    obtain ⟨staged, socket', hup, hleft, hflow'⟩ := hup
    obtain ⟨hreads, hreadsflow⟩ := Socket.reads_spec hflow' (show 0 < stagedSize by decide)
    rw [← hreads] at hleft
    have hk : (wires frames).length < staged.length +
        (Socket.reads stagedSize socket').flatten.length + 1 := by
      rw [← hleft, List.length_append]
      exact Nat.lt_succ_self _
    have hnew : At format FrameReader.new [] := At.start format ⟨.unknown, 0⟩
    have hkey := awaitFrame_eq .serverKey hnew hreadsflow hleft hk
    simp only [hup, Except.mapError, if_true, accept, bind, Except.bind]
    rcases hd : frames.dropWhile fun f => f.type ≠ .serverKey with - | ⟨f, rest⟩
    · simp only [hd] at hkey ⊢
      rw [hkey]
    simp only [hd] at hkey ⊢
    obtain ⟨reader', staged', reads', hf, hplace, hleft', hflow''⟩ := hkey
    rw [hf]
    rcases hp : parseServerKey (f.payload.take 512) with e | key
    · simp only [hp]
    obtain ⟨info, hinfo, hlen⟩ := clientInfoPayload_ok hB nodeSecret nodePublic key nonce
    have hframe := frameBytes_eq ⟨FrameType.clientInfo.toU8, info, hlen⟩ .clientInfo rfl
    have hpreferred := frameBytes_eq ⟨FrameType.notePreferred.toU8, [1], by decide⟩
      .notePreferred rfl
    have hshort : (wires rest).length ≤ (wires frames).length := by
      have hsplit := List.takeWhile_append_dropWhile (p := fun f => decide (f.type ≠ .serverKey))
        (l := frames)
      rw [hd] at hsplit
      rw [← hsplit]
      simp only [wires, List.map_append, List.flatten_append, List.length_append, List.map_cons,
        List.flatten_cons]
      omega
    have hinfoFrame := awaitFrame_eq .serverInfo hplace hflow'' hleft'
      (Nat.lt_of_le_of_lt hshort hk)
    simp only [hp, hinfo, hframe]
    rcases hd' : rest.dropWhile fun f => f.type ≠ .serverInfo with - | ⟨g, later⟩
    · simp only [hd'] at hinfoFrame ⊢
      rw [hinfoFrame]
    simp only [hd'] at hinfoFrame ⊢
    obtain ⟨reader₂, staged₂, reads₂, hg, hplace₂, hleft₂, -⟩ := hinfoFrame
    rw [hg]
    rcases ho : Derp.open P nodeSecret key (g.payload.take 512) with e | text
    · simp only [ho]
    simp only [ho, hpreferred]
    refine ⟨_, rfl, rfl, ?_, hplace₂, hleft₂⟩
    rw [sentTo, hinfo]
    rfl

theorem login_ok (hB : P.BoxLawful) (hhost : (upgradeRequest host).length ≤ 256)
    {nodeSecret nodePublic : Key} {nonce : BoxNonce} (hhead : Headers head)
    (hsize : head.length ≤ stagedSize) (hflow : Socket.Flowing socket)
    (hbytes : socket.flatten = head ++ wires frames) {l : LoggedIn}
    (hl : login P host nodeSecret nodePublic nonce socket = .ok l) :
    switching.isPrefixOf head ∧ ∃ key later, accept P nodeSecret frames = .ok (key, later) ∧
      l.serverKey = key ∧ l.sent = sentTo P host nodeSecret nodePublic key nonce ∧
      l.staged ++ l.reads.flatten = wires later := by
  have h := login_eq hB hhost nodeSecret nodePublic nonce hhead hsize hflow hbytes
  rw [hl] at h
  by_cases hs : switching.isPrefixOf head = true
  · rw [if_pos hs] at h
    rcases ha : accept P nodeSecret frames with e | ⟨key, later⟩
    · rw [ha] at h
      cases h
    · rw [ha] at h
      obtain ⟨l', hl', hkey, hsent, -, hleft⟩ := h
      obtain rfl := Except.ok.inj hl'
      exact ⟨hs, key, later, rfl, hkey, hsent, hleft⟩
  · rw [if_neg hs] at h
    cases h

theorem dropWhile_kind {kind : FrameType} {before rest : List RawFrame} {f : RawFrame}
    (hbefore : ∀ g ∈ before, g.type ≠ kind) (hf : f.type = kind) :
    (before ++ f :: rest).dropWhile (fun g => decide (g.type ≠ kind)) = f :: rest := by
  rw [List.dropWhile_append_of_pos (by simpa using hbefore),
    List.dropWhile_cons_of_neg (by simp [hf])]

/-- The frame in which a relay names itself. -/
def serverKeyFrame (relay : Key) : RawFrame :=
  ⟨FrameType.serverKey.toU8, magic ++ relay.toList, by
    rw [List.length_append, Vector.length_toList]
    decide +kernel⟩

theorem parseServerKey_frame (relay : Key) :
    parseServerKey ((serverKeyFrame relay).payload.take 512) = .ok relay := by
  have hmagic : magic.length = 8 := by decide +kernel
  have hlen : (magic ++ relay.toList).length = 40 := by
    rw [List.length_append, Vector.length_toList, hmagic]
  have hread : Bytes.read 32 (magic ++ relay.toList) magic.length = relay := by
    apply Bytes.read_eq
    rw [Bytes.slice, List.drop_left, Nat.add_sub_cancel_left, List.take_of_length_le]
    rw [Vector.length_toList]
  have hpre : magic.isPrefixOf (magic ++ relay.toList) = true :=
    List.isPrefixOf_iff_prefix.mpr (List.prefix_append _ _)
  rw [serverKeyFrame, List.take_of_length_le (by rw [hlen]; decide), parseServerKey,
    if_neg (by rw [hlen, hmagic, hpre]; decide), hread]

/-- **A relay that knows the node lets it in.**  The relay answers the upgrade,
names its key, seals its answer to the node and goes on with other frames, and it
may send frames of other kinds at any time.  In whatever segments all of this
arrives, the firmware logs in; the relay opens its box and reads the version; and
`pump`, whatever its reads return and however outbound packets cancel them, takes
what they return and hands over those frames behind the handshake that are complete
in it, in order and each once.  The limits are the firmware's: 256 bytes of request,
1024 bytes of answer, and 512 bytes of the frames of the handshake. -/
theorem relay_lets_in (hB : P.BoxLawful) (hhost : (upgradeRequest host).length ≤ 256)
    (node relay : Key) (nonce nonce' : BoxNonce) (hhead : Headers head)
    (hsize : head.length ≤ stagedSize) (hswitch : switching <+: head)
    (before between later : List RawFrame) (hbefore : ∀ f ∈ before, f.type ≠ .serverKey)
    (hbetween : ∀ f ∈ between, f.type ≠ .serverInfo) (text : List UInt8) (info : RawFrame)
    (hinfo : info.type = .serverInfo)
    (hsealed : Derp.seal P relay (P.x25519Base node) nonce' text 512 = .ok info.payload)
    (hflow : Socket.Flowing socket)
    (hbytes : socket.flatten = head ++
      wires (before ++ serverKeyFrame (P.x25519Base relay) :: (between ++ info :: later))) :
    ∃ l sealed, login P host node (P.x25519Base node) nonce socket = .ok l ∧
      l.serverKey = P.x25519Base relay ∧
      l.sent = upgradeRequest host ++
        (FrameType.clientInfo.toU8 :: Bytes.toBE 4 (keyLen + sealed.length) ++
          ((P.x25519Base node).toList ++ sealed)) ++ [FrameType.notePreferred.toU8, 0, 0, 0, 1, 1] ∧
      Derp.open P relay (P.x25519Base node) sealed = .ok versionText ∧
      l.staged ++ l.reads.flatten = wires later ∧
      ∀ events, ∃ s done todo unfinished,
        (Parser.start l.reader l.staged).run l.reads.flatten events =
          (s, l.reads.flatten.drop (returned events), done.map handed,
            if .closed ∈ events then .io else .wait) ∧
        later = done ++ todo ∧
        l.staged ++ l.reads.flatten.take (returned events) = wires done ++ unfinished ∧
        (∀ f ∈ todo.head?, unfinished.length < f.wire.length) ∧
        (l.reads.flatten.length ≤ returned events → done = later) := by
  have hlogin := login_eq hB hhost node (P.x25519Base node) nonce hhead hsize hflow hbytes
  have hkeytype : (serverKeyFrame (P.x25519Base relay)).type = .serverKey :=
    FrameType.fromU8_toU8 .serverKey
  obtain ⟨sealed', hsealed', hlen', hopen'⟩ : ∃ sealed,
      Derp.seal P relay (P.x25519Base node) nonce' text 512 = .ok sealed ∧
      sealed.length ≤ 512 ∧ Derp.open P node (P.x25519Base relay) sealed = .ok text := by
    have hfits : sealOverhead + text.length ≤ 512 := by
      by_contra hno
      rw [Derp.seal, if_pos (Nat.not_le.mp hno)] at hsealed
      cases hsealed
    obtain ⟨sealed, hseal, hlen, hopen⟩ := open_seal hB relay node nonce' hfits
    exact ⟨sealed, hseal, by rw [hlen]; exact hfits, hopen⟩
  obtain rfl : info.payload = sealed' := Except.ok.inj (hsealed.symm.trans hsealed')
  have haccept : accept P node (before ++ serverKeyFrame (P.x25519Base relay) ::
      (between ++ info :: later)) = .ok (P.x25519Base relay, later) := by
    simp only [accept, dropWhile_kind hbefore hkeytype, parseServerKey_frame,
      dropWhile_kind hbetween hinfo, List.take_of_length_le hlen', hopen']
  rw [if_pos (List.isPrefixOf_iff_prefix.mpr hswitch), haccept] at hlogin
  obtain ⟨l, hl, hkey, hsent, hplace, hleft⟩ := hlogin
  obtain ⟨payload, hpayload, -, hfront, hopen⟩ := clientInfoPayload_opens hB node relay nonce
  have hpsplit : payload = (P.x25519Base node).toList ++ payload.drop keyLen := by
    rw [← hfront, List.take_append_drop]
  have hplen : payload.length = keyLen + (payload.drop keyLen).length := by
    conv_lhs => rw [hpsplit]
    rw [List.length_append, Vector.length_toList]
    rfl
  refine ⟨l, payload.drop keyLen, hl, hkey, ?_, hopen, hleft, fun events => ?_⟩
  · rw [hsent, sentTo, hpayload, ← hpsplit, ← hplen]
  · obtain ⟨s, done, todo, unfinished, he, hfs, hfront, -, hnext, hall⟩ :=
      Parser.run_start events hplace hleft
    exact ⟨s, done, todo, unfinished, he, hfs, hfront, hnext, hall⟩

/-- A relay that greets, and that keeps alive between its two frames; the first
byte arrives alone.  One read of `pump` then returns what is left. -/
theorem relay_lets_in_talkative :
    let P := checksumPrimitives
    let node : Key := Vector.replicate 32 1
    let relay : Key := Vector.replicate 32 2
    let nonce : BoxNonce := Vector.replicate 24 3
    let head := "HTTP/1.1 101 Switching Protocols\r\n\r\n".toUTF8.toList
    let health : RawFrame := ⟨FrameType.health.toU8, [104, 105], by decide⟩
    let keepAlive : RawFrame := ⟨FrameType.keepAlive.toU8, [], by decide⟩
    let tag : Vector UInt8 16 := Vector.ofFn fun i => checksumByte nonce.toList (UInt8.ofNat i)
    let info : RawFrame := ⟨FrameType.serverInfo.toU8, nonce.toList ++ tag.toList, by decide⟩
    let bytes := head ++ wires ([health] ++ serverKeyFrame (P.x25519Base relay) ::
      ([keepAlive] ++ info :: [keepAlive, health]))
    ∃ l sealed s, login P "a" node (P.x25519Base node) nonce [bytes.take 1, bytes.drop 1] = .ok l ∧
      l.serverKey = P.x25519Base relay ∧
      Derp.open P relay (P.x25519Base node) sealed = .ok versionText ∧
      (Parser.start l.reader l.staged).run l.reads.flatten [.read 1023] =
        (s, [], [(.keepAlive, []), (.health, [104, 105])], .wait) := by
  intro P node relay nonce head health keepAlive tag info bytes
  have hhost : (upgradeRequest "a").length ≤ 256 := by decide +kernel
  have hhead : Headers head := by decide +kernel
  have hflow : Socket.Flowing [bytes.take 1, bytes.drop 1] := by decide +kernel
  have hbytes : [bytes.take 1, bytes.drop 1].flatten = bytes := by
    rw [List.flatten_cons, List.flatten_singleton, List.take_append_drop]
  obtain ⟨l, sealed, hl, hkey, -, hopen, hleft, hpump⟩ := relay_lets_in
    checksumPrimitives_boxLawful hhost node relay nonce nonce hhead (by decide +kernel)
    (List.isPrefixOf_iff_prefix.mp (by decide +kernel)) [health] [keepAlive] [keepAlive, health]
    (by decide +kernel) (by decide +kernel) [] info rfl (by decide +kernel) hflow hbytes
  have hread : l.reads.flatten.length ≤ returned [.read 1023] := by
    have hlen := congrArg List.length hleft
    have hlater : (wires [keepAlive, health]).length = 12 := by decide +kernel
    have hreturned : returned [.read 1023] = 1024 := by decide
    rw [List.length_append, hlater] at hlen
    omega
  obtain ⟨s, done, todo, unfinished, he, -, -, -, hall⟩ := hpump [.read 1023]
  rw [hall hread, List.drop_eq_nil_of_le hread] at he
  exact ⟨l, sealed, s, hl, hkey, hopen, he⟩

end RelayLogin

end Lando.Fw

/-! ### The host -/

namespace Lando.Derp.DerpClient

open Framing

/-- The reads as the socket reports them, none of which times out. -/
def dataEvents (reads : List (List UInt8)) : List SocketEvent :=
  reads.filterMap fun
    | [] => none
    | b :: bs => some (.data b bs)

theorem delivered_dataEvents (reads : List (List UInt8)) :
    delivered (dataEvents reads) = reads.flatten := by
  induction reads with
  | nil => rfl
  | cons bytes reads ih =>
    cases bytes with
    | nil => exact ih
    | cons b bs =>
      show b :: bs ++ delivered (dataEvents reads) = _
      rw [ih]
      rfl

/-- Every read returns bytes. -/
def AllData (schedule : List SocketEvent) : Prop :=
  ∀ e ∈ schedule, ∃ first rest, e = .data first rest

theorem allData_dataEvents (reads : List (List UInt8)) : AllData (dataEvents reads) := by
  intro e he
  obtain ⟨bytes, -, heq⟩ := List.mem_filterMap.mp he
  cases bytes with
  | nil => cases heq
  | cons b bs => exact ⟨b, bs, (Option.some.inj heq).symm⟩

/-- A call returns the next frame, whole, while nothing times out. -/
theorem assemble_next {c : DerpClient} {p : List UInt8} {f : Wire format} {fs : List (Wire format)}
    {schedule : List SocketEvent} (h : At format c.reader p) (hpos : c.pos ≤ c.pending.length)
    (hdata : AllData schedule)
    (hbytes : p ++ c.rest ++ delivered schedule = stream (f :: fs)) :
    ∃ c' schedule', c.assemble (format.streamed p) schedule =
        (c', .returned (.ok (some (rawOf f))), schedule') ∧
      At format c'.reader [] ∧ c'.pos ≤ c'.pending.length ∧ AllData schedule' ∧
      c'.rest ++ delivered schedule' = stream fs := by
  induction schedule generalizing c p with
  | nil =>
    have hd := drainPending_spec c.rest.length h hpos (Nat.le_refl _)
      (show format.streamed p = [] ++ format.streamed p from rfl)
    unfold assemble
    generalize drainPending c.rest.length c (format.streamed p) = res at hd
    cases hd with
    | @frame c' raw f' place pos_le split shorter yields =>
      rw [split, List.append_assoc] at hbytes
      obtain ⟨fs', hfs, hrest⟩ := stream_eq_frame hbytes.symm
      obtain ⟨rfl, rfl⟩ := List.cons.inj hfs
      exact ⟨c', [], by rw [yields.eq_iff.mpr rfl], place, pos_le, hdata, hrest.symm⟩
    | @error c' e hd tail split len refused =>
      rw [split, List.append_assoc] at hbytes
      exact absurd hbytes (stream_ne_refused _ len (by rw [refused]; exact Option.some_ne_none _) _)
    | @more c' assembled' place streamed =>
      rw [delivered, List.append_nil] at hbytes
      exact absurd hbytes (place.noFrame f (stream fs))
  | cons e schedule ih =>
    have hd := drainPending_spec c.rest.length h hpos (Nat.le_refl _)
      (show format.streamed p = [] ++ format.streamed p from rfl)
    obtain ⟨first, rest, rfl⟩ := hdata e List.mem_cons_self
    unfold assemble
    generalize drainPending c.rest.length c (format.streamed p) = res at hd
    cases hd with
    | @frame c' raw f' place pos_le split shorter yields =>
      rw [split, List.append_assoc] at hbytes
      obtain ⟨fs', hfs, hrest⟩ := stream_eq_frame hbytes.symm
      obtain ⟨rfl, rfl⟩ := List.cons.inj hfs
      exact ⟨c', _, by rw [yields.eq_iff.mpr rfl], place, pos_le, hdata, hrest.symm⟩
    | @error c' e hd tail split len refused =>
      rw [split, List.append_assoc] at hbytes
      exact absurd hbytes (stream_ne_refused _ len (by rw [refused]; exact Option.some_ne_none _) _)
    | @more c' assembled' place streamed =>
      have hbytes' : p ++ c.rest ++ (first :: rest) ++ delivered schedule =
          stream (f :: fs) := by
        rw [← hbytes, delivered, List.append_assoc]
      have hnext := ih (c := { c' with pending := first :: rest, pos := 0 }) place
        (Nat.zero_le _) (fun e he => hdata e (List.mem_cons_of_mem _ he)) hbytes'
      rw [streamed] at hnext
      exact hnext

theorem nextRawFrame_next {c : DerpClient} {f : RawFrame} {fs : List RawFrame}
    {schedule : List SocketEvent} (h : At format c.reader []) (hpos : c.pos ≤ c.pending.length)
    (hdata : AllData schedule) (hbytes : c.rest ++ delivered schedule = wires (f :: fs)) :
    ∃ c' schedule', c.nextRawFrame schedule = (c', .returned (.ok (some f.raw)), schedule') ∧
      At format c'.reader [] ∧ c'.pos ≤ c'.pending.length ∧ AllData schedule' ∧
      c'.rest ++ delivered schedule' = wires fs := by
  rw [← stream_toWire] at hbytes
  obtain ⟨c', schedule', he, hplace, hpos', hdata', hleft⟩ :=
    assemble_next h hpos hdata hbytes
  rw [rawOf_toWire] at he
  rw [stream_toWire] at hleft
  exact ⟨c', schedule', he, hplace, hpos', hdata', hleft⟩

end Lando.Derp.DerpClient

namespace Lando.Host.RelayLogin

open Derp DerpClient Framing

/-- How `connect` fails, by the text of its error. -/
inductive ConnectError
  /-- "upgrade response exceeded buffer". -/
  | exceeded
  /-- "relay closed during upgrade". -/
  | closed
  /-- "relay refused the upgrade: …". -/
  | refused (buf : List UInt8)
  /-- "timed out waiting for a relay frame": a read waits for thirty seconds
  before it times out, and the deadline is twenty. -/
  | timedOut
  /-- What `next_raw_frame` reports. -/
  | reading (e : String)
  /-- "expected ServerKey, got …" and "expected ServerInfo, got …". -/
  | expected (kind got : FrameType)
  /-- "bad ServerKey frame: …". -/
  | badServerKey (e : DerpError)
  /-- "building ClientInfo: …". -/
  | building (e : DerpError)
  /-- "opening ServerInfo: …". -/
  | opening (e : DerpError)
  /-- "framing: …". -/
  | framing (e : DerpError)
  | blocked
  | spins
  deriving DecidableEq

/-- The client, the relay's key, what was written, and the reads still to
come. -/
structure Connected where
  client : DerpClient
  serverKey : Key
  sent : List UInt8
  schedule : List SocketEvent

/-- How the host ends without the end of the headers. -/
def headersError : NoHeaders → ConnectError
  | .full => .exceeded
  | .closed => .closed
  | .refused buf => .refused buf
  | .blocked => .blocked

/-- The test of the status line: ASCII text starts the lossy text of some bytes
exactly where it starts the bytes. -/
def accepts (buf : List UInt8) (headersEnd : ℕ) : Bool :=
  switching.isPrefixOf (buf.take (min headersEnd 64))

/-- `next_frame_blocking`. -/
def nextFrameBlocking (c : DerpClient) (schedule : List SocketEvent) :
    Except ConnectError (Raw × DerpClient × List SocketEvent) :=
  match c.nextRawFrame schedule with
  | (c, .returned (.ok (some raw)), schedule) => .ok (raw, c, schedule)
  | (_, .returned (.ok none), _) => .error .timedOut
  | (_, .returned (.error e), _) => .error (.reading e)
  | (_, .blocked, _) => .error .blocked
  | (_, .spins, _) => .error .spins

/-- A frame, which must be of this kind. -/
def expectFrame (kind : FrameType) (c : DerpClient) (schedule : List SocketEvent) :
    Except ConnectError (List UInt8 × DerpClient × List SocketEvent) := do
  let (raw, c, schedule) ← nextFrameBlocking c schedule
  if raw.1 = kind then .ok (raw.2, c, schedule) else .error (.expected kind raw.1)

/-- `connect`, from the upgrade on. -/
def connect (P : Primitives) (host : String) (nodeSecret nodePublic : Key) (nonce : BoxNonce)
    (socket : List (List UInt8)) : Except ConnectError Connected := do
  let (pending, socket) ← (awaitHeaders 4096 accepts 4097 [] socket).mapError headersError
  let (payload, c, schedule) ← expectFrame .serverKey ⟨.new, pending, 0⟩
    (dataEvents (Socket.reads 8192 socket))
  let serverKey ← (parseServerKey payload).mapError .badServerKey
  let info ← (clientInfoPayload P nodeSecret nodePublic serverKey nonce 256).mapError .building
  let info ← (frameBytes .clientInfo info).mapError .framing
  let (payload, c, schedule) ← expectFrame .serverInfo c schedule
  let _ ← (Derp.open P nodeSecret serverKey payload).mapError .opening
  let preferred ← (frameBytes .notePreferred [1]).mapError .framing
  return ⟨c, serverKey, upgradeRequest host ++ info ++ preferred, schedule⟩

/-- What the frames of the relay come to: its key, and the frames behind. -/
def accept (P : Primitives) (nodeSecret : Key) : List RawFrame →
    Except ConnectError (Key × List RawFrame)
  | [] => .error .blocked
  | f :: rest =>
      if f.type = .serverKey then
        match parseServerKey (f.payload.take 512) with
        | .error e => .error (.badServerKey e)
        | .ok key =>
            match rest with
            | [] => .error .blocked
            | g :: later =>
                if g.type = .serverInfo then
                  match Derp.open P nodeSecret key (g.payload.take 512) with
                  | .error e => .error (.opening e)
                  | .ok _ => .ok (key, later)
                else .error (.expected .serverInfo g.type)
      else .error (.expected .serverKey f.type)

theorem raw_control {f : RawFrame} (h : f.type.isControl = true) :
    f.raw = (f.type, f.payload.take 512) := by
  rw [RawFrame.raw, RawFrame.whole, h, Bool.true_or, if_pos rfl]
  rfl

theorem nextFrameBlocking_blocked {c : DerpClient} (hpos : c.pos ≤ c.pending.length)
    {schedule : List SocketEvent} (hdata : AllData schedule)
    (hbytes : c.rest ++ delivered schedule = []) :
    nextFrameBlocking c schedule = .error .blocked := by
  obtain ⟨hrest, hdel⟩ := List.append_eq_nil_iff.mp hbytes
  have hend : c.pos = c.pending.length := by
    have hlen := c.length_rest
    rw [hrest, List.length_nil] at hlen
    omega
  have hnone : schedule = [] := by
    rcases schedule with - | ⟨e, schedule⟩
    · rfl
    · obtain ⟨first, rest, rfl⟩ := hdata e List.mem_cons_self
      cases hdel
  subst hnone
  rw [nextFrameBlocking, nextRawFrame, DerpClient.assemble, hrest, List.length_nil, drainPending,
    if_pos hend]

theorem expectFrame_eq (kind : FrameType) (hkind : kind.isControl = true) (c : DerpClient)
    {schedule : List SocketEvent} {frames : List RawFrame} (h : At format c.reader [])
    (hpos : c.pos ≤ c.pending.length) (hdata : AllData schedule)
    (hbytes : c.rest ++ delivered schedule = wires frames) :
    match frames with
    | [] => expectFrame kind c schedule = .error .blocked
    | f :: rest =>
        if f.type = kind then
          ∃ c' schedule', expectFrame kind c schedule = .ok (f.payload.take 512, c', schedule') ∧
            At format c'.reader [] ∧ c'.pos ≤ c'.pending.length ∧ AllData schedule' ∧
            c'.rest ++ delivered schedule' = wires rest
        else expectFrame kind c schedule = .error (.expected kind f.type) := by
  cases frames with
  | nil =>
    show expectFrame kind c schedule = .error .blocked
    rw [expectFrame, nextFrameBlocking_blocked hpos hdata hbytes]
    rfl
  | cons f rest =>
    obtain ⟨c', schedule', he, hplace, hpos', hdata', hleft⟩ :=
      nextRawFrame_next h hpos hdata hbytes
    have hnext : nextFrameBlocking c schedule = .ok (f.raw, c', schedule') := by
      rw [nextFrameBlocking, he]
    show if f.type = kind then _ else _
    by_cases hf : f.type = kind
    · rw [if_pos hf]
      refine ⟨c', schedule', ?_, hplace, hpos', hdata', hleft⟩
      rw [expectFrame, hnext, raw_control (by rw [hf]; exact hkind)]
      exact if_pos hf
    · rw [if_neg hf, expectFrame, hnext]
      exact if_neg hf

theorem accepts_append (head more : List UInt8) :
    accepts (head ++ more) head.length = switching.isPrefixOf head := by
  have hmin : min head.length 64 ≤ head.length := Nat.min_le_left _ _
  rw [accepts, List.take_append_of_le_length hmin, Bool.eq_iff_iff, List.isPrefixOf_iff_prefix,
    List.isPrefixOf_iff_prefix]
  constructor
  · exact fun hpre => hpre.trans (List.take_prefix _ _)
  · intro hpre
    rw [List.prefix_take_iff]
    refine ⟨hpre, ?_⟩
    have hle := hpre.length_le
    have hlen : switching.length = 12 := by decide +kernel
    omega

variable {P : Primitives} {host : String} {head : List UInt8} {frames : List RawFrame}
  {socket : List (List UInt8)}

/-- **What the host comes to is a function of the frames**, in whatever segments
they and the headers arrive. -/
theorem connect_eq (hB : P.BoxLawful) (host : String) (nodeSecret nodePublic : Key) (nonce : BoxNonce)
    (hhead : Headers head) (hsize : head.length ≤ 4096) (hflow : Socket.Flowing socket)
    (hbytes : socket.flatten = head ++ wires frames) :
    if switching.isPrefixOf head then
      match accept P nodeSecret frames with
      | .error e => connect P host nodeSecret nodePublic nonce socket = .error e
      | .ok (key, later) => ∃ c, connect P host nodeSecret nodePublic nonce socket = .ok c ∧
          c.serverKey = key ∧ c.sent = Fw.RelayLogin.sentTo P host nodeSecret nodePublic key nonce ∧
          c.client.rest ++ delivered c.schedule = wires later
    else ∃ buf, connect P host nodeSecret nodePublic nonce socket = .error (.refused buf) := by
  have hup := awaitHeaders_start accepts hhead hsize (accepts_append head) hflow hbytes
  unfold connect
  cases hs : switching.isPrefixOf head with
  | false =>
    rw [hs] at hup
    obtain ⟨buf', hup⟩ := hup
    refine ⟨buf', ?_⟩
    rw [hup]
    rfl
  | true =>
    rw [hs] at hup
    obtain ⟨pending, socket', hup, hleft, hflow'⟩ := hup
    obtain ⟨hreads, -⟩ := Socket.reads_spec hflow' (show 0 < 8192 by decide)
    rw [← hreads, ← delivered_dataEvents] at hleft
    have hkey := expectFrame_eq .serverKey rfl ⟨.new, pending, 0⟩ (At.start format ⟨.unknown, 0⟩)
      (Nat.zero_le _) (allData_dataEvents _) hleft
    simp only [hup, Except.mapError, if_true, accept, bind, Except.bind]
    rcases frames with - | ⟨f, rest⟩
    · simp only at hkey ⊢
      rw [hkey]
    simp only at hkey ⊢
    by_cases hf : f.type = .serverKey
    · rw [if_pos hf] at hkey
      obtain ⟨c₁, schedule₁, he, hplace, hpos₁, hdata₁, hleft₁⟩ := hkey
      rw [he]
      simp only [hf, if_true]
      rcases hp : parseServerKey (f.payload.take 512) with e | key
      · simp only
      obtain ⟨info, hinfo, hlen⟩ :=
        clientInfoPayload_ok hB nodeSecret nodePublic key nonce
      have hframe := frameBytes_eq ⟨FrameType.clientInfo.toU8, info, hlen⟩ .clientInfo rfl
      have hpreferred := frameBytes_eq ⟨FrameType.notePreferred.toU8, [1], by decide⟩
        .notePreferred rfl
      have hinfoFrame := expectFrame_eq .serverInfo rfl c₁ hplace hpos₁ hdata₁ hleft₁
      simp only [hinfo, hframe]
      rcases rest with - | ⟨g, later⟩
      · simp only at hinfoFrame ⊢
        rw [hinfoFrame]
      simp only at hinfoFrame ⊢
      by_cases hg : g.type = .serverInfo
      · rw [if_pos hg] at hinfoFrame
        obtain ⟨c₂, schedule₂, he₂, -, -, -, hleft₂⟩ := hinfoFrame
        rw [he₂]
        simp only [hg, if_true]
        rcases ho : Derp.open P nodeSecret key (g.payload.take 512) with e | text
        · simp only
        simp only [hpreferred]
        refine ⟨_, rfl, rfl, ?_, hleft₂⟩
        rw [Fw.RelayLogin.sentTo, hinfo]
        rfl
      · rw [if_neg hg] at hinfoFrame
        rw [hinfoFrame]
        simp only [hg, if_false]
    · rw [if_neg hf] at hkey
      rw [hkey]
      simp only [hf, if_false]

/-- The host accepts what the firmware accepts when the two frames come first. -/
theorem accept_iff {nodeSecret key : Key} {later : List RawFrame} :
    accept P nodeSecret frames = .ok (key, later) ↔
      Fw.RelayLogin.accept P nodeSecret frames = .ok (key, later) ∧
        (frames.map RawFrame.type).take 2 = [.serverKey, .serverInfo] := by
  rcases frames with - | ⟨f, rest⟩
  · simp [accept, Fw.RelayLogin.accept]
  by_cases hf : f.type = .serverKey
  · rcases hp : parseServerKey (f.payload.take 512) with e | key'
    · simp [accept, Fw.RelayLogin.accept, hf, hp]
    rcases rest with - | ⟨g, later'⟩
    · simp [accept, Fw.RelayLogin.accept, hf, hp]
    by_cases hg : g.type = .serverInfo
    · rcases ho : Derp.open P nodeSecret key' (g.payload.take 512) with e | text
      · simp [accept, Fw.RelayLogin.accept, hf, hp, hg, ho]
      · simp [accept, Fw.RelayLogin.accept, hf, hp, hg, ho]
    · simp [accept, hf, hp, hg]
  · simp [accept, hf]

theorem connect_ok (hB : P.BoxLawful) {nodeSecret nodePublic : Key} {nonce : BoxNonce}
    (hhead : Headers head) (hsize : head.length ≤ 4096) (hflow : Socket.Flowing socket)
    (hbytes : socket.flatten = head ++ wires frames) {c : Connected}
    (hc : connect P host nodeSecret nodePublic nonce socket = .ok c) :
    switching.isPrefixOf head ∧ ∃ key later, accept P nodeSecret frames = .ok (key, later) ∧
      c.serverKey = key ∧ c.sent = Fw.RelayLogin.sentTo P host nodeSecret nodePublic key nonce ∧
      c.client.rest ++ delivered c.schedule = wires later := by
  have h := connect_eq hB host nodeSecret nodePublic nonce hhead hsize hflow hbytes
  rw [hc] at h
  by_cases hs : switching.isPrefixOf head = true
  · rw [if_pos hs] at h
    rcases ha : accept P nodeSecret frames with e | ⟨key, later⟩
    · rw [ha] at h
      cases h
    · rw [ha] at h
      obtain ⟨c', hc', h⟩ := h
      obtain rfl := Except.ok.inj hc'
      exact ⟨hs, key, later, rfl, h⟩
  · rw [if_neg hs] at h
    obtain ⟨buf, h⟩ := h
    cases h

/-- **The two clients and one relay.**  However the relay's bytes are cut for the
one and for the other, the host gets on exactly where the firmware does and the
relay's first two frames are the two that both expect.  Then both have the same
key of the relay, have written the same bytes, and have the same bytes before
them.  The request and the head of the answer are within the limits of the
firmware, 256 and 1024 bytes; the host's are 4096. -/
theorem connect_iff_login (hB : P.BoxLawful) (hhost : (upgradeRequest host).length ≤ 256)
    (nodeSecret nodePublic : Key) (nonce : BoxNonce) (hhead : Headers head)
    (hsize : head.length ≤ Fw.stagedSize) {socket' : List (List UInt8)}
    (hflow : Socket.Flowing socket) (hflow' : Socket.Flowing socket')
    (hbytes : socket.flatten = head ++ wires frames)
    (hbytes' : socket'.flatten = head ++ wires frames) :
    ((∃ c, connect P host nodeSecret nodePublic nonce socket = .ok c) ↔
      (∃ l, Fw.RelayLogin.login P host nodeSecret nodePublic nonce socket' = .ok l) ∧
        (frames.map RawFrame.type).take 2 = [.serverKey, .serverInfo]) ∧
    ∀ c l, connect P host nodeSecret nodePublic nonce socket = .ok c →
      Fw.RelayLogin.login P host nodeSecret nodePublic nonce socket' = .ok l →
      c.serverKey = l.serverKey ∧ c.sent = l.sent ∧
        c.client.rest ++ delivered c.schedule = l.staged ++ l.reads.flatten := by
  have hsize' : head.length ≤ 4096 := Nat.le_trans hsize (by decide)
  have hconnect := connect_eq hB host nodeSecret nodePublic nonce hhead hsize' hflow
    hbytes
  have hlogin := Fw.RelayLogin.login_eq hB hhost nodeSecret nodePublic nonce hhead hsize hflow'
    hbytes'
  refine ⟨⟨?_, ?_⟩, ?_⟩
  · rintro ⟨c, hc⟩
    obtain ⟨hs, key, later, ha, -⟩ := connect_ok hB hhead hsize' hflow hbytes hc
    obtain ⟨ha', htwo⟩ := accept_iff.mp ha
    rw [if_pos hs, ha'] at hlogin
    obtain ⟨l, hl, -⟩ := hlogin
    exact ⟨⟨l, hl⟩, htwo⟩
  · rintro ⟨⟨l, hl⟩, htwo⟩
    obtain ⟨hs, key, later, ha, -⟩ :=
      Fw.RelayLogin.login_ok hB hhost hhead hsize hflow' hbytes' hl
    rw [if_pos hs, accept_iff.mpr ⟨ha, htwo⟩] at hconnect
    obtain ⟨c, hc, -⟩ := hconnect
    exact ⟨c, hc⟩
  · intro c l hc hl
    obtain ⟨-, key, later, ha, hkey, hsent, hleft⟩ := connect_ok hB hhead hsize' hflow hbytes hc
    obtain ⟨-, key', later', ha', hkey', hsent', hleft'⟩ :=
      Fw.RelayLogin.login_ok hB hhost hhead hsize hflow' hbytes' hl
    obtain ⟨rfl, rfl⟩ := Prod.mk.inj (Except.ok.inj ((accept_iff.mp ha).1.symm.trans ha'))
    exact ⟨hkey.trans hkey'.symm, hsent.trans hsent'.symm, hleft.trans hleft'.symm⟩

/-- A relay that does nothing but let the client in, in one segment for the one
and in two for the other. -/
theorem connect_iff_login_curt :
    let P := checksumPrimitives
    let node : Key := Vector.replicate 32 1
    let relay : Key := Vector.replicate 32 2
    let nonce : BoxNonce := Vector.replicate 24 3
    let head := "HTTP/1.1 101 Switching Protocols\r\n\r\n".toUTF8.toList
    let tag : Vector UInt8 16 := Vector.ofFn fun i => checksumByte nonce.toList (UInt8.ofNat i)
    let info : RawFrame := ⟨FrameType.serverInfo.toU8, nonce.toList ++ tag.toList, by decide⟩
    let frames := [Fw.RelayLogin.serverKeyFrame (P.x25519Base relay), info]
    let bytes := head ++ wires frames
    (∃ c, connect P "a" node (P.x25519Base node) nonce [bytes] = .ok c) ↔
      (∃ l, Fw.RelayLogin.login P "a" node (P.x25519Base node) nonce
        [bytes.take 100, bytes.drop 100] = .ok l) ∧
        (frames.map RawFrame.type).take 2 = [.serverKey, .serverInfo] := by
  intro P node relay nonce head tag info frames bytes
  have hflow : Socket.Flowing [bytes] := by decide +kernel
  have hflow' : Socket.Flowing [bytes.take 100, bytes.drop 100] := by decide +kernel
  have hhost : (upgradeRequest "a").length ≤ 256 := by decide +kernel
  have hhead : Headers head := by decide +kernel
  have hbytes : [bytes].flatten = head ++ wires frames := List.flatten_singleton
  have hbytes' : [bytes.take 100, bytes.drop 100].flatten = head ++ wires frames := by
    rw [List.flatten_cons, List.flatten_singleton, List.take_append_drop]
  exact (connect_iff_login checksumPrimitives_boxLawful hhost node (P.x25519Base node) nonce hhead
    (by decide +kernel) hflow hflow' hbytes hbytes').1

end Lando.Host.RelayLogin
