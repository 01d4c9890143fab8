/-
Lando/NoiseResponder.lean

A Noise IK responder for the ts2021 handshake, and its agreement with the
client.

The responder is not translated from the source, which has none: it follows
the text of the Noise specification.  There a handshake pattern is a list of
tokens per message, and a party processes the tokens one by one with a
symmetric state of three parts: the chaining key, the hash, and a cipher
whose nonce counts up from zero whenever a key is mixed in.  IK is

    <- s
    ...
    -> e, es, s, ss
    <- e, ee, se

with a prologue that names the protocol version, and empty payloads.  Around
the Noise messages stand the frame headers of ts2021, which are not hashed.

Client and responder are run side by side: `ofClient` reads the client's
running state as the responder's, and every operation of one is an operation
of the other there.
-/
import Lando.NoiseHandshake

namespace Lando.Noise

open Bytes

variable (P : Primitives)

namespace Spec

/-! ### The symmetric state -/

/-- A cipher key, when there is one, and the nonce of its next use. -/
structure CipherState where
  k : Option Key
  n : ℕ

/-- Chaining key, hash and cipher. -/
structure SymmetricState where
  ck : Key
  h : Key
  cipher : CipherState

/-- 32 zero bits and the nonce, little-endian. -/
def chachaNonce (n : ℕ) : Nonce := ⟨(List.replicate 4 0 ++ toLE 8 n).toArray, by simp⟩

/-- `HKDF(chaining_key, input_key_material, 2)`. -/
def hkdf (ck : Key) (ikm : List UInt8) : Key × Key :=
  let tempKey := hmac P ck.toList [ikm]
  let output₁ := hmac P tempKey.toList [[0x01]]
  let output₂ := hmac P tempKey.toList [output₁.toList ++ [0x02]]
  (output₁, output₂)

namespace CipherState

/-- `EncryptWithAd`: without a key the text stands as it is. -/
def encryptWithAd (c : CipherState) (ad plaintext : List UInt8) :
    Option (CipherState × List UInt8) :=
  match c.k with
  | none => some (c, plaintext)
  | some k =>
      match P.encryptInPlaceDetached k (chachaNonce c.n) ad plaintext with
      | none => none
      | some (body, tag) => some ({ c with n := c.n + 1 }, body ++ tag.toList)

/-- `DecryptWithAd`: what has no valid tag fails. -/
def decryptWithAd (c : CipherState) (ad ciphertext : List UInt8) :
    Option (CipherState × List UInt8) :=
  match c.k with
  | none => some (c, ciphertext)
  | some k =>
      if ciphertext.length < 16 then none
      else
        let body := ciphertext.take (ciphertext.length - 16)
        let tag := read 16 ciphertext (ciphertext.length - 16)
        match P.decryptInPlaceDetached k (chachaNonce c.n) ad body tag with
        | none => none
        | some plaintext => some ({ c with n := c.n + 1 }, plaintext)

end CipherState

namespace SymmetricState

/-- A name of at most 32 bytes is padded, a longer one hashed. -/
def initial (name : List UInt8) : SymmetricState :=
  let h := if name.length ≤ 32 then read 32 name 0 else hash P name
  ⟨h, h, ⟨none, 0⟩⟩

/-- `MixKey`: a new cipher, whose nonce starts over. -/
def mixKey (st : SymmetricState) (ikm : List UInt8) : SymmetricState :=
  let (ck, tempK) := hkdf P st.ck ikm
  { st with ck := ck, cipher := ⟨some tempK, 0⟩ }

/-- `MixHash`: the text goes into the hash. -/
def mixHash (st : SymmetricState) (data : List UInt8) : SymmetricState :=
  { st with h := hash P (st.h.toList ++ data) }

/-- `EncryptAndHash`: the hash is the associated data, and takes the ciphertext in. -/
def encryptAndHash (st : SymmetricState) (plaintext : List UInt8) :
    Option (SymmetricState × List UInt8) := do
  let (cipher, ciphertext) ← st.cipher.encryptWithAd P st.h.toList plaintext
  return ({ st with cipher := cipher }.mixHash P ciphertext, ciphertext)

/-- `DecryptAndHash`: the hash takes in what was received. -/
def decryptAndHash (st : SymmetricState) (ciphertext : List UInt8) :
    Option (SymmetricState × List UInt8) := do
  let (cipher, plaintext) ← st.cipher.decryptWithAd P st.h.toList ciphertext
  return ({ st with cipher := cipher }.mixHash P ciphertext, plaintext)

/-- The keys of the two directions, the initiator's sending key first. -/
def split (st : SymmetricState) : Key × Key := hkdf P st.ck []

end SymmetricState

/-! ### Messages -/

/-- The tokens of a message pattern. -/
inductive Token
  | e
  | s
  | ee
  | es
  | se
  | ss
  deriving DecidableEq, Repr

/-- The messages of the pattern IK. -/
def messageIK : List Token × List Token := ([.e, .es, .s, .ss], [.e, .ee, .se])

/-- A party in the middle of a handshake. -/
structure HandshakeState where
  symmetric : SymmetricState
  initiator : Bool
  s : MachinePrivate
  e : Option MachinePrivate
  rs : Option MachinePublic
  re : Option MachinePublic

namespace HandshakeState

/-- The Diffie-Hellman of a token: the first letter is the initiator's key,
the second the responder's. -/
def dh (st : HandshakeState) : Token → Option Key
  | .ee => do return (← st.e).dh P (← st.re)
  | .es => if st.initiator then do return (← st.e).dh P (← st.rs) else do return st.s.dh P (← st.re)
  | .se => if st.initiator then do return st.s.dh P (← st.re) else do return (← st.e).dh P (← st.rs)
  | .ss => do return st.s.dh P (← st.rs)
  | .e => none
  | .s => none

/-- Processes one token of a message received; the result is the rest of the
message. -/
def readToken (st : HandshakeState) (msg : List UInt8) :
    Token → Option (HandshakeState × List UInt8)
  | .e =>
      if msg.length < 32 then none
      else
        let re : MachinePublic := ⟨read 32 msg 0⟩
        let symmetric := st.symmetric.mixHash P re.bytes.toList
        some ({ st with symmetric := symmetric, re := some re }, msg.drop 32)
  | .s => do
      let n := if st.symmetric.cipher.k.isSome then 32 + 16 else 32
      if msg.length < n then none
      else
        let (symmetric, temp) ← st.symmetric.decryptAndHash P (msg.take n)
        return ({ st with symmetric := symmetric, rs := some ⟨read 32 temp 0⟩ }, msg.drop n)
  | token => do
      let secret ← st.dh P token
      return ({ st with symmetric := st.symmetric.mixKey P secret.toList }, msg)

/-- The tokens of a message, as they are read. -/
def readTokens (st : HandshakeState) (msg : List UInt8) :
    List Token → Option (HandshakeState × List UInt8)
  | [] => some (st, msg)
  | token :: tokens => do
      let (st, msg) ← st.readToken P msg token
      st.readTokens msg tokens

/-- `ReadMessage`: the tokens, and then the payload. -/
def readMessage (st : HandshakeState) (tokens : List Token) (msg : List UInt8) :
    Option (HandshakeState × List UInt8) := do
  let (st, msg) ← st.readTokens P msg tokens
  let (symmetric, payload) ← st.symmetric.decryptAndHash P msg
  return ({ st with symmetric := symmetric }, payload)

/-- Processes one token of a message to send; `fresh` is the key pair that
an `e` generates. -/
def writeToken (st : HandshakeState) (fresh : MachinePrivate) :
    Token → Option (HandshakeState × List UInt8)
  | .e =>
      let pub := (fresh.public P).bytes.toList
      some ({ st with symmetric := st.symmetric.mixHash P pub, e := some fresh }, pub)
  | .s => do
      let (symmetric, field) ← st.symmetric.encryptAndHash P (st.s.public P).bytes.toList
      return ({ st with symmetric := symmetric }, field)
  | token => do
      let secret ← st.dh P token
      return ({ st with symmetric := st.symmetric.mixKey P secret.toList }, [])

/-- The tokens of a message, as they are written. -/
def writeTokens (st : HandshakeState) (fresh : MachinePrivate) :
    List Token → Option (HandshakeState × List UInt8)
  | [] => some (st, [])
  | token :: tokens => do
      let (st, field) ← st.writeToken P fresh token
      let (st, fields) ← st.writeTokens fresh tokens
      return (st, field ++ fields)

/-- `WriteMessage`. -/
def writeMessage (st : HandshakeState) (fresh : MachinePrivate) (tokens : List Token)
    (payload : List UInt8) : Option (HandshakeState × List UInt8) := do
  let (st, msg) ← st.writeTokens P fresh tokens
  let (symmetric, field) ← st.symmetric.encryptAndHash P payload
  return ({ st with symmetric := symmetric }, msg ++ field)

/-- The responder of IK before the first message: its static key is known to
both sides and hashed behind the prologue. -/
def responder (name prologue : List UInt8) (s : MachinePrivate) : HandshakeState where
  symmetric := ((SymmetricState.initial P name).mixHash P prologue).mixHash P
    (s.public P).bytes.toList
  initiator := false
  s := s
  e := none
  rs := none
  re := none

end HandshakeState

/-! ### The control server -/

/-- What the server knows of a client whose initiation it accepted. -/
structure Accepted where
  version : UInt16
  machine : MachinePublic
  state : HandshakeState

/-- The server before the first message of a client. -/
def server (version : UInt16) (control : MachinePrivate) : HandshakeState :=
  HandshakeState.responder P "Noise_IK_25519_ChaChaPoly_BLAKE2s".toUTF8.toList
    ("Tailscale Control Protocol v".toUTF8.toList ++ Decimal.ascii version.toNat) control

/-- The server reads an initiation: 5 bytes of header, and the first message
with an empty payload. -/
def accept (control : MachinePrivate) (msg : List UInt8) : Option Accepted := do
  if msg.length ≠ 101 ∨ msg.getD 2 0 ≠ 1 ∨ fromBE (slice msg 3 5) ≠ 96 then none
  else
    let version : UInt16 := .ofNat (fromBE (slice msg 0 2))
    let (st, payload) ← (server P version control).readMessage P messageIK.1 (msg.drop 5)
    if payload ≠ [] then none
    else return ⟨version, ← st.rs, st⟩

/-- The server answers: 3 bytes of header, and the second message; its
sending key is the second one. -/
def respond (acc : Accepted) (ephemeral : MachinePrivate) : Option (List UInt8 × Session) := do
  let (st, msg) ← acc.state.writeMessage P ephemeral messageIK.2 []
  let (k₁, k₂) := st.symmetric.split P
  return ([2] ++ toBE 2 48 ++ msg, ⟨k₂, k₁, 0, 0, st.symmetric.h⟩)

/-! ### Client and server side by side -/

variable {P}

theorem chachaNonce_zero : chachaNonce 0 = zeroNonce := by decide

theorem hkdf_eq (ck : Key) (ikm : List UInt8) :
    hkdf P ck ikm = ((kdf P 2 ck.toList ikm).get 0, (kdf P 2 ck.toList ikm).get 1) := by
  show hkdf P ck ikm = ((kdf P 2 ck.toList ikm)[0], (kdf P 2 ck.toList ikm)[1])
  simp [hkdf, kdf, kdfBlock, hmac]

/-- The client's running state, read as the server's. -/
def ofClient (st : Noise.SymmetricState) (cipher : CipherState) : SymmetricState :=
  ⟨st.ck, st.h, cipher⟩

theorem mixHash_ofClient (st : Noise.SymmetricState) (cipher : CipherState) (data : List UInt8) :
    (ofClient st cipher).mixHash P data = ofClient (st.mixHash P data) cipher := by
  simp [ofClient, SymmetricState.mixHash, Noise.SymmetricState.mixHash, hash, hashParts]

theorem mixKey_ofClient {st st' : Noise.SymmetricState} {sk : MachinePrivate}
    {pk : MachinePublic} {k : Key} (h : st.mixDh P sk pk = (st', k)) (cipher : CipherState) :
    (ofClient st cipher).mixKey P (sk.dh P pk).toList = ofClient st' ⟨some k, 0⟩ := by
  obtain ⟨rfl, rfl⟩ := Prod.mk.inj h
  simp only [ofClient, SymmetricState.mixKey, hkdf_eq]

theorem split_ofClient (st : Noise.SymmetricState) (cipher : CipherState) :
    (ofClient st cipher).split P = st.split P := hkdf_eq st.ck []

theorem decryptAndHash_ofClient {st : Noise.SymmetricState} {k : Key} {body p : List UInt8}
    {tag : Tag} (h : P.decryptInPlaceDetached k zeroNonce st.h.toList body tag = some p) :
    (ofClient st ⟨some k, 0⟩).decryptAndHash P (body ++ tag.toList) =
      some (ofClient (st.mixHash P (body ++ tag.toList)) ⟨some k, 1⟩, p) := by
  have htag : tag.toList.length = 16 := Vector.length_toList
  have hlen : (body ++ tag.toList).length - 16 = body.length := by
    rw [List.length_append, htag, Nat.add_sub_cancel]
  have hread : read 16 (body ++ tag.toList) body.length = tag := by
    apply read_eq
    have hmid : slice (body ++ (tag.toList ++ [])) body.length (body.length + 16) = tag.toList :=
      slice_append_mid rfl (by rw [htag])
    rwa [List.append_nil] at hmid
  have hcipher : CipherState.decryptWithAd P ⟨some k, 0⟩ st.h.toList (body ++ tag.toList) =
      some (⟨some k, 1⟩, p) := by
    simp only [CipherState.decryptWithAd]
    rw [if_neg (by rw [List.length_append, htag]; omega), hlen, List.take_left, hread,
      chachaNonce_zero, h]
  rw [← mixHash_ofClient]
  simp only [SymmetricState.decryptAndHash, ofClient, hcipher]
  rfl

theorem encryptAndHash_ofClient {st : Noise.SymmetricState} {k : Key} {body p : List UInt8}
    {tag : Tag} (h : P.encryptInPlaceDetached k zeroNonce st.h.toList p = some (body, tag)) :
    (ofClient st ⟨some k, 0⟩).encryptAndHash P p =
      some (ofClient (st.mixHash P (body ++ tag.toList)) ⟨some k, 1⟩, body ++ tag.toList) := by
  have hcipher : CipherState.encryptWithAd P ⟨some k, 0⟩ st.h.toList p =
      some (⟨some k, 1⟩, body ++ tag.toList) := by
    simp only [CipherState.encryptWithAd, chachaNonce_zero, h]
  rw [← mixHash_ofClient]
  simp only [SymmetricState.encryptAndHash, ofClient, hcipher]
  rfl

/-- The server before the first message is the client before its own key. -/
theorem server_symmetric (version : UInt16) (c : MachinePrivate) :
    (server P version c).symmetric =
      ofClient (((Noise.SymmetricState.initial P).mixHash P (prologue version)).mixHash P
        (c.public P).bytes.toList) ⟨none, 0⟩ := by
  have hinit : SymmetricState.initial P protocolName =
      ofClient (Noise.SymmetricState.initial P) ⟨none, 0⟩ := by
    rw [SymmetricState.initial, if_neg (by decide +kernel)]
    rfl
  rw [← mixHash_ofClient, ← mixHash_ofClient, ← hinit, prologue_eq]
  rfl

theorem some_bind {α β : Type} (a : α) (f : α → Option β) : (some a >>= f) = f a := rfl

theorem readToken_e (st : HandshakeState) (e : MachinePublic) (rest : List UInt8) :
    st.readToken P (e.bytes.toList ++ rest) .e =
      some ({ st with symmetric := st.symmetric.mixHash P e.bytes.toList, re := some e }, rest) := by
  have he : e.bytes.toList.length = 32 := Vector.length_toList
  have hread : read 32 (e.bytes.toList ++ rest) 0 = e.bytes := by
    apply read_eq
    exact slice_append_mid (a := []) rfl (by rw [he])
  have hdrop : (e.bytes.toList ++ rest).drop 32 = rest := List.drop_left' he
  simp only [HandshakeState.readToken]
  rw [if_neg (by rw [List.length_append, he]; omega), hread, hdrop]

theorem readToken_s {st : HandshakeState} {st' : SymmetricState} {field rest : List UInt8}
    {m : MachinePublic} (hlen : field.length = 48) (hk : st.symmetric.cipher.k.isSome)
    (h : st.symmetric.decryptAndHash P field = some (st', m.bytes.toList)) :
    st.readToken P (field ++ rest) .s =
      some ({ st with symmetric := st', rs := some m }, rest) := by
  have hread : read 32 m.bytes.toList 0 = m.bytes :=
    read_eq (by simp [slice, List.take_of_length_le])
  simp only [HandshakeState.readToken, hk, if_true]
  rw [if_neg (by rw [List.length_append, hlen]; omega), List.take_left' hlen,
    List.drop_left' hlen, h, some_bind, hread]
  rfl

/-- A token with a Diffie-Hellman takes nothing from the message. -/
theorem readToken_dh {st : HandshakeState} {token : Token} {k : Key}
    (h : st.dh P token = some k) (msg : List UInt8) :
    st.readToken P msg token =
      some ({ st with symmetric := st.symmetric.mixKey P k.toList }, msg) := by
  cases token with
  | e => cases h
  | s => cases h
  | ee => simp only [HandshakeState.readToken, h, some_bind]; rfl
  | es => simp only [HandshakeState.readToken, h, some_bind]; rfl
  | se => simp only [HandshakeState.readToken, h, some_bind]; rfl
  | ss => simp only [HandshakeState.readToken, h, some_bind]; rfl

theorem writeToken_dh {st : HandshakeState} {token : Token} {k : Key}
    (h : st.dh P token = some k) (fresh : MachinePrivate) :
    st.writeToken P fresh token =
      some ({ st with symmetric := st.symmetric.mixKey P k.toList }, []) := by
  cases token with
  | e => cases h
  | s => cases h
  | ee => simp only [HandshakeState.writeToken, h, some_bind]; rfl
  | es => simp only [HandshakeState.writeToken, h, some_bind]; rfl
  | se => simp only [HandshakeState.writeToken, h, some_bind]; rfl
  | ss => simp only [HandshakeState.writeToken, h, some_bind]; rfl

/-- The server reads the first message of a client. -/
theorem readMessage_initiation {st : HandshakeState} {st₀ st₁ st₂ : Noise.SymmetricState}
    {e m : MachinePublic} {k₁ k₂ : Key} {body₁ : List UInt8} {tag₁ tag₂ : Tag}
    (hrole : st.initiator = false) (hst : st.symmetric = ofClient st₀ ⟨none, 0⟩)
    (h₁ : (st₀.mixHash P e.bytes.toList).mixDh P st.s e = (st₁, k₁))
    (hdec₁ : P.decryptInPlaceDetached k₁ zeroNonce st₁.h.toList body₁ tag₁ = some m.bytes.toList)
    (hlen₁ : body₁.length = 32)
    (h₂ : (st₁.mixHash P (body₁ ++ tag₁.toList)).mixDh P st.s m = (st₂, k₂))
    (hdec₂ : P.decryptInPlaceDetached k₂ zeroNonce st₂.h.toList [] tag₂ = some []) :
    st.readMessage P messageIK.1 (e.bytes.toList ++ (body₁ ++ tag₁.toList) ++ tag₂.toList) =
      some ({ st with
        symmetric := ofClient (st₂.mixHash P tag₂.toList) ⟨some k₂, 1⟩
        rs := some m
        re := some e }, []) := by
  have hfield : (body₁ ++ tag₁.toList).length = 48 := by simp [hlen₁]
  have hes : (st.symmetric.mixHash P e.bytes.toList).mixKey P (st.s.dh P e).toList =
      ofClient st₁ ⟨some k₁, 0⟩ := by
    rw [hst, mixHash_ofClient, mixKey_ofClient h₁]
  have hs := decryptAndHash_ofClient hdec₁
  have hss := mixKey_ofClient h₂ ⟨some k₁, 1⟩
  have hpayload := decryptAndHash_ofClient hdec₂
  rw [List.nil_append] at hpayload
  have hdh : ∀ symmetric, HandshakeState.dh P { st with symmetric := symmetric, re := some e } .es =
      some (st.s.dh P e) := by
    intro symmetric
    simp [HandshakeState.dh, hrole]
  unfold HandshakeState.readMessage messageIK
  simp only [HandshakeState.readTokens]
  rw [List.append_assoc, readToken_e, some_bind]
  simp only
  rw [readToken_dh (hdh _), some_bind]
  simp only [hes]
  rw [readToken_s hfield rfl hs, some_bind]
  simp only
  rw [readToken_dh (k := st.s.dh P m) rfl, some_bind]
  simp only [hss, some_bind, hpayload]
  rfl

/-- The server writes the second message. -/
theorem writeMessage_response {st : HandshakeState} {st₀ st₁ st₂ : Noise.SymmetricState}
    {e₁ m : MachinePublic} {e : MachinePrivate} {k₁ k₂ : Key} {cipher : CipherState} {tag : Tag}
    (hrole : st.initiator = false) (hst : st.symmetric = ofClient st₀ cipher)
    (hre : st.re = some e₁) (hrs : st.rs = some m)
    (h₁ : (st₀.mixHash P (e.public P).bytes.toList).mixDh P e e₁ = (st₁, k₁))
    (h₂ : st₁.mixDh P e m = (st₂, k₂))
    (henc : P.encryptInPlaceDetached k₂ zeroNonce st₂.h.toList [] = some ([], tag)) :
    ∃ st', st'.symmetric = ofClient (st₂.mixHash P tag.toList) ⟨some k₂, 1⟩ ∧
      st.writeMessage P e messageIK.2 [] =
        some (st', (e.public P).bytes.toList ++ tag.toList) := by
  have hee : (st.symmetric.mixHash P (e.public P).bytes.toList).mixKey P (e.dh P e₁).toList =
      ofClient st₁ ⟨some k₁, 0⟩ := by
    rw [hst, mixHash_ofClient, mixKey_ofClient h₁]
  have hse := mixKey_ofClient h₂ ⟨some k₁, 0⟩
  have hpayload := encryptAndHash_ofClient henc
  rw [List.nil_append] at hpayload
  have hdh : ∀ symmetric, HandshakeState.dh P { st with symmetric := symmetric, e := some e } .ee =
      some (e.dh P e₁) := by
    intro symmetric
    simp [HandshakeState.dh, hre]
  have hdh' : ∀ symmetric, HandshakeState.dh P { st with symmetric := symmetric, e := some e } .se =
      some (e.dh P m) := by
    intro symmetric
    simp [HandshakeState.dh, hrole, hrs]
  refine ⟨{ st with
    symmetric := ofClient (st₂.mixHash P tag.toList) ⟨some k₂, 1⟩
    e := some e }, rfl, ?_⟩
  unfold HandshakeState.writeMessage messageIK
  simp only [HandshakeState.writeTokens]
  rw [show st.writeToken P e .e = some ({ st with
    symmetric := st.symmetric.mixHash P (e.public P).bytes.toList
    e := some e }, (e.public P).bytes.toList) from rfl, some_bind]
  simp only
  rw [writeToken_dh (hdh _), some_bind]
  simp only [hee]
  rw [writeToken_dh (hdh' _), some_bind]
  simp only [hse, some_bind, pure_bind, List.append_nil, hpayload]
  rfl

/-! ### Agreement -/

theorem mixDh_comm (hD : P.DhCommutes) (st : Noise.SymmetricState) (a b : MachinePrivate) :
    st.mixDh P a (b.public P) = st.mixDh P b (a.public P) := by
  simp only [Noise.SymmetricState.mixDh, MachinePrivate.dh_comm hD a b]

/-- The server reads the header of an initiation, and then its message. -/
theorem accept_eq {c : MachinePrivate} {version : UInt16} {msg : List UInt8}
    {st : HandshakeState} {m : MachinePublic} (hlen : msg.length = 96)
    (hmsg : (server P version c).readMessage P messageIK.1 msg = some (st, []))
    (hrs : st.rs = some m) :
    accept P c (toBE 2 version.toNat ++ [msgTypeInitiation] ++ toBE 2 96 ++ msg) =
      some ⟨version, m, st⟩ := by
  have hv : (toBE 2 version.toNat).length = 2 := length_toBE _ _
  have hlt : version.toNat < 256 ^ 2 := version.toNat_lt
  generalize hfull : toBE 2 version.toNat ++ [msgTypeInitiation] ++ toBE 2 96 ++ msg = full
  have hlen' : full.length = 101 := by
    rw [← hfull]
    simp [hlen]
  have hkind : full.getD 2 0 = 1 := by
    rw [← hfull]
    match toBE 2 version.toNat, hv with
    | [_, _], _ => rfl
  have hdeclared : slice full 3 5 = toBE 2 96 := by
    rw [← hfull, List.append_assoc]
    exact slice_append_mid (a := toBE 2 version.toNat ++ [msgTypeInitiation]) (by simp) (by simp)
  have hversion : slice full 0 2 = toBE 2 version.toNat := by
    rw [← hfull, List.append_assoc, List.append_assoc]
    exact slice_append_mid (a := []) (b := toBE 2 version.toNat) rfl (by simp)
  have hdrop : full.drop 5 = msg := by
    rw [← hfull]
    exact List.drop_left' (by simp)
  unfold accept
  rw [if_neg (by rw [hlen', hkind, hdeclared]; decide), hversion, fromBE_toBE hlt,
    UInt16.ofNat_toNat, hdrop]
  simp only [hmsg, some_bind, hrs, ne_eq, not_true_eq_false, if_false]
  rfl

/-- The client's initiation, as the server sees it. -/
theorem accept_start (hA : P.Lawful) (hD : P.DhCommutes) (m c e : MachinePrivate)
    (version : UInt16) :
    ∃ self msg acc, Handshake.start P m (c.public P) version e = .ok (self, msg) ∧
      msg.length = initiationLen ∧ accept P c msg = some acc ∧ acc.version = version ∧
      acc.machine = m.public P ∧ self.machineKey = m ∧ self.ephemeral = e ∧
      acc.state.initiator = false ∧ (∃ cipher, acc.state.symmetric = ofClient self.state cipher) ∧
      acc.state.re = some (e.public P) ∧ acc.state.rs = some (m.public P) := by
  obtain ⟨st₁, k₁, st₂, k₂, body₁, tag₁, tag₂, h₁, h₂, hdec₁, hlen₁, hdec₂, hstart⟩ :=
    Handshake.start_eq hA m (c.public P) version e
  rw [mixDh_comm hD] at h₁ h₂
  have hrole : (server P version c).initiator = false := rfl
  have hread := readMessage_initiation (m := m.public P) hrole (server_symmetric version c) h₁
    hdec₁ hlen₁ h₂ hdec₂
  have hlen : ((e.public P).bytes.toList ++ (body₁ ++ tag₁.toList) ++ tag₂.toList).length = 96 := by
    simp [hlen₁]
  have haccept := accept_eq hlen hread rfl
  simp only [← List.append_assoc] at haccept hstart
  refine ⟨_, _, _, hstart, ?_, haccept, rfl, rfl, rfl, rfl, rfl, ⟨_, rfl⟩, rfl, rfl⟩
  simp [hlen₁, initiationLen]

/-- **The handshake agrees with the specification.**  For all machine,
control and ephemeral keys and every version, the server accepts the
initiation of the client and learns its machine key, the client accepts the
response, and the two sessions are the ends of one transport. -/
theorem handshake_mirrors_responder (hA : P.Lawful) (hD : P.DhCommutes) (m c e es : MachinePrivate)
    (version : UInt16) :
    ∃ self msg acc resp client server,
      Handshake.start P m (c.public P) version e = .ok (self, msg) ∧
      msg.length = initiationLen ∧ accept P c msg = some acc ∧ acc.version = version ∧
      acc.machine = m.public P ∧ respond P acc es = some (resp, server) ∧
      resp.length = responseLen ∧ self.finish P resp = .ok client ∧ client.Mirrored server := by
  obtain ⟨self, msg, acc, hstart, hlen, hacc, hver, hmach, hmk, heph, hrole, ⟨cipher, hsym⟩, hre,
    hrs⟩ := accept_start hA hD m c e version
  rcases h₁ : (self.state.mixHash P (es.public P).bytes.toList).mixDh P es (e.public P)
    with ⟨st₁, k₁⟩
  rcases h₂ : st₁.mixDh P es (m.public P) with ⟨st₂, k₂⟩
  obtain ⟨body, tag, henc, hdec, hbody, -⟩ :=
    st₂.decrypt_encrypt hA k₂ (p := []) (by decide) rfl
  obtain rfl : body = [] := List.length_eq_zero_iff.mp hbody
  obtain ⟨st', hsym', hwrite⟩ := writeMessage_response hrole hsym hre hrs h₁ h₂ henc
  rw [mixDh_comm hD, ← heph] at h₁
  rw [mixDh_comm hD, ← hmk] at h₂
  have hfinish := self.finish_eq (es.public P) h₁ h₂ hdec
  generalize hst : st₂.mixHash P tag.toList = st at hsym' hfinish
  have hrespond : respond P acc es =
      some ([msgTypeResponse] ++ toBE 2 48 ++ (es.public P).bytes.toList ++ tag.toList,
        ⟨(st.split P).2, (st.split P).1, 0, 0, st.h⟩) := by
    unfold respond
    rw [hwrite, some_bind]
    simp only [hsym', split_ofClient, List.append_assoc]
    rfl
  refine ⟨self, msg, acc, _, _, _, hstart, hlen, hacc, hver, hmach, hrespond, ?_, hfinish,
    ⟨rfl, rfl, rfl, rfl, rfl⟩⟩
  simp [responseLen]

/-- The handshake of small keys, at version 145. -/
theorem handshake_mirrors_responder_small_keys :
    let P := checksumPrimitives
    let key (n : UInt8) : MachinePrivate := ⟨Vector.replicate 32 n⟩
    P.Lawful ∧ P.DhCommutes ∧
    ∃ self msg acc resp client server,
      Handshake.start P (key 7) ((key 3).public P) 145 (key 9) = .ok (self, msg) ∧
      msg.length = initiationLen ∧ accept P (key 3) msg = some acc ∧ acc.version = 145 ∧
      acc.machine = (key 7).public P ∧ respond P acc (key 4) = some (resp, server) ∧
      resp.length = responseLen ∧ self.finish P resp = .ok client ∧ client.Mirrored server := by
  intro P key
  exact ⟨checksumAead_lawful, checksumPrimitives_dhCommutes,
    handshake_mirrors_responder checksumAead_lawful checksumPrimitives_dhCommutes (key 7) (key 3)
      (key 9) (key 4) 145⟩

end Spec

end Lando.Noise
