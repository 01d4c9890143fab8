/-
Lando/NoiseHandshake.lean

The client half of the Noise IK handshake of ts2021 (`noise.rs`).

Only the initiator is in the source.  Its messages are checked here against
the fields a responder reads: `Handshake.start_eq` gives the bytes of the
initiation with the running state in front of each of its encrypted fields,
`Handshake.finish_eq` does the same for the response.
-/
import Lando.Decimal
import Lando.Noise

namespace Lando.Noise

open Bytes

variable (P : Primitives)

/-- The name of the Noise protocol. -/
def protocolName : List UInt8 := "Noise_IK_25519_ChaChaPoly_BLAKE2s".toUTF8.toList

/-- `PROLOGUE_PREFIX`. -/
def prologueText : List UInt8 := "Tailscale Control Protocol v".toUTF8.toList

/-- `MixDH` derives a new cipher for each operation, so its nonce is always
zero. -/
def zeroNonce : Nonce := Vector.replicate 12 0

/-- Renders a `u16` as decimal. -/
def decimal (v : UInt16) : List UInt8 := Decimal.render 5 v.toNat

/-! ### The running state -/

/-- `SymmetricState`. -/
structure SymmetricState where
  h : Key
  ck : Key
  deriving DecidableEq

namespace SymmetricState

/-- `SymmetricState::initialize`: the name is longer than a digest, so it is
hashed. -/
def initial : SymmetricState :=
  let h := hash P protocolName
  ⟨h, h⟩

/-- `mix_hash`: the text goes into the hash. -/
def mixHash (st : SymmetricState) (data : List UInt8) : SymmetricState :=
  { st with h := hashParts P [st.h.toList, data] }

/-- `MixKey(X25519(priv, pub))`, with the single-use cipher it derives. -/
def mixDh (st : SymmetricState) (sk : MachinePrivate) (pk : MachinePublic) :
    SymmetricState × Key :=
  let dh := sk.dh P pk
  let out := kdf P 2 st.ck.toList dh.toList
  ({ st with ck := out.get 0 }, out.get 1)

/-- Encrypts `plaintext` into a field of `outLen` bytes, with the running
hash as associated data, then mixes the field in. -/
def encryptAndHash (st : SymmetricState) (cipher : Key) (outLen : ℕ) (plaintext : List UInt8) :
    Except NoiseError (SymmetricState × List UInt8) :=
  if outLen ≠ plaintext.length + tagLen then .error .shortBuffer
  else
    match P.encryptInPlaceDetached cipher zeroNonce st.h.toList plaintext with
    | none => .error .decrypt
    | some (body, tag) =>
        let out := body ++ tag.toList
        .ok (st.mixHash P out, out)

/-- Inverse of `encryptAndHash`. -/
def decryptAndHash (st : SymmetricState) (cipher : Key) (outLen : ℕ) (ciphertext : List UInt8) :
    Except NoiseError (SymmetricState × List UInt8) :=
  if ciphertext.length < tagLen ∨ outLen ≠ ciphertext.length - tagLen then .error .badLength
  else
    let body := ciphertext.take (ciphertext.length - tagLen)
    let tag := read 16 ciphertext (ciphertext.length - tagLen)
    match P.decryptInPlaceDetached cipher zeroNonce st.h.toList body tag with
    | none => .error .decrypt
    | some plain => .ok (st.mixHash P ciphertext, plain)

/-- Empty input, unlike `mixDh`. -/
def split (st : SymmetricState) : Key × Key :=
  let out := kdf P 2 st.ck.toList []
  (out.get 0, out.get 1)

end SymmetricState

/-! ### The client -/

/-- Client half of the handshake, mid-flight. -/
structure Handshake where
  state : SymmetricState
  machineKey : MachinePrivate
  ephemeral : MachinePrivate
  deriving DecidableEq

/-- The prologue, which names the version. -/
def prologue (version : UInt16) : List UInt8 :=
  let digits := decimal version
  let buf := List.replicate (prologueText.length + 5) 0
  let buf := blit buf 0 prologueText
  let buf := blit buf prologueText.length digits
  buf.take (prologueText.length + digits.length)

namespace Handshake

/-- Builds the initiation.  The source calls `expect` on the two encryptions,
so an error stands for a panic. -/
def start (machineKey : MachinePrivate) (controlKey : MachinePublic) (version : UInt16)
    (ephemeral : MachinePrivate) : Except NoiseError (Handshake × List UInt8) := do
  let state := SymmetricState.initial P
  let state := state.mixHash P (prologue version)
  -- <- s
  let state := state.mixHash P controlKey.bytes.toList
  let msg := List.replicate initiationLen 0
  let msg := blit msg 0 (toBE 2 version.toNat)
  let msg := blit msg 2 [msgTypeInitiation]
  let msg := blit msg 3 (toBE 2 (initiationLen - initiationHeaderLen))
  -- -> e
  let ephemeralPub := ephemeral.public P
  let msg := blit msg 5 ephemeralPub.bytes.toList
  let state := state.mixHash P ephemeralPub.bytes.toList
  -- -> es, s
  let (state, cipher) := state.mixDh P ephemeral controlKey
  let machinePub := machineKey.public P
  let (state, field) ← state.encryptAndHash P cipher (85 - 37) machinePub.bytes.toList
  let msg := blit msg 37 field
  -- -> ss, and an empty payload
  let (state, cipher) := state.mixDh P machineKey controlKey
  let (state, field) ← state.encryptAndHash P cipher (101 - 85) []
  let msg := blit msg 85 field
  return (⟨state, machineKey, ephemeral⟩, msg)

/-- Consumes the server response and produces the transport session. -/
def finish (self : Handshake) (resp : List UInt8) : Except NoiseError Session :=
  if resp.length < headerLen then .error .badLength
  else if resp.getD 0 0 ≠ msgTypeResponse then
    if resp.getD 0 0 = msgTypeError then .error .serverError
    else .error (.unexpectedType (resp.getD 0 0))
  else
    let declared := fromBE (slice resp 1 3)
    if declared ≠ responseLen - headerLen ∨ resp.length ≠ responseLen then .error .badLength
    else do
      -- <- e, ee, se
      let controlEphemeral : MachinePublic := ⟨read 32 resp 3⟩
      let state := self.state.mixHash P controlEphemeral.bytes.toList
      let (state, _) := state.mixDh P self.ephemeral controlEphemeral
      let (state, cipher) := state.mixDh P self.machineKey controlEphemeral
      let (state, _) ← state.decryptAndHash P cipher 0 (slice resp 35 51)
      let handshakeHash := state.h
      let (tx, rx) := state.split P
      return ⟨tx, rx, 0, 0, handshakeHash⟩

end Handshake

/-! ### What the messages say -/

theorem decimal_eq (v : UInt16) : decimal v = Decimal.ascii v.toNat := by
  have hlt : v.toNat < 10 ^ 5 := Nat.lt_trans v.toNat_lt (by decide)
  exact Decimal.render_eq (by decide) hlt

/-- The prologue is its fixed text and the version in decimal. -/
theorem prologue_eq (version : UInt16) :
    prologue version = prologueText ++ Decimal.ascii version.toNat := by
  have hlt : version.toNat < 10 ^ 5 := Nat.lt_trans version.toNat_lt (by decide)
  have hroom := Decimal.length_ascii_le (by decide) hlt
  have hbuf : blit (List.replicate (prologueText.length + 5) 0) 0 prologueText =
      prologueText ++ List.replicate 5 0 := blit_replicate rfl
  have hdigits : 5 = (Decimal.ascii version.toNat).length +
      (5 - (Decimal.ascii version.toNat).length) := by omega
  have hlen : prologueText.length + (Decimal.ascii version.toNat).length =
      (prologueText ++ Decimal.ascii version.toNat).length := List.length_append.symm
  unfold prologue
  simp only [decimal_eq, hbuf]
  rw [blit_append_replicate rfl hdigits, hlen, List.take_left]

variable {P}

/-- What one side encrypts, the other decrypts; both hash the same field. -/
theorem SymmetricState.decrypt_encrypt (hA : P.Lawful) (st : SymmetricState) (cipher : Key)
    {p : List UInt8} (hp : p.length ≤ 64) {n : ℕ} (hn : n = p.length + tagLen) :
    ∃ body tag, P.encryptInPlaceDetached cipher zeroNonce st.h.toList p = some (body, tag) ∧
      P.decryptInPlaceDetached cipher zeroNonce st.h.toList body tag = some p ∧
      body.length = p.length ∧
      st.encryptAndHash P cipher n p =
        .ok (st.mixHash P (body ++ tag.toList), body ++ tag.toList) := by
  obtain ⟨body, tag, henc, hlen, hdec⟩ := hA.exists_encrypt cipher zeroNonce st.h.toList hp
  refine ⟨body, tag, henc, hdec, hlen, ?_⟩
  simp [encryptAndHash, hn, henc]

theorem ok_bind {α β : Type} (a : α) (f : α → Except NoiseError β) :
    (Except.ok a >>= f) = f a := rfl

/-- The initiation of a client: the header, the ephemeral key and the two
encrypted fields, with the running state they are encrypted in. -/
theorem Handshake.start_eq (hA : P.Lawful) (m : MachinePrivate) (c : MachinePublic)
    (version : UInt16) (e : MachinePrivate) :
    ∃ st₁ k₁ st₂ k₂ body₁ tag₁ tag₂,
      ((((SymmetricState.initial P).mixHash P (prologue version)).mixHash P
        c.bytes.toList).mixHash P (e.public P).bytes.toList).mixDh P e c = (st₁, k₁) ∧
      (st₁.mixHash P (body₁ ++ tag₁.toList)).mixDh P m c = (st₂, k₂) ∧
      P.decryptInPlaceDetached k₁ zeroNonce st₁.h.toList body₁ tag₁ =
        some (m.public P).bytes.toList ∧
      body₁.length = 32 ∧
      P.decryptInPlaceDetached k₂ zeroNonce st₂.h.toList [] tag₂ = some [] ∧
      Handshake.start P m c version e =
        .ok (⟨st₂.mixHash P tag₂.toList, m, e⟩,
          toBE 2 version.toNat ++ [msgTypeInitiation] ++ toBE 2 96 ++ (e.public P).bytes.toList ++
            (body₁ ++ tag₁.toList) ++ tag₂.toList) := by
  have hpub : (m.public P).bytes.toList.length = 32 := Vector.length_toList
  rcases h₁ : ((((SymmetricState.initial P).mixHash P (prologue version)).mixHash P
    c.bytes.toList).mixHash P (e.public P).bytes.toList).mixDh P e c with ⟨st₁, k₁⟩
  obtain ⟨body₁, tag₁, -, hdec₁, hlen₁, henc₁⟩ :=
    st₁.decrypt_encrypt hA k₁ (by rw [hpub]; decide) (show 85 - 37 = _ + tagLen by rw [hpub]; rfl)
  rcases h₂ : (st₁.mixHash P (body₁ ++ tag₁.toList)).mixDh P m c with ⟨st₂, k₂⟩
  obtain ⟨body₂, tag₂, -, hdec₂, hlen₂, henc₂⟩ :=
    st₂.decrypt_encrypt hA k₂ (p := []) (by decide) (show 101 - 85 = 0 + tagLen from rfl)
  obtain rfl : body₂ = [] := List.length_eq_zero_iff.mp hlen₂
  rw [hpub] at hlen₁
  refine ⟨st₁, k₁, st₂, k₂, body₁, tag₁, tag₂, rfl, h₂, hdec₁, hlen₁, hdec₂, ?_⟩
  have hfield₁ : (body₁ ++ tag₁.toList).length = 48 := by simp [hlen₁]
  have hmsg : blit (blit (blit (blit (blit (blit (List.replicate initiationLen 0) 0
      (toBE 2 version.toNat)) 2 [msgTypeInitiation]) 3 (toBE 2 (initiationLen - initiationHeaderLen)))
      5 (e.public P).bytes.toList) 37 (body₁ ++ tag₁.toList)) 85 tag₂.toList =
      toBE 2 version.toNat ++ [msgTypeInitiation] ++ toBE 2 96 ++ (e.public P).bytes.toList ++
        (body₁ ++ tag₁.toList) ++ tag₂.toList := by
    have hpub' : (e.public P).bytes.toList.length = 32 := Vector.length_toList
    have htag : tag₂.toList.length = 16 := Vector.length_toList
    -- each field starts where the one before it ends
    rw [blit_replicate (n := 99) (by simp [initiationLen]),
      blit_append_replicate (m := 99) (n := 98) (by simp) rfl,
      blit_append_replicate (m := 98) (n := 96) (by simp) (by simp),
      blit_append_replicate (m := 96) (n := 64) (by simp) (by rw [hpub']),
      blit_append_replicate (m := 64) (n := 16) (by simp) (by rw [hfield₁]),
      blit_append_replicate (m := 16) (n := 0) (by simp [hlen₁]) (by rw [htag]),
      List.replicate_zero, List.append_nil]
    rfl
  simp only [Handshake.start, h₁, henc₁, h₂, henc₂, ok_bind, List.nil_append, hmsg]
  rfl

/-- The response a client accepts. -/
theorem Handshake.finish_eq (self : Handshake) (e : MachinePublic) {tag : Tag}
    {st st' : SymmetricState} {k k' : Key}
    (h : (self.state.mixHash P e.bytes.toList).mixDh P self.ephemeral e = (st', k'))
    (h' : st'.mixDh P self.machineKey e = (st, k))
    (hdec : P.decryptInPlaceDetached k zeroNonce st.h.toList [] tag = some []) :
    self.finish P ([msgTypeResponse] ++ toBE 2 48 ++ e.bytes.toList ++ tag.toList) =
      .ok ⟨((st.mixHash P tag.toList).split P).1, ((st.mixHash P tag.toList).split P).2, 0, 0,
        (st.mixHash P tag.toList).h⟩ := by
  have he : e.bytes.toList.length = 32 := Vector.length_toList
  have ht : tag.toList.length = 16 := Vector.length_toList
  generalize hresp : [msgTypeResponse] ++ toBE 2 48 ++ e.bytes.toList ++ tag.toList = resp
  have hlen : resp.length = 51 := by
    rw [← hresp]
    simp
  have hkind : resp.getD 0 0 = msgTypeResponse := by
    rw [← hresp]
    rfl
  have hdeclared : slice resp 1 3 = toBE 2 48 := by
    rw [← hresp]
    rfl
  have hkey : read 32 resp 3 = e.bytes := by
    apply read_eq
    rw [← hresp, List.append_assoc]
    exact slice_append_mid rfl (by rw [he])
  have htag : slice resp 35 51 = tag.toList := by
    have hmid : slice ([msgTypeResponse] ++ toBE 2 48 ++ e.bytes.toList ++ (tag.toList ++ [])) 35 51 =
        tag.toList := slice_append_mid (by simp) (by rw [ht])
    rwa [List.append_nil, hresp] at hmid
  have hopen : st.decryptAndHash P k 0 tag.toList = .ok (st.mixHash P tag.toList, []) := by
    have hread : read 16 tag.toList 0 = tag :=
      read_eq (by simp [slice, List.take_of_length_le])
    simp [SymmetricState.decryptAndHash, ht, tagLen, hread, hdec]
  unfold Handshake.finish
  rw [if_neg (by rw [hlen]; decide), hkind, if_neg (by decide), hdeclared,
    fromBE_toBE (by decide), if_neg (by rw [hlen]; decide)]
  simp only [hkey, h, h', htag, hopen, ok_bind]
  rfl

/-- Only a response is accepted. -/
theorem Handshake.kind_of_finish {self : Handshake} {resp : List UInt8} {session : Session}
    (h : self.finish P resp = .ok session) : resp.getD 0 0 = msgTypeResponse := by
  by_contra hne
  unfold Handshake.finish at h
  rw [if_pos hne] at h
  split_ifs at h

theorem Handshake.length_of_finish {self : Handshake} {resp : List UInt8} {session : Session}
    (h : self.finish P resp = .ok session) : resp.length = responseLen := by
  by_contra hne
  unfold Handshake.finish at h
  rw [if_pos (Or.inr hne)] at h
  split_ifs at h

end Lando.Noise
