/-
Lando/Transports.lean

The two receivers of the record stream, side by side: `H2Conn.pump` of the
firmware and `NoiseTransport.pump` of the host.

Over the frames of a stream each of them is `Noise.decode` with its own
`accept`, so the comparison is one of the two `accept`s.  The host dispatches
on the type of a frame; the firmware looks for an error only and opens the
rest as records.  The type is not authenticated, so a record whose type byte
was changed on the way is delivered by the one and refused by the other.
-/
import Lando.FwH2Conn
import Lando.HostTransport

namespace Lando.Transports

open Bytes Noise Socket Fw

variable {A : Aead}

/-! ### The firmware as a decoder -/

/-- Pumps and takes all the text, again and again, until everything that was
sent is read or a pump fails: the session then, the text, and the failure. -/
def receiveAll (A : Aead) : ℕ → H2Conn → List (List UInt8) →
    Noise.Session × List UInt8 × Option H2Error
  | 0, conn, _ => (conn.session, [], none)
  | k + 1, conn, socket =>
      match conn.pump A socket with
      | (conn, socket, .ready) =>
          let rest := receiveAll A k (conn.consume conn.available.length) socket
          (rest.1, conn.available ++ rest.2.1, rest.2.2)
      | (conn, _, .waiting) => (conn.session, conn.available, none)
      | (conn, _, .failed e) => (conn.session, conn.available, some e)

/-- **The firmware refines `decode`**, however the stream is cut. -/
theorem receiveAll_eq {k : ℕ} {conn : H2Conn} {socket : List (List UInt8)} {frames : List Frame}
    (hfits : conn.Fits) (hempty : conn.available = []) (hflow : Flowing socket)
    (hbytes : conn.raw ++ socket.flatten = wires frames) (hk : frames.length < k) :
    receiveAll A k conn socket = decode (H2Conn.accept A) conn.session frames := by
  induction k generalizing conn socket frames with
  | zero => omega
  | succ k ih =>
    have hspec := H2Conn.pump_spec (A := A) hfits hflow hbytes
    rw [receiveAll]
    generalize conn.pump A socket = res at hspec
    cases hspec with
    | @ready conn' pre post text socket' split advanced some bytes flow =>
      subst split
      have havail : conn'.available = text := by
        rw [advanced.available, hempty, List.nil_append]
      -- some frame was taken, so the fuel is enough for the others
      have hpre : 0 < pre.length := by
        apply List.length_pos_iff.mpr
        rintro rfl
        have hopened := advanced.opened
        simp only [decode, Prod.mk.injEq] at hopened
        exact some hopened.2.1.symm
      rw [List.length_append] at hk
      have hdrained : (conn'.consume conn'.available.length).available = [] := by
        rw [H2Conn.available_consume, List.drop_length]
      have hrest := ih (advanced.fits.consume (Nat.le_refl _)) hdrained flow bytes (by omega)
      rw [havail] at hrest
      rw [decode_append advanced.opened]
      simp only [havail, hrest]
      rfl
    | @waiting conn' pre post split advanced bytes why =>
      subst split
      have havail : conn'.available = [] := by rw [advanced.available, hempty, List.append_nil]
      rw [havail] at why
      obtain rfl := why.eq_nil bytes
      rw [List.append_nil, advanced.opened]
      simp only [havail]
    | @rejected conn' pre post f text socket' e split advanced rejected =>
      subst split
      have havail : conn'.available = text := by
        rw [advanced.available, hempty, List.nil_append]
      rw [decode_append advanced.opened, decode_cons_error rejected, List.append_nil]
      simp only [havail]
    | full split advanced text => exact absurd hempty text

/-! ### The comparison -/

theorem reads_fw : Reads A (H2Conn.accept A) := by
  intro s f r h
  unfold H2Conn.accept at h
  split_ifs at h
  rcases hread : s.readRecord A f.body with e | r'
  · rw [hread] at h
    cases h
  · rw [hread] at h
    obtain rfl := Except.ok.inj h
    rfl

theorem reads_host : Reads A (Host.NoiseTransport.accept A) := fun _ _ _ h =>
  (Host.NoiseTransport.accept_ok h).2.2

/-- Two receivers came to the same: the same session, the same text, and
both or neither stopped at a frame. -/
def Agree {ε ε' : Type} (a : Noise.Session × List UInt8 × Option ε)
    (b : Noise.Session × List UInt8 × Option ε') : Prop :=
  a.1 = b.1 ∧ a.2.1 = b.2.1 ∧ a.2.2.isSome = b.2.2.isSome

/-- A frame that is no record by its type, but opens as one. -/
def Disguised (A : Aead) (s : Noise.Session) (f : Frame) : Prop :=
  f.kind ≠ msgTypeRecord ∧ f.kind ≠ msgTypeError ∧ f.body.length ≤ maxCiphertextSize ∧
    ∃ r, s.readRecord A f.body = .ok r

/-- No disguised record stands right behind frames that are all accepted. -/
def Plain (A : Aead) (s : Noise.Session) (frames : List Frame) : Prop :=
  ∀ pre f post s' text, frames = pre ++ f :: post →
    decode (Host.NoiseTransport.accept A) s pre = (s', text, none) → ¬ Disguised A s' f

/-- What the host accepts, the firmware does; what only the firmware accepts
is disguised. -/
theorem accept_cases (s : Noise.Session) (f : Frame) :
    (∃ r, Host.NoiseTransport.accept A s f = .ok r ∧ H2Conn.accept A s f = .ok r ∧
        ¬ Disguised A s f) ∨
      (∃ e e', Host.NoiseTransport.accept A s f = .error e ∧ H2Conn.accept A s f = .error e' ∧
        ¬ Disguised A s f) ∨
      ∃ e r, Host.NoiseTransport.accept A s f = .error e ∧ H2Conn.accept A s f = .ok r ∧
        Disguised A s f := by
  unfold Host.NoiseTransport.accept H2Conn.accept Disguised
  by_cases hcap : maxCiphertextSize < f.body.length
  · simp [hcap]
  by_cases hrecord : f.kind = msgTypeRecord
  · have herror : msgTypeRecord ≠ msgTypeError := by decide
    rcases s.readRecord A f.body with e | r
    · simp [hcap, hrecord, herror]
    · simp [hcap, hrecord, herror]
  by_cases herror : f.kind = msgTypeError
  · simp [hcap, herror, show msgTypeError ≠ msgTypeRecord by decide]
  · rcases s.readRecord A f.body with e | r
    · simp [hcap, hrecord, herror]
    · simp [hcap, hrecord, herror, Nat.not_lt.mp hcap]

theorem plain_cons {s s' : Noise.Session} {f : Frame} {frames : List Frame} {text : List UInt8}
    (h : Host.NoiseTransport.accept A s f = .ok (s', text)) (hf : ¬ Disguised A s f) :
    Plain A s (f :: frames) ↔ Plain A s' frames := by
  constructor
  · intro hplain pre g post s'' more hsplit hpre
    exact hplain (f :: pre) g post s'' (text ++ more) (by rw [hsplit]; rfl)
      (by rw [decode_cons_ok h, hpre])
  · intro hplain pre g post s'' more hsplit hpre
    cases pre with
    | nil =>
      obtain ⟨rfl, -⟩ := Prod.mk.inj hpre
      obtain ⟨rfl, -⟩ := List.cons.inj hsplit
      exact hf
    | cons f' pre =>
      obtain ⟨rfl, hsplit'⟩ := List.cons.inj hsplit
      obtain ⟨s₁, t₁, t₂, hf', hpre', -⟩ := decode_cons_none hpre
      obtain ⟨rfl, -⟩ := Prod.mk.inj (Except.ok.inj (h.symm.trans hf'))
      exact hplain pre g post s'' t₂ hsplit' hpre'

theorem plain_rejected {s : Noise.Session} {f : Frame} {frames : List Frame} {e : Host.Error}
    (h : Host.NoiseTransport.accept A s f = .error e) :
    Plain A s (f :: frames) ↔ ¬ Disguised A s f := by
  constructor
  · intro hplain
    exact hplain [] f frames s [] rfl rfl
  · intro hf pre g post s' text hsplit hpre
    cases pre with
    | nil =>
      obtain ⟨rfl, -⟩ := Prod.mk.inj hpre
      obtain ⟨rfl, -⟩ := List.cons.inj hsplit
      exact hf
    | cons f' pre =>
      obtain ⟨rfl, -⟩ := List.cons.inj hsplit
      obtain ⟨s₁, t₁, t₂, hf', -⟩ := decode_cons_none hpre
      rw [h] at hf'
      cases hf'

/-- The receivers agree unless one takes a disguised record. -/
theorem agree_iff_plain (s : Noise.Session) (frames : List Frame) :
    Agree (decode (H2Conn.accept A) s frames) (decode (Host.NoiseTransport.accept A) s frames) ↔
      Plain A s frames := by
  induction frames generalizing s with
  | nil =>
    refine ⟨fun _ => ?_, fun _ => ⟨rfl, rfl, rfl⟩⟩
    intro pre f post s' text hsplit
    exact absurd hsplit (by simp)
  | cons f frames ih =>
    rcases accept_cases (A := A) s f with
      ⟨⟨s', text⟩, hhost, hfw, hf⟩ | ⟨e, e', hhost, hfw, hf⟩ | ⟨e, ⟨s', text⟩, hhost, hfw, hf⟩
    · rw [plain_cons hhost hf, decode_cons_ok hfw, decode_cons_ok hhost, ← ih s']
      simp only [Agree, List.append_cancel_left_eq]
    · rw [plain_rejected hhost, decode_cons_error hfw, decode_cons_error hhost]
      exact ⟨fun _ => hf, fun _ => ⟨rfl, rfl, rfl⟩⟩
    · -- the firmware is a nonce ahead for good
      rw [plain_rejected hhost, decode_cons_ok hfw, decode_cons_error hhost]
      refine ⟨?_, fun h => absurd hf h⟩
      rintro ⟨hsession, -, -⟩
      exfalso
      rcases hrest : decode (H2Conn.accept A) s' frames with ⟨s'', more, err⟩
      obtain ⟨pre, post, -, hpre, -⟩ := decode_split hrest
      have hnonce := decode_nonce reads_fw hpre
      have hfirst := Session.readRecord_nonce (reads_fw s f _ hfw)
      rw [hrest] at hsession
      simp only at hsession
      rw [hsession] at hnonce
      omega

/-- The nonce of a receiver that stopped: one more for each frame accepted. -/
theorem decode_counts {ε : Type} {accept : Noise.Session → Frame → Except ε (Noise.Session × List UInt8)}
    (hreads : Reads A accept) (s : Noise.Session) (frames : List Frame) :
    ∃ pre post, frames = pre ++ post ∧
      (decode accept s frames).1.rxNonce.toNat = s.rxNonce.toNat + pre.length ∧
      ((decode accept s frames).2.2 = none → post = []) := by
  obtain ⟨pre, post, hsplit, hpre, hpost⟩ := decode_split (rfl : decode accept s frames = _)
  exact ⟨pre, post, hsplit, decode_nonce hreads hpre, hpost⟩

theorem rejected_host {f : Frame}
    (hf : f.kind ≠ msgTypeRecord ∨ maxCiphertextSize < f.body.length) (s : Noise.Session) :
    ∃ e, Host.NoiseTransport.accept A s f = .error e := by
  rcases h : Host.NoiseTransport.accept A s f with e | r
  · exact ⟨e, rfl⟩
  · obtain ⟨hkind, hlen, -⟩ := Host.NoiseTransport.accept_ok h
    rcases hf with hf | hf
    · exact absurd hkind hf
    · omega

theorem rejected_fw {f : Frame} (hf : f.kind = msgTypeError ∨ maxCiphertextSize < f.body.length)
    (s : Noise.Session) : ∃ e, H2Conn.accept A s f = .error e := by
  unfold H2Conn.accept
  by_cases hcap : maxCiphertextSize < f.body.length
  · exact ⟨_, if_pos hcap⟩
  · rw [if_neg hcap, if_pos (hf.resolve_right hcap)]
    exact ⟨_, rfl⟩

/-- **The two receivers agree exactly on streams without a disguised
record.**  The frames come in the segments `s` at the firmware and in the
segments `t` at the host.  Both refuse an overlong frame and an error, the
host refuses every other type but a record's, and each counts its nonce up
once for each frame it accepted. -/
theorem receivers_agree_iff (session : Noise.Session) {frames : List Frame}
    {s t : List (List UInt8)} (hs : Flowing s) (ht : Flowing t) (hsv : s.flatten = wires frames)
    (htv : t.flatten = wires frames) :
    let fw := receiveAll A (s.flatten.length + 1) (H2Conn.new session) s
    let host := (Host.NoiseTransport.mk t session [] 0).pumpAll A t.flatten.length
    (Agree fw (host.1.session, host.1.rx, host.2) ↔ Plain A session frames) ∧
      (∃ pre post, frames = pre ++ post ∧
        fw.1.rxNonce.toNat = session.rxNonce.toNat + pre.length ∧ (fw.2.2 = none → post = [])) ∧
      (∃ pre post, frames = pre ++ post ∧
        host.1.session.rxNonce.toNat = session.rxNonce.toNat + pre.length ∧
          (host.2 = none → post = [])) ∧
      ∀ f ∈ frames,
        (f.kind ≠ msgTypeRecord ∨ maxCiphertextSize < f.body.length → host.2.isSome) ∧
          (f.kind = msgTypeError ∨ maxCiphertextSize < f.body.length → fw.2.2.isSome) := by
  intro fw host
  -- each run is the decoding of the frames by its own rule
  have hfw : fw = decode (H2Conn.accept A) session frames := by
    refine receiveAll_eq (H2Conn.Fits.new session) rfl hs hsv ?_
    have := length_le_wires frames
    rw [hsv]
    omega
  have hhost : decode (Host.NoiseTransport.accept A) session frames =
      (host.1.session, host.1.rx, host.2) := by
    obtain ⟨t', text, err, he, hdec, hrx⟩ := Host.NoiseTransport.pumpAll_wires (A := A)
      (t := ⟨t, session, [], 0⟩) ht htv (Nat.le_refl _)
    have hhost' : host = (t', err) := he
    rw [hhost', hrx]
    exact hdec
  refine ⟨?_, ?_, ?_, ?_⟩
  · rw [hfw, ← hhost]
    exact agree_iff_plain session frames
  · rw [hfw]
    exact decode_counts reads_fw session frames
  · have hcount := decode_counts (A := A) reads_host session frames
    rw [hhost] at hcount
    exact hcount
  · intro f hf
    refine ⟨fun hbad => ?_, fun hbad => ?_⟩
    · have hsome := decode_isSome (rejected_host (A := A) hbad) hf session
      rw [hhost] at hsome
      exact hsome
    · rw [hfw]
      exact decode_isSome (rejected_fw (A := A) hbad) hf session

/-- A session whose keys are all `1`. -/
def sampleSession : Noise.Session :=
  ⟨Vector.replicate 32 1, Vector.replicate 32 1, 0, 0, Vector.replicate 32 1⟩

/-- The first record of its peer, with the text `[7]`, under a type byte of
our choice. -/
def sampleFrame (kind : UInt8) : Frame where
  kind := kind
  body := 7 :: (checksumAead.tagOf sampleSession.rx (recordNonce 0) [] [7]).toList
  fits := by rw [List.length_cons, Vector.length_toList]; decide

/-- One record, in two segments at the firmware and in one at the host. -/
theorem receivers_agree_iff_one_record :
    let f := sampleFrame msgTypeRecord
    let fw := receiveAll checksumAead 21 (H2Conn.new sampleSession) [f.head, f.body]
    let host := (Host.NoiseTransport.mk [f.wire] sampleSession [] 0).pumpAll checksumAead 20
    Agree fw (host.1.session, host.1.rx, host.2) := by
  intro f fw host
  have hbody : f.body.length = 17 := by
    show (7 :: _).length = 17
    rw [List.length_cons, Vector.length_toList]
  have hsv : [f.head, f.body].flatten = wires [f] := by simp [Frame.wire]
  have htv : [f.wire].flatten = wires [f] := by simp
  have hs : Flowing [f.head, f.body] := by
    intro seg hseg
    rw [List.mem_pair] at hseg
    rcases hseg with rfl | rfl
    · exact List.cons_ne_nil _ _
    · exact List.cons_ne_nil _ _
  have ht : Flowing [f.wire] := by
    intro seg hseg
    rw [List.mem_singleton.mp hseg]
    exact List.cons_ne_nil _ _
  have hplain : Plain checksumAead sampleSession [f] := by
    intro pre g post s' text hsplit hpre hg
    have hgf : g ∈ [f] := by rw [hsplit]; simp
    rw [List.mem_singleton.mp hgf] at hg
    exact hg.1 rfl
  have hlen : [f.head, f.body].flatten.length + 1 = 21 := by
    rw [hsv, wires_cons, wires_nil, List.append_nil, f.length_wire, hbody]
    rfl
  have hlen' : [f.wire].flatten.length = 20 := by
    rw [htv, ← hsv]
    omega
  have hagree := (receivers_agree_iff (A := checksumAead) sampleSession hs ht hsv htv).1.mpr hplain
  rw [hlen, hlen'] at hagree
  exact hagree

/-- The same record under type 9: the firmware delivers it, the host does
not. -/
theorem disguised_record_delivered :
    let f := sampleFrame 9
    let fw := receiveAll checksumAead 21 (H2Conn.new sampleSession) [f.wire]
    let host := (Host.NoiseTransport.mk [f.wire] sampleSession [] 0).pumpAll checksumAead 20
    f.kind ≠ msgTypeRecord ∧ fw.2 = ([7], none) ∧ host.1.rx = [] ∧
      host.2 = some (.unexpectedType 9) ∧ ¬ Agree fw (host.1.session, host.1.rx, host.2) := by
  intro f fw host
  have hfw : fw.2 = ([7], none) := by decide +kernel
  have hhost : (host.1.rx, host.2) = ([], some (.unexpectedType 9)) := by decide +kernel
  obtain ⟨hrx, herr⟩ := Prod.mk.inj hhost
  refine ⟨by decide, hfw, hrx, herr, ?_⟩
  rintro ⟨-, htext, -⟩
  simp only [hfw, hrx] at htext
  cases htext

end Lando.Transports
