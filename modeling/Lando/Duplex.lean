/-
Lando/Duplex.lean

A session with traffic both ways, over a network that does as it pleases.

On a `Link` one end encrypts and the other decrypts.  Here both ends do both:
each encrypts under its own key, and any bytes reach either.  The ideal cipher
has one memory for the two keys.  Were the keys one, a packet turned back on
its sender would open there; so they are taken to differ.

The invariant takes the two ways apart.  Each is a link, in a state that a run
of the link reaches: half of either session, and the part of the memory under
one key.  What a link keeps then holds both ways.
-/
import Lando.PeerLink

namespace Lando

/-! ### The halves of a session -/

namespace Session

/-- The half that encrypts. -/
structure SendsLike (s t : Session) : Prop where
  cipher : s.sendCipher = t.sendCipher
  counter : s.sendCounter = t.sendCounter
  index : s.peerIndex = t.peerIndex

/-- The half that decrypts. -/
structure ReceivesLike (s t : Session) : Prop where
  cipher : s.receiveCipher = t.receiveCipher
  replay : s.replay = t.replay
  index : s.localIndex = t.localIndex

variable {s t : Session}

/-- Encryption reads and writes the first half alone, and not the other
direction of the cipher. -/
theorem SendsLike.encrypt (h : s.SendsLike t) {A B : Aead}
    (hAB : A.encryptInPlaceDetached = B.encryptInPlaceDetached) (payload : List UInt8)
    (outLen : ℕ) :
    (s.encrypt A payload outLen).2 = (t.encrypt B payload outLen).2 ∧
      (s.encrypt A payload outLen).1.SendsLike (t.encrypt B payload outLen).1 := by
  obtain ⟨hcipher, hcounter, hindex⟩ := h
  simp only [Session.encrypt, hcounter, hcipher, hindex, hAB]
  split_ifs
  · exact ⟨rfl, hcipher, hcounter, hindex⟩
  · exact ⟨rfl, hcipher, hcounter, hindex⟩
  · generalize B.encryptInPlaceDetached t.sendCipher _ _ _ = sealed
    rcases sealed with - | ⟨body, tag⟩
    · exact ⟨rfl, hcipher, hcounter, hindex⟩
    · exact ⟨rfl, rfl, rfl, rfl⟩

theorem ReceivesLike.decrypt (h : s.ReceivesLike t) (A : Aead) (packet : List UInt8) :
    (s.decrypt A packet).2 = (t.decrypt A packet).2 ∧
      (s.decrypt A packet).1.ReceivesLike (t.decrypt A packet).1 := by
  obtain ⟨hcipher, hreplay, hindex⟩ := h
  simp only [Session.decrypt, hcipher, hreplay, hindex]
  generalize A.decryptInPlaceDetached t.receiveCipher _ _ _ _ = plain
  rcases plain with - | plain
  · split_ifs
    · exact ⟨rfl, hcipher, hreplay, hindex⟩
    · exact ⟨rfl, hcipher, hreplay, hindex⟩
    · exact ⟨rfl, hcipher, hreplay, hindex⟩
    · exact ⟨rfl, hcipher, hreplay, hindex⟩
  · split_ifs
    · exact ⟨rfl, hcipher, hreplay, hindex⟩
    · exact ⟨rfl, hcipher, hreplay, hindex⟩
    · exact ⟨rfl, rfl, rfl, rfl⟩
    · exact ⟨rfl, rfl, rfl, rfl⟩

theorem encrypt_receivesLike (A : Aead) (s : Session) (payload : List UInt8) (outLen : ℕ) :
    (s.encrypt A payload outLen).1.ReceivesLike s := by
  rcases s.encrypt_cases A payload outLen with ⟨e, he⟩ | ⟨body, tag, -, -, he⟩
  · rw [he]
    exact ⟨rfl, rfl, rfl⟩
  · rw [he]
    exact ⟨rfl, rfl, rfl⟩

theorem decrypt_sendsLike (A : Aead) (s : Session) (packet : List UInt8) :
    (s.decrypt A packet).1.SendsLike s := by
  rcases s.decrypt_cases A packet with ⟨e, he⟩ | ⟨body, tag, plain, -, -, -, he⟩
  · rw [he]
    exact ⟨rfl, rfl, rfl⟩
  · rw [he]
    exact ⟨rfl, rfl, rfl⟩

theorem length_decrypt {A : Aead}
    (hA : ∀ k n ad c t p, A.decryptInPlaceDetached k n ad c t = some p → p.length = c.length)
    {packet plain : List UInt8} (h : (s.decrypt A packet).2 = .ok plain) :
    plain.length + 32 = packet.length := by
  unfold Session.decrypt at h
  by_cases hshape : packet.length < transportHeaderLen + tagLen ∨
      packet.head? ≠ some msgTransport
  · rw [if_pos hshape] at h
    cases h
  rw [if_neg hshape] at h
  by_cases hrecv : packetReceiver packet ≠ s.localIndex
  · rw [if_pos hrecv] at h
    cases h
  rw [if_neg hrecv] at h
  have hlong : ¬ packet.length < 32 := fun hl => hshape (.inl hl)
  simp only [transportHeaderLen, tagLen] at h
  rcases hdec : A.decryptInPlaceDetached s.receiveCipher (nonce (packetCounter packet)) []
      (Bytes.slice packet 16 (16 + (packet.length - 16 - 16)))
      (Bytes.read 16 packet (16 + (packet.length - 16 - 16))) with - | p
  · rw [hdec] at h
    cases h
  rw [hdec] at h
  simp only at h
  split_ifs at h
  obtain rfl := Except.ok.inj h
  rw [hA _ _ _ _ _ _ hdec, Bytes.slice, List.length_take, List.length_drop]
  omega

theorem head_of_decrypt {A : Aead} {packet plain : List UInt8}
    (h : (s.decrypt A packet).2 = .ok plain) : packet.head? = some msgTransport := by
  by_contra hne
  rw [Session.decrypt, if_pos (Or.inr hne)] at h
  cases h

theorem SendsLike.trans {u : Session} (h : s.SendsLike t) (h' : t.SendsLike u) : s.SendsLike u :=
  ⟨h.cipher.trans h'.cipher, h.counter.trans h'.counter, h.index.trans h'.index⟩

theorem ReceivesLike.trans {u : Session} (h : s.ReceivesLike t) (h' : t.ReceivesLike u) :
    s.ReceivesLike u :=
  ⟨h.cipher.trans h'.cipher, h.replay.trans h'.replay, h.index.trans h'.index⟩

end Session

/-! ### The two ends -/

/-- One end of a session. -/
inductive Side
  | a
  | b
  deriving DecidableEq

namespace Side

/-- The far end. -/
def other : Side → Side
  | a => b
  | b => a

@[simp] theorem other_other (side : Side) : side.other.other = side := by
  cases side <;> rfl

theorem other_ne (side : Side) : side.other ≠ side := by
  cases side <;> decide

theorem eq_or_eq_other (x side : Side) : x = side ∨ x = side.other := by
  cases x <;> cases side <;> decide

end Side

/-- The two sessions, the memory of the cipher, the payloads and packets either
end emitted, and the counters it opened. -/
structure Duplex where
  ends : Side → Session
  log : List Sealed
  sent : Side → List (List UInt8 × List UInt8)
  opened : Side → List UInt64

/-- An end is asked to encrypt, or some packet reaches it. -/
inductive DuplexEvent
  | encrypt (side : Side) (payload : List UInt8) (outLen : ℕ)
  | arrive (side : Side) (packet : List UInt8)

namespace Duplex

variable (E : Link.Encryption)

/-- The ideal cipher at this point of the run. -/
def aead (d : Duplex) : Aead := ⟨E, idealDecrypt d.log⟩

/-- Two sessions that have sent nothing. -/
def start (keys : Side → SessionKeys) : Duplex where
  ends := fun side => Session.new (keys side)
  log := []
  sent := fun _ => []
  opened := fun _ => []

/-- One event. -/
def step (d : Duplex) : DuplexEvent → Duplex
  | .encrypt side payload outLen =>
      match (d.ends side).encrypt (d.aead E) payload outLen with
      | (s, .ok packet) =>
          { d with
            ends := Function.update d.ends side s
            log := d.log ++ Link.remember E (d.ends side) payload
            sent := Function.update d.sent side (d.sent side ++ [(payload, packet)]) }
      | (s, .error _) => { d with ends := Function.update d.ends side s }
  | .arrive side packet =>
      match (d.ends side).decrypt (d.aead E) packet with
      | (s, .ok _) =>
          { d with
            ends := Function.update d.ends side s
            opened := Function.update d.opened side (d.opened side ++ [packetCounter packet]) }
      | (s, .error _) => { d with ends := Function.update d.ends side s }

/-- The traffic of a list of events. -/
def run (d : Duplex) (evs : List DuplexEvent) : Duplex := evs.foldl (step E) d

/-! ### Two links -/

/-- The way out of one end, as a link that a run has reached. -/
structure Way (keys : Side → SessionKeys) (d : Duplex) (side : Side) (l : Link) : Prop where
  reached : ∃ evs, l = Link.run E (keys side) (keys side.other) evs
  sends : (d.ends side).SendsLike l.a
  receives : (d.ends side.other).ReceivesLike l.b
  log : d.log.filter (fun e => e.key = (keys side).send) = l.log
  sent : d.sent side = l.sent
  opened : d.opened side.other = l.delivered

/-- Both ways are links, and the memory holds what the cipher made of transport
packets. -/
structure Inv (keys : Side → SessionKeys) (d : Duplex) : Prop where
  ways : ∀ side, ∃ l, Way E keys d side l
  made : ∀ e ∈ d.log, e.ad = [] ∧ E e.key e.nonce [] e.plain = some (e.cipher, e.tag)

/-- The keys of the two ends: those of one handshake, one for each way. -/
structure Paired (keys : Side → SessionKeys) : Prop where
  mirrored : ∀ side, (keys side).Mirrored (keys side.other)
  distinct : ∀ side, (keys side).send ≠ (keys side.other).send

variable {E} {keys : Side → SessionKeys} {d : Duplex} {side : Side} {l : Link}

theorem Way.inv (h : Way E keys d side l) (hk : Paired keys) : l.Inv := by
  obtain ⟨evs, rfl⟩ := h.reached
  exact Link.Inv.run E (hk.mirrored side) evs

theorem Way.keyed (h : Way E keys d side l) : l.Keyed (keys side) (keys side.other) := by
  obtain ⟨evs, rfl⟩ := h.reached
  exact Link.Keyed.run _ _ evs

theorem Way.sendCipher (h : Way E keys d side l) :
    (d.ends side).sendCipher = (keys side).send := h.sends.cipher.trans h.keyed.send

/-- The receiver of a way opens what the receiver of the link opens. -/
theorem Way.decrypt_eq (h : Way E keys d side l) (hk : Paired keys) (packet : List UInt8) :
    ((d.ends side.other).decrypt (d.aead E) packet).2 = (l.b.decrypt (l.aead E) packet).2 ∧
      ((d.ends side.other).decrypt (d.aead E) packet).1.ReceivesLike
        (l.b.decrypt (l.aead E) packet).1 := by
  have hfilter : l.b.decrypt (d.aead E) packet = l.b.decrypt (l.aead E) packet := by
    have hkey : l.b.receiveCipher = (keys side).send :=
      h.keyed.receive.trans (hk.mirrored side).send_eq.symm
    rw [Link.aead, ← h.log, ← hkey]
    exact (PeerLink.decrypt_filter d.log l.b packet).symm
  rw [← hfilter]
  exact h.receives.decrypt _ packet

theorem Way.snoc (h : Way E keys d side l) (ev : LinkEvent) :
    ∃ evs, l.step E ev = Link.run E (keys side) (keys side.other) evs := by
  obtain ⟨evs, rfl⟩ := h.reached
  exact ⟨evs ++ [ev], Link.run_snoc _ _ evs ev⟩

/-! ### One event -/

/-- An end that cannot encrypt leaves everything as it was. -/
theorem step_encrypt (d : Duplex) (side : Side) (payload : List UInt8) (outLen : ℕ) :
    (∃ e, ((d.ends side).encrypt (d.aead E) payload outLen).2 = .error e ∧
      d.step E (.encrypt side payload outLen) = d) ∨
    ∃ s packet, (d.ends side).encrypt (d.aead E) payload outLen = (s, .ok packet) ∧
      d.step E (.encrypt side payload outLen) =
        { d with
          ends := Function.update d.ends side s
          log := d.log ++ Link.remember E (d.ends side) payload
          sent := Function.update d.sent side (d.sent side ++ [(payload, packet)]) } := by
  rcases (d.ends side).encrypt_cases (d.aead E) payload outLen with ⟨e, he⟩ | ⟨_, _, -, -, he⟩
  · left
    refine ⟨e, by rw [he], ?_⟩
    simp only [step, he, Function.update_eq_self]
  · right
    refine ⟨_, _, he, ?_⟩
    simp only [step, he]

/-- So does an end that cannot decrypt. -/
theorem step_arrive (d : Duplex) (side : Side) (packet : List UInt8) :
    (∃ e, ((d.ends side).decrypt (d.aead E) packet).2 = .error e ∧
      d.step E (.arrive side packet) = d) ∨
    ∃ s plain, (d.ends side).decrypt (d.aead E) packet = (s, .ok plain) ∧
      d.step E (.arrive side packet) =
        { d with
          ends := Function.update d.ends side s
          opened := Function.update d.opened side
            (d.opened side ++ [packetCounter packet]) } := by
  rcases (d.ends side).decrypt_cases (d.aead E) packet with ⟨e, he⟩ | ⟨_, _, _, -, -, -, he⟩
  · left
    refine ⟨e, by rw [he], ?_⟩
    simp only [step, he, Function.update_eq_self]
  · right
    refine ⟨_, _, he, ?_⟩
    simp only [step, he]

/-- The session after an event at its end. -/
theorem ends_encrypt (d : Duplex) (side : Side) (payload : List UInt8) (outLen : ℕ) :
    (d.step E (.encrypt side payload outLen)).ends side =
      ((d.ends side).encrypt (d.aead E) payload outLen).1 := by
  rcases he : (d.ends side).encrypt (d.aead E) payload outLen with ⟨s, e | packet⟩
  · simp only [step, he, Function.update_self]
  · simp only [step, he, Function.update_self]

theorem ends_arrive (d : Duplex) (side : Side) (packet : List UInt8) :
    (d.step E (.arrive side packet)).ends side = ((d.ends side).decrypt (d.aead E) packet).1 := by
  rcases he : (d.ends side).decrypt (d.aead E) packet with ⟨s, e | plain⟩
  · simp only [step, he, Function.update_self]
  · simp only [step, he, Function.update_self]

/-- An event at one end leaves the session of the other alone. -/
theorem ends_encrypt_ne {x : Side} (h : x ≠ side) (d : Duplex) (payload : List UInt8)
    (outLen : ℕ) : (d.step E (.encrypt side payload outLen)).ends x = d.ends x := by
  rcases step_encrypt (E := E) d side payload outLen with ⟨_, -, hstep⟩ | ⟨_, _, -, hstep⟩
  · rw [hstep]
  · rw [hstep]
    exact Function.update_of_ne h _ _

theorem ends_arrive_ne {x : Side} (h : x ≠ side) (d : Duplex) (packet : List UInt8) :
    (d.step E (.arrive side packet)).ends x = d.ends x := by
  rcases step_arrive (E := E) d side packet with ⟨_, -, hstep⟩ | ⟨_, _, -, hstep⟩
  · rw [hstep]
  · rw [hstep]
    exact Function.update_of_ne h _ _

/-- The books of the two ends: encrypting adds to what was sent, and arriving to
what was opened. -/
theorem opened_encrypt (d : Duplex) (side : Side) (payload : List UInt8) (outLen : ℕ) :
    (d.step E (.encrypt side payload outLen)).opened = d.opened := by
  rcases step_encrypt (E := E) d side payload outLen with ⟨_, -, hstep⟩ | ⟨_, _, -, hstep⟩
  · rw [hstep]
  · rw [hstep]

theorem sent_encrypt (d : Duplex) (side : Side) (payload : List UInt8) (outLen : ℕ) :
    (d.step E (.encrypt side payload outLen)).sent = Function.update d.sent side (d.sent side ++
      (((d.ends side).encrypt (d.aead E) payload outLen).2.toOption.toList.map
        fun packet => (payload, packet))) := by
  rcases step_encrypt (E := E) d side payload outLen with ⟨_, he, hstep⟩ | ⟨_, _, he, hstep⟩
  · rw [hstep, he]
    simp [Except.toOption]
  · rw [hstep, he]
    rfl

theorem opened_arrive (d : Duplex) (side : Side) (packet : List UInt8) :
    (d.step E (.arrive side packet)).opened = Function.update d.opened side (d.opened side ++
      (((d.ends side).decrypt (d.aead E) packet).2.toOption.toList.map
        fun _ => packetCounter packet)) := by
  rcases step_arrive (E := E) d side packet with ⟨_, he, hstep⟩ | ⟨_, _, he, hstep⟩
  · rw [hstep, he]
    simp [Except.toOption]
  · rw [hstep, he]
    rfl

theorem sent_arrive (d : Duplex) (side : Side) (packet : List UInt8) :
    (d.step E (.arrive side packet)).sent = d.sent := by
  rcases step_arrive (E := E) d side packet with ⟨_, -, hstep⟩ | ⟨_, _, -, hstep⟩
  · rw [hstep]
  · rw [hstep]

/-- Only an encryption is remembered. -/
theorem log_arrive (d : Duplex) (side : Side) (packet : List UInt8) :
    (d.step E (.arrive side packet)).log = d.log := by
  rcases step_arrive (E := E) d side packet with ⟨_, -, hstep⟩ | ⟨_, _, -, hstep⟩
  · rw [hstep]
  · rw [hstep]

theorem of_remember {s : Session} {payload : List UInt8} {e : Sealed}
    (h : e ∈ Link.remember E s payload) :
    e.key = s.sendCipher ∧ e.ad = [] ∧ E e.key e.nonce [] e.plain = some (e.cipher, e.tag) := by
  obtain ⟨r, hr, rfl⟩ := Option.map_eq_some_iff.mp (Option.mem_toList.mp h)
  exact ⟨rfl, rfl, hr⟩

/-- What an end emits, the link of its way emits. -/
theorem Way.encrypt (h : Way E keys d side l) (payload : List UInt8) (outLen : ℕ) :
    Way E keys (d.step E (.encrypt side payload outLen)) side
      (l.step E (.encrypt payload outLen)) := by
  obtain ⟨hres, hsends⟩ := h.sends.encrypt
    (show (d.aead E).encryptInPlaceDetached = (l.aead E).encryptInPlaceDetached from rfl)
    payload outLen
  rcases step_encrypt (E := E) d side payload outLen with ⟨e, he, hstep⟩ | ⟨s, packet, he, hstep⟩
  · rcases l.a.encrypt_cases (l.aead E) payload outLen with ⟨e', hl⟩ | ⟨body, tag, -, -, hl⟩
    · have hlink : l.step E (.encrypt payload outLen) = l := by simp only [Link.step, hl]
      rw [hstep, hlink]
      exact h
    · rw [he, hl] at hres
      cases hres
  · have hlog : Link.remember E (d.ends side) payload = Link.remember E l.a payload := by
      rw [Link.remember, Link.remember, h.sends.cipher, h.sends.counter]
    have hkey : (Link.remember E l.a payload).filter (fun e => e.key = (keys side).send)
        = Link.remember E l.a payload := by
      rw [List.filter_eq_self]
      intro e hmem
      rw [decide_eq_true_eq, (of_remember hmem).1, h.keyed.send]
    rcases l.a.encrypt_cases (l.aead E) payload outLen with ⟨e', hl⟩ | ⟨body, tag, -, -, hl⟩
    · rw [he, hl] at hres
      cases hres
    · rw [he, hl] at hres hsends
      rw [hstep]
      refine ⟨h.snoc _, ?_, ?_, ?_, ?_, ?_⟩ <;> simp only [Link.step, hl]
      · rw [Function.update_self]
        exact hsends
      · rw [Function.update_of_ne side.other_ne]
        exact h.receives
      · rw [List.filter_append, h.log, hlog, hkey]
      · rw [Function.update_self, h.sent, Except.ok.inj hres]
      · exact h.opened

/-- The other way sees none of it. -/
theorem Way.encrypt_other (h : Way E keys d side.other l) (hk : Paired keys)
    (hkey : (d.ends side).sendCipher = (keys side).send) (payload : List UInt8) (outLen : ℕ) :
    Way E keys (d.step E (.encrypt side payload outLen)) side.other l := by
  rcases step_encrypt (E := E) d side payload outLen with ⟨e, he, hstep⟩ | ⟨s, packet, he, hstep⟩
  · rw [hstep]
    exact h
  · have hreceives := h.receives
    have hopened := h.opened
    rw [Side.other_other] at hreceives hopened
    have hs := (Session.encrypt_receivesLike (d.aead E) (d.ends side) payload outLen).trans
      hreceives
    rw [he] at hs
    have hnone : (Link.remember E (d.ends side) payload).filter
        (fun e => e.key = (keys side.other).send) = [] := by
      rw [List.filter_eq_nil_iff]
      intro e hmem
      rw [decide_eq_true_eq, (of_remember hmem).1, hkey]
      exact hk.distinct side
    rw [hstep]
    refine ⟨h.reached, ?_, ?_, ?_, ?_, ?_⟩
    · show (Function.update d.ends side s side.other).SendsLike l.a
      rw [Function.update_of_ne side.other_ne]
      exact h.sends
    · show (Function.update d.ends side s side.other.other).ReceivesLike l.b
      rw [Side.other_other, Function.update_self]
      exact hs
    · rw [List.filter_append, h.log, hnone, List.append_nil]
    · show Function.update d.sent side _ side.other = l.sent
      rw [Function.update_of_ne side.other_ne]
      exact h.sent
    · rw [Side.other_other]
      exact hopened

/-- What arrives at an end, arrives on the link of the way in. -/
theorem Way.arrive (h : Way E keys d side l) (hk : Paired keys) (packet : List UInt8) :
    Way E keys (d.step E (.arrive side.other packet)) side (l.step E (.arrive packet)) := by
  obtain ⟨hres, hreceives⟩ := h.decrypt_eq hk packet
  rcases step_arrive (E := E) d side.other packet with ⟨e, he, hstep⟩ | ⟨s, plain, he, hstep⟩
  · rcases l.b.decrypt_cases (l.aead E) packet with ⟨e', hl⟩ | ⟨_, _, _, -, -, -, hl⟩
    · have hlink : l.step E (.arrive packet) = l := by simp only [Link.step, hl]
      rw [hstep, hlink]
      exact h
    · rw [he, hl] at hres
      cases hres
  · rcases l.b.decrypt_cases (l.aead E) packet with ⟨e', hl⟩ | ⟨_, _, _, -, -, -, hl⟩
    · rw [he, hl] at hres
      cases hres
    · rw [he, hl] at hreceives
      rw [hstep]
      refine ⟨h.snoc _, ?_, ?_, ?_, ?_, ?_⟩ <;> simp only [Link.step, hl]
      · rw [Function.update_of_ne side.other_ne.symm]
        exact h.sends
      · rw [Function.update_self]
        exact hreceives
      · exact h.log
      · exact h.sent
      · rw [Function.update_self, h.opened]

/-- The way out of that end sees none of it. -/
theorem Way.arrive_other (h : Way E keys d side l) (packet : List UInt8) :
    Way E keys (d.step E (.arrive side packet)) side l := by
  rcases step_arrive (E := E) d side packet with ⟨e, he, hstep⟩ | ⟨s, plain, he, hstep⟩
  · rw [hstep]
    exact h
  · have hs := (Session.decrypt_sendsLike (d.aead E) (d.ends side) packet).trans h.sends
    rw [he] at hs
    rw [hstep]
    refine ⟨h.reached, ?_, ?_, h.log, h.sent, ?_⟩
    · show (Function.update d.ends side s side).SendsLike l.a
      rw [Function.update_self]
      exact hs
    · show (Function.update d.ends side s side.other).ReceivesLike l.b
      rw [Function.update_of_ne side.other_ne]
      exact h.receives
    · show Function.update d.opened side _ side.other = l.delivered
      rw [Function.update_of_ne side.other_ne]
      exact h.opened

/-! ### Every run -/

theorem Inv.start (keys : Side → SessionKeys) : Inv E keys (start keys) where
  ways := fun _ =>
    ⟨Link.start _ _, ⟨[], rfl⟩, ⟨rfl, rfl, rfl⟩, ⟨rfl, rfl, rfl⟩, rfl, rfl, rfl⟩
  made := fun _ he => absurd he List.not_mem_nil

/-- The invariant survives every event. -/
theorem Inv.step (hd : Inv E keys d) (hk : Paired keys) (ev : DuplexEvent) :
    Inv E keys (d.step E ev) := by
  cases ev with
  | encrypt side payload outLen =>
    refine ⟨fun x => ?_, fun e hmem => ?_⟩
    · obtain ⟨l, hl⟩ := hd.ways x
      rcases Side.eq_or_eq_other x side with rfl | rfl
      · exact ⟨_, hl.encrypt payload outLen⟩
      · obtain ⟨l', hl'⟩ := hd.ways side
        exact ⟨l, hl.encrypt_other hk hl'.sendCipher payload outLen⟩
    · rcases step_encrypt (E := E) d side payload outLen with ⟨_, -, hstep⟩ | ⟨s, packet, -, hstep⟩
      · rw [hstep] at hmem
        exact hd.made e hmem
      · rw [hstep] at hmem
        rcases List.mem_append.mp hmem with hmem | hmem
        · exact hd.made e hmem
        · exact (of_remember hmem).2
  | arrive side packet =>
    refine ⟨fun x => ?_, fun e hmem => ?_⟩
    · obtain ⟨l, hl⟩ := hd.ways x
      rcases Side.eq_or_eq_other side x with rfl | rfl
      · exact ⟨l, hl.arrive_other packet⟩
      · exact ⟨_, hl.arrive hk packet⟩
    · rcases step_arrive (E := E) d side packet with ⟨_, -, hstep⟩ | ⟨s, plain, -, hstep⟩
      · rw [hstep] at hmem
        exact hd.made e hmem
      · rw [hstep] at hmem
        exact hd.made e hmem

theorem Inv.run (hd : Inv E keys d) (hk : Paired keys) (evs : List DuplexEvent) :
    Inv E keys (d.run E evs) := by
  induction evs generalizing d with
  | nil => exact hd
  | cons ev evs ih => exact ih (hd.step hk ev)

/-! ### What both ways have -/

/-- No counter is opened twice, and none that was not used. -/
theorem Inv.opened (hd : Inv E keys d) (hk : Paired keys) (side : Side) :
    (d.opened side).Nodup ∧ ∀ c ∈ d.opened side, c.toNat < (d.sent side.other).length := by
  obtain ⟨l, hl⟩ := hd.ways side.other
  have hinv := hl.inv hk
  have hopened := hl.opened
  rw [Side.other_other] at hopened
  rw [hopened, hl.sent]
  exact ⟨hinv.nodup, hinv.delivered_lt⟩

/-- What an end opens, the other end sealed; and it is opened once. -/
theorem Inv.decrypt_ok (hd : Inv E keys d) (hk : Paired keys) {packet plain : List UInt8}
    (hok : ((d.ends side).decrypt (d.aead E) packet).2 = .ok plain) :
    packetCounter packet ∉ d.opened side ∧
      ∃ payload pkt, (d.sent side.other)[(packetCounter packet).toNat]? = some (payload, pkt) ∧
        plain = padded payload := by
  obtain ⟨l, hl⟩ := hd.ways side.other
  have hopened := hl.opened
  obtain ⟨hres, -⟩ := hl.decrypt_eq hk packet
  rw [Side.other_other] at hopened hres
  rw [hopened, hl.sent]
  exact (hl.inv hk).decrypt_ok (hres.symm.trans hok)

/-- Opening a packet takes off the header and the tag, and no more. -/
theorem Inv.length_decrypt (hd : Inv E keys d)
    (hE : ∀ k n ad p c t, E k n ad p = some (c, t) → c.length = p.length)
    {packet plain : List UInt8} (hok : ((d.ends side).decrypt (d.aead E) packet).2 = .ok plain) :
    plain.length + 32 = packet.length := by
  have hopen : ∀ k n ad c t p, (d.aead E).decryptInPlaceDetached k n ad c t = some p →
      p.length = c.length := by
    intro k n ad c t p hp
    obtain ⟨e, hfind, rfl⟩ := Option.map_eq_some_iff.mp hp
    have hcipher := List.find?_some hfind
    simp only [decide_eq_true_eq] at hcipher
    obtain ⟨-, hmade⟩ := hd.made e (List.mem_of_find?_eq_some hfind)
    rw [← hcipher.2.2.2.1, hE _ _ _ _ _ _ hmade]
  exact Session.length_decrypt hopen hok

/-- A packet that arrives as it was sent is opened, unless it is late. -/
theorem Inv.decrypt_sent (hd : Inv E keys d) (hk : Paired keys) {i : ℕ}
    {payload packet : List UInt8} (hi : (d.sent side.other)[i]? = some (payload, packet))
    (hfresh : UInt64.ofNat i ∉ d.opened side)
    (hwin : ∀ j ∈ d.opened side, j.toNat < i + 2048) :
    ((d.ends side).decrypt (d.aead E) packet).2 = .ok (padded payload) := by
  obtain ⟨l, hl⟩ := hd.ways side.other
  have hopened := hl.opened
  obtain ⟨hres, -⟩ := hl.decrypt_eq hk packet
  rw [Side.other_other] at hopened hres
  rw [hopened] at hfresh hwin
  rw [hl.sent] at hi
  exact hres.trans ((hl.inv hk).decrypt_sent E hi hfresh hwin)

/-- The newest packet is opened by an end that has not had it. -/
theorem Inv.decrypt_newest (hd : Inv E keys d) (hk : Paired keys)
    {old : List (List UInt8 × List UInt8)} {payload packet : List UInt8}
    (hsent : d.sent side.other = old ++ [(payload, packet)])
    (hold : ∀ c ∈ d.opened side, c.toNat < old.length) :
    ((d.ends side).decrypt (d.aead E) packet).2 = .ok (padded payload) := by
  obtain ⟨l, hl⟩ := hd.ways side.other
  have hn : (UInt64.ofNat old.length).toNat = old.length := by
    apply (hl.inv hk).toNat_ofNat
    rw [← hl.sent, hsent, List.length_append, List.length_singleton]
    exact Nat.lt_succ_self _
  refine hd.decrypt_sent hk (i := old.length) ?_ (fun hmem => ?_) fun j hj => ?_
  · rw [hsent, List.getElem?_append_right (Nat.le_refl _), Nat.sub_self]
    rfl
  · have := hold _ hmem
    omega
  · have := hold j hj
    omega

/-- With a lawful cipher, what fits is sent. -/
theorem sent_of_fits {A : Aead} (hA : A.Lawful) (hE : E = A.encryptInPlaceDetached) (d : Duplex)
    {payload : List UInt8} {outLen : ℕ} (hlim : outLen ≤ 2 ^ 32)
    (hfits : (d.ends side).Fits payload outLen) :
    ∃ s packet, (d.ends side).encrypt (d.aead E) payload outLen = (s, .ok packet) ∧
      packet.length ≤ outLen ∧
      (d.step E (.encrypt side payload outLen)).sent side = d.sent side ++ [(payload, packet)] := by
  subst hE
  obtain ⟨packet, he⟩ := Session.encrypt_of_fits hA hlim hfits
  refine ⟨_, packet, he, Session.length_encrypt hA he, ?_⟩
  rw [sent_encrypt, Function.update_self,
    show (d.ends side).encrypt (d.aead A.encryptInPlaceDetached) payload outLen = _ from he]
  rfl

end Duplex

end Lando
