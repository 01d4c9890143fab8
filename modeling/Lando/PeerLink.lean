/-
Lando/PeerLink.lean

Two peers that rekey, over a network that may reorder, repeat, drop and forge.

One end sends through `send_session`, the other looks every packet up with
`session_for_index`; handshakes install new keys at either end, each at its own
time and in any order, and both ends drop what has expired.  The cipher is the
ideal one of `Link`, and all handshakes share its memory.

A handshake has keys of its own, so it sees its own part of that memory and
nothing else: the packets under its keys are those of one `Link`, two sessions
that never heard of a rekey (`Tracks`).  A step of the peers is a step of one
`Link` or of none (`Inv.step`), and what the peers guarantee is what every
`Link` guarantees: a rekey repeats nothing, confuses nothing, and loses nothing
that is still young (`rekeyed_delivers_exactly`).
-/
import Lando.PeerKeepalive

namespace Lando

open Bytes Timers

/-! ### The two peers -/

/-- The keys that a handshake leaves at its two ends. -/
structure Agreed where
  a : SessionKeys
  b : SessionKeys
  mirrored : a.Mirrored b

namespace Agreed

/-- The key that `A` sends under. -/
def key (h : Agreed) : Key := h.a.send

theorem receive_eq (h : Agreed) : h.b.receive = h.key := h.mirrored.send_eq.symm

end Agreed

/-- What happens. -/
inductive PeerLink.Event
  | installA (h : Agreed) (initiator : Bool)
  | installB (h : Agreed) (initiator : Bool)
  | send (payload : List UInt8) (outLen : ℕ)
  | arrive (packet : List UInt8)
  | expireA
  | expireB

/-- The two peers, the memory of the cipher, what `A` emitted and what `B`
delivered, each with its key.  The last two fields are there for the proofs: the
handshakes installed at either end and when, the latest first. -/
structure PeerLink where
  a : Peer
  b : Peer
  log : List Sealed
  sent : List (Key × List UInt8 × List UInt8)
  delivered : List (Key × UInt64)
  madeA : List (Agreed × ℕ)
  madeB : List (Agreed × ℕ)

namespace PeerLink

variable (E : Link.Encryption)

/-- The ideal cipher at this point of the run. -/
def aead (w : PeerLink) : Aead := ⟨E, idealDecrypt w.log⟩

/-- Two peers without a session. -/
def start (keyA keyB : NodePublic) : PeerLink where
  a := Peer.new keyA
  b := Peer.new keyB
  log := []
  sent := []
  delivered := []
  madeA := []
  madeB := []

/-- `A` encrypts in the session it may send with. -/
def send (w : PeerLink) (now : ℕ) (payload : List UInt8) (outLen : ℕ) : PeerLink :=
  let r := w.a.sendSession now fun s => (s.encrypt (w.aead E) payload outLen).1
  match r.2 with
  | none => { w with a := r.1 }
  | some s =>
      match (s.encrypt (w.aead E) payload outLen).2 with
      | .ok packet =>
          { w with
            a := r.1
            log := w.log ++ Link.remember E s payload
            sent := w.sent ++ [(s.sendCipher, payload, packet)] }
      | .error _ => { w with a := r.1 }

/-- What a packet adds to what was delivered, when `s` decrypts it. -/
def counted (w : PeerLink) (s : Session) (packet : List UInt8) : List (Key × UInt64) :=
  match (s.decrypt (w.aead E) packet).2 with
  | .ok _ => [(s.receiveCipher, packetCounter packet)]
  | .error _ => []

/-- `B` decrypts in the session that the packet names. -/
def arrive (w : PeerLink) (now : ℕ) (packet : List UInt8) : PeerLink :=
  let r := w.b.sessionForIndex (packetReceiver packet) now fun s =>
    (s.decrypt (w.aead E) packet).1
  match r.2 with
  | none => { w with b := r.1 }
  | some s => { w with b := r.1, delivered := w.delivered ++ w.counted E s packet }

/-- One event. -/
def step (w : PeerLink) (now : ℕ) : Event → PeerLink
  | .installA h initiator =>
      { w with a := w.a.installSession h.a now initiator, madeA := (h, now) :: w.madeA }
  | .installB h initiator =>
      { w with b := w.b.installSession h.b now initiator, madeB := (h, now) :: w.madeB }
  | .send payload outLen => w.send E now payload outLen
  | .arrive packet => w.arrive E now packet
  | .expireA => { w with a := w.a.expire now }
  | .expireB => { w with b := w.b.expire now }

/-- The link under a clock; its events answer nothing. -/
def drive : Timed.Machine PeerLink Event Unit := fun w now ev => (w.step E now ev, ())

/-- The peers after a run. -/
def run (w : PeerLink) (evs : List (ℕ × Event)) : PeerLink := Timed.run (drive E) w evs

/-- What `A` sent under a key: payloads and packets, in order. -/
def sentUnder (w : PeerLink) (k : Key) : List (List UInt8 × List UInt8) :=
  (w.sent.filter fun p => p.1 = k).map Prod.snd

/-- The counters that `B` delivered under a key, in order. -/
def deliveredUnder (w : PeerLink) (k : Key) : List UInt64 :=
  (w.delivered.filter fun p => p.1 = k).map Prod.snd

/-- What `B` makes of a packet: the key of the session it is for, and the
result. -/
def opens (w : PeerLink) (now : ℕ) (packet : List UInt8) :
    Option (Key × Except WgError (List UInt8)) :=
  (w.b.sessionForIndex (packetReceiver packet) now id).2.map fun s =>
    (s.receiveCipher, (s.decrypt (w.aead E) packet).2)

/-- Every handshake is installed once at either end, and no two have a key in
common. -/
structure Fresh (w : PeerLink) : Prop where
  once_a : (w.madeA.map Prod.fst).Nodup
  once_b : (w.madeB.map Prod.fst).Nodup
  keys : ∀ x ∈ w.madeA ++ w.madeB, ∀ y ∈ w.madeA ++ w.madeB, x.1.key = y.1.key → x.1 = y.1

/-! ### The memory of one key -/

variable {E}

/-- Decryption under a key looks at what was encrypted under it. -/
theorem idealDecrypt_filter (log : List Sealed) (k : Key) (n : Nonce) (ad c : List UInt8)
    (t : Tag) :
    idealDecrypt (log.filter fun e => e.key = k) k n ad c t = idealDecrypt log k n ad c t := by
  rw [idealDecrypt, idealDecrypt, List.find?_filter]
  apply congrArg
  apply congrArg (fun p => log.find? p)
  funext e
  by_cases hk : e.key = k
  · simp [hk]
  · simp [hk]

theorem decrypt_filter (log : List Sealed) (s : Session) (packet : List UInt8) :
    s.decrypt ⟨E, idealDecrypt (log.filter fun e => e.key = s.receiveCipher)⟩ packet =
      s.decrypt ⟨E, idealDecrypt log⟩ packet := by
  simp only [Session.decrypt, idealDecrypt_filter]

end PeerLink

/-! ### What a link keeps -/

namespace Link

variable {E : Encryption} {ka kb : SessionKeys} {l : Link}

/-- The fields that no step changes. -/
structure Keyed (ka kb : SessionKeys) (l : Link) : Prop where
  send : l.a.sendCipher = ka.send
  receive : l.b.receiveCipher = kb.receive
  index : l.b.localIndex = kb.localIndex

theorem step_encrypt (l : Link) (payload : List UInt8) (outLen : ℕ) :
    (l.step E (.encrypt payload outLen)).b = l.b ∧
      (l.step E (.encrypt payload outLen)).delivered = l.delivered ∧
      (l.step E (.encrypt payload outLen)).a.sendCipher = l.a.sendCipher := by
  rcases l.a.encrypt_cases (l.aead E) payload outLen with ⟨e, he⟩ | ⟨body, tag, -, -, he⟩
  · simp [Link.step, he]
  · simp [Link.step, he]

/-- A packet that arrives touches the session of `B` and what was delivered. -/
theorem step_arrive (l : Link) (packet : List UInt8) :
    l.step E (.arrive packet) =
      { l with
        b := (l.b.decrypt (l.aead E) packet).1
        delivered := l.delivered ++
          match (l.b.decrypt (l.aead E) packet).2 with
          | .ok _ => [packetCounter packet]
          | .error _ => [] } := by
  rcases l.b.decrypt_cases (l.aead E) packet with ⟨e, he⟩ | ⟨body, tag, plain, -, -, -, he⟩
  · simp [Link.step, he]
  · simp [Link.step, he]

/-- Decryption leaves the keys and the indices of a session alone. -/
theorem decrypt_keyed (A : Aead) (s : Session) (packet : List UInt8) :
    (s.decrypt A packet).1.receiveCipher = s.receiveCipher ∧
      (s.decrypt A packet).1.localIndex = s.localIndex := by
  rcases s.decrypt_cases A packet with ⟨e, he⟩ | ⟨body, tag, plain, -, -, -, he⟩
  · rw [he]
    exact ⟨rfl, rfl⟩
  · rw [he]
    exact ⟨rfl, rfl⟩

theorem Keyed.step (h : l.Keyed ka kb) (ev : LinkEvent) : (l.step E ev).Keyed ka kb := by
  cases ev with
  | encrypt payload outLen =>
    obtain ⟨hb, -, ha⟩ := step_encrypt (E := E) l payload outLen
    exact ⟨ha.trans h.send, hb ▸ h.receive, hb ▸ h.index⟩
  | arrive packet =>
    obtain ⟨hr, hi⟩ := decrypt_keyed (l.aead E) l.b packet
    rw [step_arrive]
    exact ⟨h.send, hr.trans h.receive, hi.trans h.index⟩

theorem run_snoc (ka kb : SessionKeys) (evs : List LinkEvent) (ev : LinkEvent) :
    (run E ka kb evs).step E ev = run E ka kb (evs ++ [ev]) := by
  rw [run, run, List.foldl_append]
  rfl

theorem Keyed.run (ka kb : SessionKeys) (evs : List LinkEvent) :
    (run E ka kb evs).Keyed ka kb := by
  induction evs using List.reverseRecOn with
  | nil => exact ⟨rfl, rfl, rfl⟩
  | append_singleton evs ev ih =>
    rw [← run_snoc]
    exact ih.step ev

/-- What decrypts was sent with that counter, and not delivered before. -/
theorem Inv.decrypt_ok {l : Link} (hl : l.Inv) {packet plain : List UInt8}
    (hok : (l.b.decrypt (l.aead E) packet).2 = .ok plain) :
    packetCounter packet ∉ l.delivered ∧
      ∃ payload pkt, l.sent[(packetCounter packet).toNat]? = some (payload, pkt) ∧
        plain = padded payload := by
  rcases l.b.decrypt_cases (l.aead E) packet with ⟨e, h⟩ | ⟨body, tag, plain', -, hdec, hacc, h⟩
  · rw [h] at hok
    cases hok
  · rw [h] at hok
    obtain rfl := Except.ok.inj hok
    refine ⟨?_, hl.idealDecrypt_some hdec⟩
    rcases hl.window.accept (packetCounter packet) with ⟨hadm, -, -⟩ | ⟨-, hno⟩
    · exact hadm.2.1
    · simp [hno] at hacc

end Link

namespace PeerLink

variable {E : Link.Encryption} {w : PeerLink} {links : Agreed → Link} {S : Set Agreed}
  {now now' : ℕ}

/-! ### Each handshake its own link -/

/-- A slot of `B`, for the handshake it was filled by. -/
def SlotOf (now : ℕ) (slot : Option Active) (made : Option (Agreed × ℕ))
    (links : Agreed → Link) : Prop :=
  match made with
  | none => slot = none
  | some x => ∃ act : Active, act.session = (links x.1).b ∧ act.established = x.2 ∧
      Peer.Holds now slot (some act)

/-- The traffic under the keys of `h` is that of the link `l`. -/
structure Tracks (E : Link.Encryption) (w : PeerLink) (h : Agreed) (l : Link) : Prop where
  reached : ∃ evs, l = Link.run E h.a h.b evs
  log : l.log = w.log.filter fun e => e.key = h.key
  sent : l.sent = w.sentUnder h.key
  delivered : l.delivered = w.deliveredUnder h.key
  fresh_a : h ∉ w.madeA.map Prod.fst → l.a = Session.new h.a
  fresh_b : h ∉ w.madeB.map Prod.fst → l.b = Session.new h.b

/-- What holds throughout a run. -/
structure Inv (E : Link.Encryption) (S : Set Agreed) (now : ℕ) (w : PeerLink)
    (links : Agreed → Link) : Prop where
  tracks : ∀ h ∈ S, Tracks E w h (links h)
  others : ∀ k, (∀ h ∈ S, h.key ≠ k) → w.sentUnder k = [] ∧ w.deliveredUnder k = []
  current_a : ∀ act ∈ w.a.current, ∃ x ∈ w.madeA.head?, act.session = (links x.1).a
  current_b : SlotOf now w.b.current w.madeB[0]? links
  previous_b : SlotOf now w.b.previous w.madeB[1]? links

/-- The handshakes so far are among those of the run, no two of which share a
key, and were installed once. -/
structure Known (S : Set Agreed) (w : PeerLink) : Prop where
  inj : ∀ h ∈ S, ∀ h' ∈ S, h.key = h'.key → h = h'
  made_a : ∀ x ∈ w.madeA, x.1 ∈ S
  made_b : ∀ x ∈ w.madeB, x.1 ∈ S
  once_a : (w.madeA.map Prod.fst).Nodup
  once_b : (w.madeB.map Prod.fst).Nodup

theorem Tracks.inv {h : Agreed} {l : Link} (ht : Tracks E w h l) : l.Inv := by
  obtain ⟨evs, rfl⟩ := ht.reached
  exact Link.Inv.run E h.mirrored evs

theorem Tracks.keyed {h : Agreed} {l : Link} (ht : Tracks E w h l) : l.Keyed h.a h.b := by
  obtain ⟨evs, rfl⟩ := ht.reached
  exact Link.Keyed.run h.a h.b evs

theorem Tracks.step_reached {h : Agreed} {l : Link} (ht : Tracks E w h l) (ev : LinkEvent) :
    ∃ evs, l.step E ev = Link.run E h.a h.b evs := by
  obtain ⟨evs, rfl⟩ := ht.reached
  exact ⟨evs ++ [ev], Link.run_snoc h.a h.b evs ev⟩

/-- A step that neither encrypts, nor delivers, nor installs. -/
theorem Tracks.aside {h : Agreed} {l : Link} (ht : Tracks E w h l) (a b : Peer) :
    Tracks E { w with a := a, b := b } h l :=
  ⟨ht.reached, ht.log, ht.sent, ht.delivered, ht.fresh_a, ht.fresh_b⟩

theorem SlotOf.later {slot : Option Active} {made : Option (Agreed × ℕ)} (hle : now ≤ now')
    (h : SlotOf now slot made links) : SlotOf now' slot made links := by
  cases made with
  | none => exact h
  | some x =>
    obtain ⟨act, hs, he, hh⟩ := h
    exact ⟨act, hs, he, hh.later hle⟩

theorem Inv.later (h : Inv E S now w links) (hle : now ≤ now') : Inv E S now' w links :=
  ⟨h.tracks, h.others, h.current_a, h.current_b.later hle, h.previous_b.later hle⟩

/-- Slots of `B` under links that have their sessions at `B` unchanged. -/
theorem SlotOf.congr {slot : Option Active} {made : Option (Agreed × ℕ)}
    {links' : Agreed → Link} (h : SlotOf now slot made links)
    (heq : ∀ x ∈ made, (links' x.1).b = (links x.1).b) : SlotOf now slot made links' := by
  cases made with
  | none => exact h
  | some x =>
    obtain ⟨act, hs, he, hh⟩ := h
    exact ⟨act, hs.trans (heq x rfl).symm, he, hh⟩

theorem SlotOf.collect {slot : Option Active} {made : Option (Agreed × ℕ)}
    (h : SlotOf now slot made links) :
    SlotOf now (if slot.any fun a => a.expired now then none else slot) made links := by
  cases made with
  | none =>
    obtain rfl : slot = none := h
    rfl
  | some x =>
    obtain ⟨act, hs, he, hh⟩ := h
    exact ⟨act, hs, he, hh.collect⟩

theorem Inv.start (keyA keyB : NodePublic) :
    Inv E S now (start keyA keyB) fun h => Link.start h.a h.b where
  tracks h _ := ⟨⟨[], rfl⟩, rfl, rfl, rfl, fun _ => rfl, fun _ => rfl⟩
  others k _ := ⟨rfl, rfl⟩
  current_a act hact := absurd hact (by simp [PeerLink.start, Peer.new])
  current_b := rfl
  previous_b := rfl

/-! ### Installing and collecting -/

theorem Inv.installA (hw : Inv E S now w links) {h : Agreed} (hS : h ∈ S)
    (hnew : h ∉ w.madeA.map Prod.fst) (initiator : Bool) :
    Inv E S now (w.step E now (.installA h initiator)) links where
  tracks h' hh' := by
    have ht := hw.tracks h' hh'
    refine ⟨ht.reached, ht.log, ht.sent, ht.delivered, fun hno => ht.fresh_a fun hm => ?_,
      ht.fresh_b⟩
    exact hno (List.mem_cons_of_mem _ hm)
  others := hw.others
  current_a act hact := by
    obtain rfl := Option.some.inj hact
    exact ⟨(h, now), rfl, ((hw.tracks h hS).fresh_a hnew).symm⟩
  current_b := hw.current_b
  previous_b := hw.previous_b

theorem Inv.installB (hw : Inv E S now w links) {h : Agreed} (hS : h ∈ S)
    (hnew : h ∉ w.madeB.map Prod.fst) (initiator : Bool) :
    Inv E S now (w.step E now (.installB h initiator)) links where
  tracks h' hh' := by
    have ht := hw.tracks h' hh'
    refine ⟨ht.reached, ht.log, ht.sent, ht.delivered, ht.fresh_a, fun hno => ht.fresh_b fun hm =>
      ?_⟩
    exact hno (List.mem_cons_of_mem _ hm)
  others := hw.others
  current_a := hw.current_a
  current_b := ⟨⟨Session.new h.b, now, none, none, initiator⟩,
    ((hw.tracks h hS).fresh_b hnew).symm, rfl, .inl rfl⟩
  previous_b := hw.current_b

theorem Inv.expireA (hw : Inv E S now w links) : Inv E S now (w.step E now .expireA) links where
  tracks h hS := (hw.tracks h hS).aside _ _
  others := hw.others
  current_a act hact := by
    apply hw.current_a act
    simp only [step, Peer.expire_eq] at hact
    split_ifs at hact
    · cases hact
    · exact hact
  current_b := hw.current_b
  previous_b := hw.previous_b

theorem Inv.expireB (hw : Inv E S now w links) : Inv E S now (w.step E now .expireB) links where
  tracks h hS := (hw.tracks h hS).aside _ _
  others := hw.others
  current_a := hw.current_a
  current_b := by
    simp only [step, Peer.expire_eq]
    exact hw.current_b.collect
  previous_b := by
    simp only [step, Peer.expire_eq]
    exact hw.previous_b.collect

/-! ### Sending -/

theorem filter_remember (s : Session) (payload : List UInt8) (k : Key) :
    ((Link.remember E s payload).filter fun e => e.key = k) =
      if s.sendCipher = k then Link.remember E s payload else [] := by
  unfold Link.remember
  rcases E s.sendCipher (nonce s.sendCounter) [] (padded payload) with - | r
  · simp
  · by_cases hk : s.sendCipher = k
    · simp [hk]
    · simp [hk]

open Classical in
/-- A step of the link of `h` that leaves its session at `B` alone. -/
theorem Inv.send (hw : Inv E S now w links) (hk : Known S w) (payload : List UInt8) (outLen : ℕ) :
    ∃ links', Inv E S now (w.step E now (.send payload outLen)) links' := by
  show ∃ links', Inv E S now (w.send E now payload outLen) links'
  unfold PeerLink.send
  rcases w.a.sendSession_cases now with hno | ⟨act, hc, hlend⟩
  · rw [hno]
    exact ⟨links, hw⟩
  obtain ⟨x, hx, hsession⟩ := hw.current_a act hc
  have hmem : x ∈ w.madeA := List.mem_of_mem_head? hx
  have hS : x.1 ∈ S := hk.made_a x hmem
  have ht := hw.tracks x.1 hS
  have hkey : (links x.1).a.sendCipher = x.1.key := ht.keyed.send
  rw [hlend, hsession]
  simp only
  rcases (links x.1).a.encrypt_cases (w.aead E) payload outLen with
    ⟨e, he⟩ | ⟨body, tag, -, -, he⟩
  · -- nothing is sent, and the session is lent out for nothing
    rw [he]
    refine ⟨links, fun h hS => (hw.tracks h hS).aside _ _, hw.others, ?_, hw.current_b,
      hw.previous_b⟩
    intro act' hact'
    obtain rfl := Option.some.inj hact'
    refine ⟨x, hx, ?_⟩
    show ((act.session).encrypt (w.aead E) payload outLen).1 = _
    rw [hsession, he]
  · have hstep : (links x.1).step E (.encrypt payload outLen) =
        { links x.1 with
          a := { (links x.1).a with sendCounter := (links x.1).a.sendCounter + 1 }
          log := (links x.1).log ++ Link.remember E (links x.1).a payload
          sent := (links x.1).sent ++ [(payload, transportHeader (links x.1).a.peerIndex
            (links x.1).a.sendCounter ++ body ++ tag.toList)] } := by
      have he' : (links x.1).a.encrypt ((links x.1).aead E) payload outLen = _ := he
      simp only [Link.step, he']
    rw [he]
    refine ⟨Function.update links x.1 ((links x.1).step E (.encrypt payload outLen)), ?_, ?_, ?_,
      ?_, ?_⟩
    · intro h hh
      by_cases hx1 : h = x.1
      · subst hx1
        rw [Function.update_self]
        refine ⟨ht.step_reached _, ?_, ?_, ?_, fun hno => ?_, fun hno => ?_⟩
        · simp only [hstep, ht.log, List.filter_append, filter_remember, hkey, if_pos]
        · simp [hstep, ht.sent, sentUnder, hkey]
        · simp only [hstep, ht.delivered, deliveredUnder]
        · exact absurd (List.mem_map_of_mem hmem) hno
        · simp only [hstep, ht.fresh_b hno]
      · have hne : x.1.key ≠ h.key := fun heq => hx1 (hk.inj x.1 hS h hh heq).symm
        have ht' := hw.tracks h hh
        rw [Function.update_of_ne hx1]
        refine ⟨ht'.reached, ?_, ?_, ht'.delivered, ht'.fresh_a, ht'.fresh_b⟩
        · simp only [ht'.log, List.filter_append, filter_remember, hkey, if_neg hne,
            List.append_nil]
        · simp [ht'.sent, sentUnder, hkey, hne]
    · intro k hno
      obtain ⟨hs, hd⟩ := hw.others k hno
      have hne : x.1.key ≠ k := hno x.1 hS
      rw [sentUnder] at hs
      refine ⟨?_, hd⟩
      simp only [sentUnder, List.filter_append, List.map_append, hs, hkey]
      simp [hne]
    · intro act' hact'
      obtain rfl := Option.some.inj hact'
      refine ⟨x, hx, ?_⟩
      rw [Function.update_self, hstep]
      show ((act.session).encrypt (w.aead E) payload outLen).1 = _
      rw [hsession, he]
    · apply hw.current_b.congr
      intro y _
      by_cases hy : y.1 = x.1
      · rw [hy, Function.update_self, (Link.step_encrypt _ _ _).1]
      · rw [Function.update_of_ne hy]
    · apply hw.previous_b.congr
      intro y _
      by_cases hy : y.1 = x.1
      · rw [hy, Function.update_self, (Link.step_encrypt _ _ _).1]
      · rw [Function.update_of_ne hy]

/-! ### Receiving -/

/-- A lookup finds nothing, the current session or the one before it. -/
theorem sessionForIndex_cases (p : Peer) (index : UInt32) (now : ℕ) :
    (∀ use, p.sessionForIndex index now use = (p, none)) ∨
    (∃ a, p.current = some a ∧ ∀ use, p.sessionForIndex index now use =
      ({ p with current := some (a.lendReceive now use) }, some a.session)) ∨
    ∃ a, p.previous = some a ∧ ∀ use, p.sessionForIndex index now use =
      ({ p with previous := some (a.lendReceive now use) }, some a.session) := by
  unfold Peer.sessionForIndex
  rcases hc : Peer.addressed p.current index now with - | a
  · rcases hp : Peer.addressed p.previous index now with - | a
    · exact .inl fun use => rfl
    · exact .inr (.inr ⟨a, (Peer.addressed_some hp).1, fun use => rfl⟩)
  · exact .inr (.inl ⟨a, (Peer.addressed_some hc).1, fun use => rfl⟩)

theorem SlotOf.session {act : Active} {made : Option (Agreed × ℕ)}
    (h : SlotOf now (some act) made links) :
    ∃ x, made = some x ∧ act.session = (links x.1).b ∧ act.established = x.2 := by
  cases made with
  | none => cases h
  | some x =>
    obtain ⟨act', hs, he, heq | ⟨hno, -⟩⟩ := h
    · obtain rfl := Option.some.inj heq
      exact ⟨x, rfl, hs, he⟩
    · cases hno

/-- The session of a link decrypts alike with the whole memory. -/
theorem Tracks.decrypt_eq {h : Agreed} {l : Link} (ht : Tracks E w h l) (packet : List UInt8) :
    l.b.decrypt (w.aead E) packet = l.b.decrypt (l.aead E) packet := by
  have hkey : l.b.receiveCipher = h.key := ht.keyed.receive.trans h.receive_eq
  rw [aead, Link.aead, ht.log, ← hkey, decrypt_filter]

/-- A packet under the keys of `h` is one for its link. -/
theorem Tracks.arrive {h : Agreed} {l : Link} (ht : Tracks E w h l)
    (hin : h ∈ w.madeB.map Prod.fst) (packet : List UInt8) (b : Peer) :
    Tracks E { w with b := b, delivered := w.delivered ++ w.counted E l.b packet } h
      (l.step E (.arrive packet)) := by
  have hkey : l.b.receiveCipher = h.key := ht.keyed.receive.trans h.receive_eq
  refine ⟨ht.step_reached _, ?_, ?_, ?_, fun hno => ?_, fun hno => absurd hin hno⟩
  · rw [Link.step_arrive]
    exact ht.log
  · rw [Link.step_arrive]
    exact ht.sent
  · rw [Link.step_arrive, counted, ht.decrypt_eq packet]
    simp only [ht.delivered, deliveredUnder, List.filter_append, List.map_append]
    rcases (l.b.decrypt (l.aead E) packet).2 with e | plain
    · rfl
    · simp [hkey]
  · rw [Link.step_arrive]
    exact ht.fresh_a hno

/-- To every other handshake it is nothing. -/
theorem Tracks.arrive_other {h : Agreed} {l : Link} (ht : Tracks E w h l) {s : Session}
    (hne : s.receiveCipher ≠ h.key) (packet : List UInt8) (b : Peer) :
    Tracks E { w with b := b, delivered := w.delivered ++ w.counted E s packet } h l := by
  refine ⟨ht.reached, ht.log, ht.sent, ?_, ht.fresh_a, ht.fresh_b⟩
  rw [counted]
  simp only [ht.delivered, deliveredUnder, List.filter_append, List.map_append]
  rcases (s.decrypt (w.aead E) packet).2 with e | plain
  · simp
  · simp [hne]

/-- The two slots of `B` hold sessions of different handshakes. -/
theorem Known.slots_ne (hk : Known S w) {i j : ℕ} {x y : Agreed × ℕ} (hx : w.madeB[i]? = some x)
    (hy : w.madeB[j]? = some y) (hij : i ≠ j) : y.1 ≠ x.1 := by
  intro heq
  have hi : (w.madeB.map Prod.fst)[i]? = some x.1 := by rw [List.getElem?_map, hx]; rfl
  have hj : (w.madeB.map Prod.fst)[j]? = some y.1 := by rw [List.getElem?_map, hy]; rfl
  rw [heq, ← hi] at hj
  have := (List.getElem?_inj (List.getElem?_eq_some_iff.mp hi).1 hk.once_b).mp hj.symm
  exact hij this

open Classical in
/-- A packet for the session of `x`, in whichever slot that is. -/
theorem Inv.opened (hw : Inv E S now w links) (hk : Known S w) {x : Agreed × ℕ}
    (hx : x ∈ w.madeB) (packet : List UInt8) (b : Peer) :
    (∀ h ∈ S, Tracks E
        { w with b := b, delivered := w.delivered ++ w.counted E (links x.1).b packet } h
        (Function.update links x.1 ((links x.1).step E (.arrive packet)) h)) ∧
      (∀ k, (∀ h ∈ S, h.key ≠ k) → w.sentUnder k = [] ∧
        ({ w with b := b, delivered := w.delivered ++ w.counted E (links x.1).b packet } :
          PeerLink).deliveredUnder k = []) ∧
      ∀ act ∈ w.a.current, ∃ y ∈ w.madeA.head?, act.session =
        (Function.update links x.1 ((links x.1).step E (.arrive packet)) y.1).a := by
  have hS : x.1 ∈ S := hk.made_b x hx
  have ht := hw.tracks x.1 hS
  have hkey : (links x.1).b.receiveCipher = x.1.key := ht.keyed.receive.trans x.1.receive_eq
  refine ⟨?_, ?_, ?_⟩
  · intro h hh
    by_cases hx1 : h = x.1
    · subst hx1
      rw [Function.update_self]
      exact ht.arrive (List.mem_map_of_mem hx) packet b
    · have hne : (links x.1).b.receiveCipher ≠ h.key := by
        rw [hkey]
        exact fun heq => hx1 (hk.inj x.1 hS h hh heq).symm
      rw [Function.update_of_ne hx1]
      exact (hw.tracks h hh).arrive_other hne packet b
  · intro k hno
    obtain ⟨hs, hd⟩ := hw.others k hno
    rw [deliveredUnder] at hd
    refine ⟨hs, ?_⟩
    simp only [deliveredUnder, List.filter_append, List.map_append, hd, counted]
    rcases ((links x.1).b.decrypt (w.aead E) packet).2 with e | plain
    · rfl
    · have hne : x.1.key ≠ k := hno x.1 hS
      simp [hkey, hne]
  · intro act hact
    obtain ⟨y, hy, hs⟩ := hw.current_a act hact
    refine ⟨y, hy, ?_⟩
    by_cases hy1 : y.1 = x.1
    · rw [hs, hy1, Function.update_self, Link.step_arrive]
    · rw [hs, Function.update_of_ne hy1]

open Classical in
/-- The slot that was opened. -/
theorem Inv.slot_opened (hw : Inv E S now w links) (hk : Known S w) {x : Agreed × ℕ}
    (hx : x ∈ w.madeB) {act : Active} (hsession : act.session = (links x.1).b)
    (hest : act.established = x.2) (packet : List UInt8) :
    SlotOf now
      (some (act.lendReceive now fun s => (s.decrypt (w.aead E) packet).1)) (some x)
      (Function.update links x.1 ((links x.1).step E (.arrive packet))) := by
  refine ⟨act.lendReceive now fun s => (s.decrypt (w.aead E) packet).1, ?_, hest, .inl rfl⟩
  rw [Function.update_self, Link.step_arrive]
  show (act.session.decrypt (w.aead E) packet).1 = _
  rw [hsession, (hw.tracks x.1 (hk.made_b x hx)).decrypt_eq]

open Classical in
/-- A packet that arrives is a step of one link or of none. -/
theorem Inv.arrive (hw : Inv E S now w links) (hk : Known S w) (packet : List UInt8) :
    ∃ links', Inv E S now (w.step E now (.arrive packet)) links' := by
  show ∃ links', Inv E S now (w.arrive E now packet) links'
  unfold PeerLink.arrive
  rcases sessionForIndex_cases w.b (packetReceiver packet) now with
    hno | ⟨act, hc, hlend⟩ | ⟨act, hp, hlend⟩
  · rw [hno]
    exact ⟨links, hw⟩
  · -- the current session
    have hslot := hw.current_b
    rw [hc] at hslot
    obtain ⟨x, hx, hsession, hest⟩ := hslot.session
    have hmem : x ∈ w.madeB := List.mem_of_getElem? hx
    rw [hlend, hsession]
    obtain ⟨htracks, hothers, hcur⟩ := hw.opened hk hmem packet
      { w.b with current := some (act.lendReceive now fun s => (s.decrypt (w.aead E) packet).1) }
    refine ⟨_, htracks, hothers, hcur, ?_, ?_⟩
    · show SlotOf now (some _) w.madeB[0]? _
      rw [hx]
      exact hw.slot_opened hk hmem hsession hest packet
    · apply hw.previous_b.congr
      intro y hy
      rw [Function.update_of_ne (hk.slots_ne hx hy (by decide))]
  · -- the one before it
    have hslot := hw.previous_b
    rw [hp] at hslot
    obtain ⟨x, hx, hsession, hest⟩ := hslot.session
    have hmem : x ∈ w.madeB := List.mem_of_getElem? hx
    rw [hlend, hsession]
    obtain ⟨htracks, hothers, hcur⟩ := hw.opened hk hmem packet
      { w.b with previous := some (act.lendReceive now fun s => (s.decrypt (w.aead E) packet).1) }
    refine ⟨_, htracks, hothers, hcur, ?_, ?_⟩
    · apply hw.current_b.congr
      intro y hy
      rw [Function.update_of_ne (hk.slots_ne hx hy (by decide))]
    · show SlotOf now (some _) w.madeB[1]? _
      rw [hx]
      exact hw.slot_opened hk hmem hsession hest packet

/-! ### Runs -/

/-- What is installed stays listed. -/
def Grows (w w' : PeerLink) : Prop := w.madeA <:+ w'.madeA ∧ w.madeB <:+ w'.madeB

theorem send_made (w : PeerLink) (now : ℕ) (payload : List UInt8) (outLen : ℕ) :
    (w.send E now payload outLen).madeA = w.madeA ∧
      (w.send E now payload outLen).madeB = w.madeB := by
  simp only [PeerLink.send]
  split
  · exact ⟨rfl, rfl⟩
  · split
    · exact ⟨rfl, rfl⟩
    · exact ⟨rfl, rfl⟩

theorem arrive_made (w : PeerLink) (now : ℕ) (packet : List UInt8) :
    (w.arrive E now packet).madeA = w.madeA ∧ (w.arrive E now packet).madeB = w.madeB := by
  simp only [PeerLink.arrive]
  split
  · exact ⟨rfl, rfl⟩
  · exact ⟨rfl, rfl⟩

theorem step_grows (w : PeerLink) (now : ℕ) (ev : Event) : w.Grows (w.step E now ev) := by
  cases ev with
  | installA h initiator => exact ⟨List.suffix_cons _ _, List.suffix_rfl⟩
  | installB h initiator => exact ⟨List.suffix_rfl, List.suffix_cons _ _⟩
  | send payload outLen =>
    obtain ⟨ha, hb⟩ := send_made (E := E) w now payload outLen
    exact ⟨ha ▸ List.suffix_rfl, hb ▸ List.suffix_rfl⟩
  | arrive packet =>
    obtain ⟨ha, hb⟩ := arrive_made (E := E) w now packet
    exact ⟨ha ▸ List.suffix_rfl, hb ▸ List.suffix_rfl⟩
  | expireA => exact ⟨List.suffix_rfl, List.suffix_rfl⟩
  | expireB => exact ⟨List.suffix_rfl, List.suffix_rfl⟩

theorem run_grows (w : PeerLink) (evs : List (ℕ × Event)) : w.Grows (run E w evs) := by
  induction evs generalizing w with
  | nil => exact ⟨List.suffix_rfl, List.suffix_rfl⟩
  | cons x evs ih =>
    obtain ⟨ha, hb⟩ := step_grows (E := E) w x.1 x.2
    obtain ⟨ha', hb'⟩ := ih (w.step E x.1 x.2)
    exact ⟨ha.trans ha', hb.trans hb'⟩

theorem Known.of_grows {w' : PeerLink} (hk : Known S w') (hg : w.Grows w') : Known S w where
  inj := hk.inj
  made_a x hx := hk.made_a x (hg.1.subset hx)
  made_b x hx := hk.made_b x (hg.2.subset hx)
  once_a := hk.once_a.sublist (hg.1.sublist.map _)
  once_b := hk.once_b.sublist (hg.2.sublist.map _)

theorem Inv.step (hw : Inv E S now w links) (ev : Event) (hk : Known S (w.step E now ev)) :
    ∃ links', Inv E S now (w.step E now ev) links' := by
  have hk₀ : Known S w := hk.of_grows (step_grows w now ev)
  cases ev with
  | installA h initiator =>
    have hnew : h ∉ w.madeA.map Prod.fst := (List.nodup_cons.mp hk.once_a).1
    exact ⟨links, hw.installA (hk.made_a (h, now) List.mem_cons_self) hnew initiator⟩
  | installB h initiator =>
    have hnew : h ∉ w.madeB.map Prod.fst := (List.nodup_cons.mp hk.once_b).1
    exact ⟨links, hw.installB (hk.made_b (h, now) List.mem_cons_self) hnew initiator⟩
  | send payload outLen => exact hw.send hk₀ payload outLen
  | arrive packet => exact hw.arrive hk₀ packet
  | expireA => exact ⟨links, hw.expireA⟩
  | expireB => exact ⟨links, hw.expireB⟩

theorem Inv.run (hw : Inv E S now w links) {evs : List (ℕ × Event)}
    (ho : Timed.Ordered now evs) (hk : Known S (run E w evs)) :
    ∃ links', Inv E S (Timed.finish now evs) (PeerLink.run E w evs) links' := by
  induction evs generalizing now w links with
  | nil => exact ⟨links, hw⟩
  | cons x evs ih =>
    have hk₁ : Known S (w.step E x.1 x.2) := hk.of_grows (run_grows _ evs)
    obtain ⟨links₁, hw₁⟩ := (hw.later ho.1).step x.2 hk₁
    exact ih hw₁ ho.2 hk

/-- The handshakes of a run. -/
def handshakes (w : PeerLink) : Set Agreed := { h | h ∈ (w.madeA ++ w.madeB).map Prod.fst }

theorem Fresh.known (hw : w.Fresh) : Known w.handshakes w where
  inj h hh h' hh' heq := by
    obtain ⟨x, hx, rfl⟩ := List.mem_map.mp hh
    obtain ⟨y, hy, rfl⟩ := List.mem_map.mp hh'
    exact hw.keys x hx y hy heq
  made_a x hx := List.mem_map_of_mem (List.mem_append_left _ hx)
  made_b x hx := List.mem_map_of_mem (List.mem_append_right _ hx)
  once_a := hw.once_a
  once_b := hw.once_b

/-! ### What arrives -/

theorem Inv.sent_eq (hw : Inv E S now w links) (k : Key) :
    (w.sentUnder k = [] ∧ w.deliveredUnder k = []) ∨
      ∃ l : Link, l.Inv ∧ w.sentUnder k = l.sent ∧ w.deliveredUnder k = l.delivered := by
  by_cases hk : ∃ h ∈ S, h.key = k
  · obtain ⟨h, hS, rfl⟩ := hk
    have ht := hw.tracks h hS
    exact .inr ⟨links h, ht.inv, ht.sent.symm, ht.delivered.symm⟩
  · exact .inl (hw.others k fun h hS hkey => hk ⟨h, hS, hkey⟩)

/-- Nothing is delivered twice under one key, hence nothing is. -/
theorem nodup_of_under (h : ∀ k, (w.deliveredUnder k).Nodup) : w.delivered.Nodup := by
  rw [List.nodup_iff_count_le_one]
  intro p
  have hle : (w.delivered.filter fun q => q.1 = p.1).Nodup := (h p.1).of_map _
  have hcount := List.count_filter (l := w.delivered) (a := p) (p := fun q => q.1 = p.1) (by simp)
  rw [← hcount]
  exact List.nodup_iff_count_le_one.mp hle p

theorem mem_deliveredUnder {k : Key} {c : UInt64} :
    c ∈ w.deliveredUnder k ↔ (k, c) ∈ w.delivered := by
  rw [deliveredUnder, List.mem_map]
  constructor
  · rintro ⟨⟨k', c'⟩, hmem, rfl⟩
    obtain ⟨hin, hk⟩ := List.mem_filter.mp hmem
    obtain rfl : k' = k := by simpa using hk
    exact hin
  · intro hmem
    exact ⟨(k, c), List.mem_filter.mpr ⟨hmem, by simp⟩, rfl⟩

/-- A packet opens in one link or in none. -/
theorem Inv.opens_cases (hw : Inv E S now w links) (hk : Known S w) {packet : List UInt8}
    {k : Key} {r : Except WgError (List UInt8)} (h : w.opens E now packet = some (k, r)) :
    ∃ x ∈ w.madeB, k = x.1.key ∧
      r = ((links x.1).b.decrypt ((links x.1).aead E) packet).2 := by
  have hslot : ∀ (i : ℕ) slot act, SlotOf now slot w.madeB[i]? links → slot = some act →
      ∃ x ∈ w.madeB, act.session.receiveCipher = x.1.key ∧
        (act.session.decrypt (w.aead E) packet).2 =
          ((links x.1).b.decrypt ((links x.1).aead E) packet).2 := by
    rintro i _ act hslot rfl
    obtain ⟨x, hx, hs, -⟩ := hslot.session
    have hmem := List.mem_of_getElem? hx
    have ht := hw.tracks x.1 (hk.made_b x hmem)
    refine ⟨x, hmem, ?_, ?_⟩
    · rw [hs, ht.keyed.receive, x.1.receive_eq]
    · rw [hs, ht.decrypt_eq]
  unfold opens at h
  rcases sessionForIndex_cases w.b (packetReceiver packet) now with
    hno | ⟨act, hc, hlend⟩ | ⟨act, hp, hlend⟩
  · rw [hno] at h
    cases h
  · rw [hlend] at h
    obtain ⟨x, hmem, hkey, hr⟩ := hslot 0 _ act hw.current_b hc
    obtain ⟨rfl, rfl⟩ := Prod.mk.inj (Option.some.inj h)
    exact ⟨x, hmem, hkey, hr⟩
  · rw [hlend] at h
    obtain ⟨x, hmem, hkey, hr⟩ := hslot 1 _ act hw.previous_b hp
    obtain ⟨rfl, rfl⟩ := Prod.mk.inj (Option.some.inj h)
    exact ⟨x, hmem, hkey, hr⟩

/-- The session of a slot answers for its own index while it is young. -/
theorem SlotOf.addressed_self {slot : Option Active} {x : Agreed × ℕ} {l : Link} {index : UInt32}
    (h : SlotOf now slot (some x) links) (hl : (links x.1).b = l.b)
    (hindex : l.b.localIndex = index)
    (hyoung : now - x.2 < rejectAfterTime) :
    ∃ act, Peer.addressed slot index now = some act ∧ act.session = l.b := by
  obtain ⟨act, hs, he, hh⟩ := h
  refine ⟨act, ?_, hs.trans hl⟩
  have hexp : act.expired now = false := Peer.expired_eq_false.mpr (he ▸ hyoung)
  rw [hh.addressed_eq, Peer.addressed, Option.filter_some, hs, hl, hindex, hexp]
  simp

/-- A slot with another index does not answer. -/
theorem SlotOf.addressed_other {slot : Option Active} {x : Agreed × ℕ} {index : UInt32}
    (h : SlotOf now slot (some x) links) (hindex : (links x.1).b.localIndex ≠ index) :
    Peer.addressed slot index now = none := by
  obtain ⟨act, hs, -, hh⟩ := h
  rw [hh.addressed_eq, Peer.addressed, Option.filter_eq_none_iff]
  intro b hb
  obtain rfl := Option.some.inj hb
  simp [hs, hindex]

/-- The two latest handshakes answer for their own packets. -/
theorem Inv.opens_made (hw : Inv E S now w links) (hk : Known S w) {x : Agreed × ℕ}
    (hx : x ∈ w.madeB.take 2) (hyoung : now - x.2 < rejectAfterTime)
    (hindex : ∀ y ∈ w.madeB.take 2, y.1.b.localIndex = x.1.b.localIndex → y.1 = x.1)
    {packet : List UInt8} (hp : packetReceiver packet = x.1.b.localIndex) :
    w.opens E now packet =
      some (x.1.key, ((links x.1).b.decrypt ((links x.1).aead E) packet).2) := by
  have hmem : x ∈ w.madeB := List.mem_of_mem_take hx
  have ht := hw.tracks x.1 (hk.made_b x hmem)
  have hown : (links x.1).b.localIndex = packetReceiver packet := ht.keyed.index.trans hp.symm
  suffices ∃ act, (w.b.sessionForIndex (packetReceiver packet) now id).2 = some act ∧
      act = (links x.1).b by
    obtain ⟨_, hact, rfl⟩ := this
    rw [opens, hact, Option.map_some, ht.decrypt_eq, ht.keyed.receive, x.1.receive_eq]
  rw [Peer.sessionForIndex_answer]
  rcases Peer.mem_take_two.mp hx with h0 | h1
  · have hslot := hw.current_b
    rw [h0] at hslot
    obtain ⟨act, hact, hs⟩ := hslot.addressed_self rfl hown hyoung
    exact ⟨_, by rw [hact]; rfl, hs⟩
  · -- the current session has another index
    rcases h0 : w.madeB[0]? with - | y
    · rw [List.getElem?_eq_none_iff] at h0
      have := (List.getElem?_eq_some_iff.mp h1).1
      omega
    have hne : y.1 ≠ x.1 := hk.slots_ne h1 h0 (by decide)
    have hother : (links y.1).b.localIndex ≠ packetReceiver packet := by
      intro heq
      apply hne
      apply hindex y (Peer.mem_take_two.mpr (.inl h0))
      have hty := hw.tracks y.1 (hk.made_b y (List.mem_of_getElem? h0))
      rw [← hty.keyed.index, heq, hp]
    have hcur := hw.current_b
    rw [h0] at hcur
    have hslot := hw.previous_b
    rw [h1] at hslot
    obtain ⟨act, hact, hs⟩ := hslot.addressed_self rfl hown hyoung
    exact ⟨_, by rw [hcur.addressed_other hother, hact]; rfl, hs⟩

/-- What a link has sent is for its own session at `B`. -/
theorem Tracks.packetReceiver_eq {h : Agreed} {l : Link} (ht : Tracks E w h l) {i : ℕ}
    {payload packet : List UInt8} (hi : l.sent[i]? = some (payload, packet)) :
    packetReceiver packet = h.b.localIndex := by
  obtain ⟨body, tag, -, rfl⟩ := ht.inv.packets i payload packet hi
  rw [packetReceiver_packet, ht.inv.index, ht.keyed.index]

/-- **The data path across rekeys.**  In every state of every run of two peers
with an ideal cipher, whose handshakes have keys of their own and are installed
once at either end, each at its own time:

* the packets emitted under a key carry the counters `0, 1, 2, …`;
* what was delivered under a key was sent under it, and no packet is delivered
  twice;
* whatever arrives, a packet that opens gives the padded payload of the packet
  with that key and counter, which was not delivered before;
* a packet that arrives as it was sent, under one of the two latest keys of `B`
  before these expire, not yet delivered and less than 2048 below everything
  delivered under its key, opens, if the two do not share an index. -/
theorem rekeyed_delivers_exactly (keyA keyB : NodePublic) (begin : ℕ) (evs : List (ℕ × Event))
    (ho : Timed.Ordered begin evs) (hfresh : (run E (start keyA keyB) evs).Fresh) (now : ℕ)
    (hnow : Timed.finish begin evs ≤ now) :
    let w := run E (start keyA keyB) evs
    (∀ k, (w.sentUnder k).map (fun p => (packetCounter p.2).toNat) =
      List.range (w.sentUnder k).length) ∧
    ((∀ p ∈ w.delivered, p.2.toNat < (w.sentUnder p.1).length) ∧ w.delivered.Nodup) ∧
    (∀ packet k plain, w.opens E now packet = some (k, .ok plain) →
      (k, packetCounter packet) ∉ w.delivered ∧
      ∃ payload pkt, (w.sentUnder k)[(packetCounter packet).toNat]? = some (payload, pkt) ∧
        plain = padded payload) ∧
    (∀ x ∈ w.madeB.take 2, now - x.2 < rejectAfterTime →
      (∀ y ∈ w.madeB.take 2, y.1.b.localIndex = x.1.b.localIndex → y.1 = x.1) →
      ∀ i payload packet, (w.sentUnder x.1.key)[i]? = some (payload, packet) →
        (x.1.key, UInt64.ofNat i) ∉ w.delivered →
        (∀ j, (x.1.key, j) ∈ w.delivered → j.toNat < i + 2048) →
        w.opens E now packet = some (x.1.key, .ok (padded payload))) := by
  intro w
  have hk : Known w.handshakes w := hfresh.known
  obtain ⟨links, hw⟩ := (Inv.start keyA keyB).run ho hk
  replace hw := hw.later hnow
  refine ⟨?_, ⟨?_, ?_⟩, ?_, ?_⟩
  · intro k
    rcases hw.sent_eq k with ⟨hs, -⟩ | ⟨l, hl, hs, -⟩
    · rw [hs]
      rfl
    · rw [hs]
      exact hl.map_packetCounter
  · rintro ⟨k, c⟩ hmem
    rw [← mem_deliveredUnder] at hmem
    rcases hw.sent_eq k with ⟨-, hd⟩ | ⟨l, hl, hs, hd⟩
    · rw [hd] at hmem
      cases hmem
    · rw [hs]
      exact hl.delivered_lt c (hd ▸ hmem)
  · apply nodup_of_under
    intro k
    rcases hw.sent_eq k with ⟨-, hd⟩ | ⟨l, hl, -, hd⟩
    · rw [hd]
      exact List.nodup_nil
    · rw [hd]
      exact hl.nodup
  · intro packet k plain hopen
    obtain ⟨x, hx, rfl, hr⟩ := hw.opens_cases hk hopen
    have ht := hw.tracks x.1 (hk.made_b x hx)
    rw [← mem_deliveredUnder, ← ht.delivered, ← ht.sent]
    exact ht.inv.decrypt_ok hr.symm
  · intro x hx hyoung hindex i payload packet hi hno hwin
    have ht := hw.tracks x.1 (hk.made_b x (List.mem_of_mem_take hx))
    rw [← mem_deliveredUnder, ← ht.delivered] at hno
    rw [← ht.sent] at hi
    have hwin' : ∀ j ∈ (links x.1).delivered, j.toNat < i + 2048 := by
      intro j hj
      rw [ht.delivered, mem_deliveredUnder] at hj
      exact hwin j hj
    rw [hw.opens_made hk hx hyoung hindex (ht.packetReceiver_eq hi),
      ht.inv.decrypt_sent E hi hno hwin']

/-- A packet sent before a rekey that arrives after it. -/
theorem rekeyed_delivers_exactly_late :
    let h₁ : Agreed := ⟨⟨Vector.replicate 32 1, Vector.replicate 32 2, 10, 20⟩,
      ⟨Vector.replicate 32 2, Vector.replicate 32 1, 20, 10⟩, ⟨rfl, rfl, rfl, rfl⟩⟩
    let h₂ : Agreed := ⟨⟨Vector.replicate 32 3, Vector.replicate 32 4, 11, 21⟩,
      ⟨Vector.replicate 32 4, Vector.replicate 32 3, 21, 11⟩, ⟨rfl, rfl, rfl, rfl⟩⟩
    let E := checksumAead.encryptInPlaceDetached
    let w := run E (start ⟨Vector.replicate 32 7⟩ ⟨Vector.replicate 32 8⟩)
      [(0, .installB h₁ false), (0, .installA h₁ true), (1, .send [1, 2, 3] 64),
        (1000, .installB h₂ false), (1000, .installA h₂ true)]
    ∃ packet, (w.sentUnder h₁.key)[0]? = some ([1, 2, 3], packet) ∧
      w.opens E 2000 packet = some (h₁.key, .ok (padded [1, 2, 3])) := by
  intro h₁ h₂ E w
  have hne : h₁ ≠ h₂ := fun h => absurd (congrArg (fun h => h.a.localIndex) h) (by decide)
  have hkey : h₁.key ≠ h₂.key := by decide
  have hfresh : w.Fresh := by
    refine ⟨?_, ?_, ?_⟩
    · show [h₂, h₁].Nodup
      simp [hne.symm]
    · show [h₂, h₁].Nodup
      simp [hne.symm]
    · show ∀ x ∈ [(h₂, 1000), (h₁, 0)] ++ [(h₂, 1000), (h₁, 0)],
        ∀ y ∈ [(h₂, 1000), (h₁, 0)] ++ [(h₂, 1000), (h₁, 0)], x.1.key = y.1.key → x.1 = y.1
      simp [hkey, hkey.symm]
  have hmade : w.madeB.take 2 = [(h₂, 1000), (h₁, 0)] := rfl
  have hnone : w.delivered = [] := rfl
  refine ⟨_, rfl, (rekeyed_delivers_exactly _ _ 0 _ ?_ hfresh 2000 (by decide)).2.2.2
    (h₁, 0) ?_ (by decide) ?_ 0 _ _ rfl ?_ ?_⟩
  · simp [Timed.Ordered]
  · rw [hmade]
    simp
  · rw [hmade]
    intro y hy hindex
    simp only [List.mem_cons, List.not_mem_nil, or_false] at hy
    rcases hy with rfl | rfl
    · exact absurd hindex (by decide)
    · rfl
  · rw [hnone]
    exact List.not_mem_nil
  · rw [hnone]
    exact fun j hj => absurd hj List.not_mem_nil

end PeerLink

end Lando
