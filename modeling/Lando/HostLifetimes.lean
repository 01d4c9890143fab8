/-
Lando/HostLifetimes.lean

The lifetimes of keys in the host's datapath.

The datapath keeps every session twice.  `Peer` has it with its age and its
predecessor, and would say for how long either may be used; the table
`sessions` has neither, and it is the table that packets are encrypted and
decrypted with.

To compare the two, a run is put on record as it goes (`Dated`): when the
session of each key was installed, and what the one before it was when it was
replaced.  The record and the `Peer`s agree in every state (`Synced`), so what
`Peer` would allow is told by the record (`Synced.hasSession_iff`,
`Synced.sessionForIndex_isSome`).  What the datapath does is told by the table
alone (`decrypted_iff`, `encrypted_of_packet`, `emits_iff`).
-/
import Lando.HostNode

namespace Lando

/-- The session decrypts the packet. -/
def Session.Opens (A : Aead) (s : Session) (packet plain : List UInt8) : Prop :=
  (s.decrypt A packet).2 = .ok plain

theorem Session.Opens.head {A : Aead} {s : Session} {packet plain : List UInt8}
    (h : s.Opens A packet plain) : packet.head? = some msgTransport := by
  unfold Session.Opens Session.decrypt at h
  by_cases hshape : packet.length < transportHeaderLen + tagLen ∨ packet.head? ≠ some msgTransport
  · rw [if_pos hshape] at h
    cases h
  · exact not_not.mp (not_or.mp hshape).2

theorem Session.Opens.receiver {A : Aead} {s : Session} {packet plain : List UInt8}
    (h : s.Opens A packet plain) : packetReceiver packet = s.localIndex := by
  unfold Session.Opens at h
  rcases s.decrypt_cases A packet with ⟨e, he⟩ | ⟨_, _, _, hrecv, -, -, -⟩
  · rw [he] at h
    cases h
  · exact hrecv

end Lando

namespace Lando.Host.Node

open Datapath Timers

variable {P : Primitives} {W : World} {nodeKey : NodePrivate} {d : Datapath W} {src : Key}
  {data : List UInt8} {known : List NodePublic} {ephemeral : NodePrivate} {now : ℕ}

/-! ### The record of a run -/

/-- The datapath, when the session of each key was installed, and the session
that one replaced, as it was then, with the time that was installed. -/
structure Dated (W : World) where
  datapath : Datapath W
  installedAt : Key → Option ℕ
  retired : Key → Option (Session × ℕ)

/-- A session was installed for this key. -/
def Effect.installs (k : Key) : Effect → Bool
  | .installed key _ => decide (key = k)
  | _ => false

namespace Dated

/-- No peers, and so no dates. -/
def start (client : W.Relay) : Dated W where
  datapath := .start client
  installedAt := fun _ => none
  retired := fun _ => none

/-- The record after a call. -/
def record (h : Dated W) (now : ℕ) (r : Outcome W) : Dated W where
  datapath := r.1
  installedAt := fun k => if r.2.1.any (Effect.installs k) then some now else h.installedAt k
  retired := fun k =>
    if r.2.1.any (Effect.installs k) then
      Option.map₂ Prod.mk (h.datapath.sessions k) (h.installedAt k)
    else h.retired k

/-- The session of a key was installed less than `REJECT_AFTER_TIME` ago. -/
def Young (h : Dated W) (k : Key) (now : ℕ) : Prop :=
  ∃ t, h.installedAt k = some t ∧ now < t + rejectAfterTime

end Dated

/-- The relay loop, put on record. -/
def dated (P : Primitives) (nodeKey : NodePrivate) :
    Timed.Machine (Dated W) Input (List Effect × Except Error Unit)
  | h, now, i => (h.record now (step P nodeKey h.datapath now i),
      (step P nodeKey h.datapath now i).2)

theorem installs_iff {effects : List Effect} {k : Key} :
    effects.any (Effect.installs k) = true ↔ ∃ ts, .installed k ts ∈ effects := by
  rw [List.any_eq_true]
  constructor
  · rintro ⟨e, he, hk⟩
    cases e with
    | installed key ts =>
      obtain rfl : key = k := of_decide_eq_true hk
      exact ⟨ts, he⟩
    | _ => cases hk
  · rintro ⟨ts, hmem⟩
    exact ⟨_, hmem, decide_eq_true rfl⟩

/-! ### The table and the peers -/

/-- The record of a key agrees with its peer: the table has the current session,
put to use, under the date of the peer, and so had the session replaced. -/
structure SyncedAt (A : Aead) (h : Dated W) (k : Key) : Prop where
  table : ∃ uses, h.datapath.sessions k =
    ((h.datapath.peers k).bind Peer.current).map fun a => a.session.used A uses
  date : h.installedAt k = ((h.datapath.peers k).bind Peer.current).map Active.established
  retired : ∃ uses, h.retired k =
    ((h.datapath.peers k).bind Peer.previous).map fun a =>
      (a.session.used A uses, a.established)

/-- The record agrees with the peers. -/
def Synced (A : Aead) (h : Dated W) : Prop := ∀ k, SyncedAt A h k

namespace Synced

variable {A : Aead} {h : Dated W}

theorem start (A : Aead) (client : W.Relay) : Synced A (Dated.start client) :=
  fun _ => ⟨⟨[], rfl⟩, rfl, ⟨[], rfl⟩⟩

theorem current_peerOf (d : Datapath W) (peer : NodePublic) :
    (d.peerOf peer).current = (d.peers peer.bytes).bind Peer.current := by
  unfold peerOf
  rcases d.peers peer.bytes with - | p
  · rfl
  · rfl

/-- Where a session is installed, the current one moves to the previous slot, on
both sides. -/
theorem of_installs (hs : Synced P.toAead h) {now : ℕ} {i : Input} {k : Key}
    (hk : (Node.step P nodeKey h.datapath now i).2.1.any (Effect.installs k) = true) :
    SyncedAt P.toAead (dated P nodeKey h now i).1 k := by
  obtain ⟨ts, hmem⟩ := installs_iff.mp hk
  obtain ⟨learned, keys, client, rfl, -, hstep⟩ := installed_of_mem hmem
  obtain ⟨us, htable⟩ := (hs learned.peerStatic.bytes).table
  have hdate := (hs learned.peerStatic.bytes).date
  have hpeers := peers_installed h.datapath learned keys client now
  have hsessions := sessions_installed h.datapath learned keys client now
  refine ⟨⟨[], ?_⟩, ?_, ⟨us, ?_⟩⟩
  · simp only [dated, Dated.record, hstep, hsessions, hpeers]
    rfl
  · simp only [dated, Dated.record, if_pos hk]
    rw [hstep, hpeers]
    rfl
  · simp only [dated, Dated.record, if_pos hk]
    rw [hstep, hpeers, htable, hdate]
    show _ = Option.map _ (h.datapath.peerOf learned.peerStatic).current
    rw [current_peerOf]
    rcases (h.datapath.peers learned.peerStatic.bytes).bind Peer.current with - | a
    · rfl
    · rfl

/-- Elsewhere both sides have what they had, after some use. -/
theorem of_not_installs (hs : Synced P.toAead h) {now : ℕ} {i : Input} {k : Key}
    (hk : ¬ (Node.step P nodeKey h.datapath now i).2.1.any (Effect.installs k) = true) :
    SyncedAt P.toAead (dated P nodeKey h now i).1 k := by
  have huntouched := untouched_of_not_installed P nodeKey h.datapath now i k
    fun ts hmem => hk (installs_iff.mpr ⟨ts, hmem⟩)
  obtain ⟨us, htable⟩ := (hs k).table
  obtain ⟨vs, hvs⟩ := huntouched.table
  refine ⟨⟨us ++ vs, ?_⟩, ?_, ?_⟩
  · simp only [dated, Dated.record]
    rw [huntouched.current, hvs, htable, Option.map_map]
    congr 1
    funext a
    exact (Session.used_append P.toAead a.session us vs).symm
  · simp only [dated, Dated.record, if_neg hk]
    rw [huntouched.current]
    exact (hs k).date
  · simp only [dated, Dated.record, if_neg hk]
    rw [huntouched.previous]
    exact (hs k).retired

/-- What one call leaves is in step again. -/
theorem step (hs : Synced P.toAead h) (now : ℕ) (i : Input) :
    Synced P.toAead (dated P nodeKey h now i).1 := by
  intro k
  by_cases hk : (Node.step P nodeKey h.datapath now i).2.1.any (Effect.installs k) = true
  · exact hs.of_installs hk
  · exact hs.of_not_installs hk

/-- The peer would send exactly while the session on record is young. -/
theorem hasSession_iff (hs : Synced A h) (k : Key) (now : ℕ) :
    ((h.datapath.peers k).any fun p => p.hasSession now) = true ↔ h.Young k now := by
  have hdate := (hs k).date
  unfold Dated.Young Peer.hasSession
  rcases hp : h.datapath.peers k with - | p
  · rw [hp] at hdate
    rw [hdate]
    exact iff_of_false Bool.false_ne_true fun ⟨_, ht, _⟩ => by cases ht
  · rw [hp, Option.bind_some] at hdate
    rw [hdate, Option.any_some]
    rcases p.current with - | a
    · exact iff_of_false Bool.false_ne_true fun ⟨_, ht, _⟩ => by cases ht
    · rw [Option.any_some, Bool.not_eq_true', Peer.expired_eq_false, Option.map_some]
      constructor
      · intro hyoung
        exact ⟨a.established, rfl, by simp only [rejectAfterTime] at hyoung ⊢; omega⟩
      · rintro ⟨t, ht, hyoung⟩
        obtain rfl := Option.some.inj ht
        simp only [rejectAfterTime] at hyoung ⊢
        omega

/-- The peer would find a session for the index of one that was replaced, while
that is young. -/
theorem sessionForIndex_retired (hs : Synced A h) {k : Key} {s : Session} {t now : ℕ}
    (hr : h.retired k = some (s, t)) (hyoung : now < t + rejectAfterTime) :
    ∃ p s', h.datapath.peers k = some p ∧
      (p.sessionForIndex s.localIndex now id).2 = some s' ∧ s'.localIndex = s.localIndex := by
  obtain ⟨uses, hretired⟩ := (hs k).retired
  rw [hr] at hretired
  obtain ⟨a, hslot, ha⟩ := Option.map_eq_some_iff.mp hretired.symm
  obtain ⟨p, hp, hprev⟩ := Option.bind_eq_some_iff.mp hslot
  obtain ⟨hsess, rfl⟩ := Prod.mk.inj ha
  have hindex : a.session.localIndex = s.localIndex := by
    rw [← hsess, Session.localIndex_used]
  -- the previous slot answers, unless the current one has the same index
  have haddr : Peer.addressed p.previous s.localIndex now = some a := by
    refine Option.filter_eq_some_iff.mpr ⟨hprev, ?_⟩
    rw [decide_eq_true hindex, Peer.expired_eq_false.mpr]
    · rfl
    · simp only [rejectAfterTime] at hyoung ⊢
      omega
  rcases hcur : Peer.addressed p.current s.localIndex now with - | b
  · refine ⟨p, a.session, hp, ?_, hindex⟩
    rw [Peer.sessionForIndex_answer, hcur, haddr]
    rfl
  · refine ⟨p, b.session, hp, ?_, (Peer.addressed_some hcur).2.1⟩
    rw [Peer.sessionForIndex_answer, hcur]
    rfl

end Synced

/-! ### What the datapath uses -/

/-- A packet was encrypted or decrypted under the session of this key. -/
def Effect.Uses (k : Key) : Effect → Prop
  | .installed _ _ => False
  | .decrypted key _ => key = k
  | .encrypted key _ => key = k

namespace Datapath

theorem sendPending_effects {peer : Key} {session : Session} {pending : List (List UInt8)}
    {e : Effect} (he : e ∈ (d.sendPending P peer session pending).2.1) :
    ∃ out, e = .encrypted peer out := by
  induction pending generalizing d session with
  | nil => cases he
  | cons out pending ih =>
    rw [sendPending] at he
    rcases hs : session.encrypt P.toAead out (out.length + 64) with ⟨session', err | packet⟩
    · rw [hs] at he
      cases he
    · rw [hs] at he
      simp only at he
      rcases hc : W.sendPacket d.client peer packet with ⟨client, err | ⟨⟩⟩
      · rw [hc] at he
        exact ⟨out, List.mem_singleton.mp he⟩
      · rw [hc] at he
        rcases List.mem_cons.mp he with rfl | he
        · exact ⟨out, rfl⟩
        · exact ih he

/-- The stack has something for the peer, and its session takes it. -/
def Emits (P : Primitives) (d : Datapath W) (now : ℕ) (k : Key) : Prop :=
  ∃ stack out pending s packet, d.stack = some stack ∧ d.tunnelPeer = some k ∧
    (W.turn stack now).2 = out :: pending ∧ d.sessions k = some s ∧
    (s.encrypt P.toAead out (out.length + 64)).2 = .ok packet

/-- A turn of the stack uses the session of the tunnel's peer, or none. -/
theorem drainStack_effects {e : Effect} (he : e ∈ (d.drainStack P now).2.1) :
    ∃ k out, d.tunnelPeer = some k ∧ e = .encrypted k out := by
  unfold drainStack at he
  rcases hstack : d.stack with - | stack
  · rw [hstack] at he
    cases he
  rcases hpeer : d.tunnelPeer with - | peer
  · rw [hstack, hpeer] at he
    cases he
  rw [hstack, hpeer] at he
  simp only at he
  split_ifs at he
  · cases he
  · rcases hs : d.sessions peer with - | session
    · rw [hs] at he
      cases he
    · rw [hs] at he
      obtain ⟨out, rfl⟩ := sendPending_effects he
      exact ⟨peer, out, rfl, rfl⟩

theorem emits_iff (d : Datapath W) (now : ℕ) (k : Key) :
    d.Emits P now k ↔ ∃ e ∈ (d.drainStack P now).2.1, e.Uses k := by
  constructor
  · -- the first packet is encrypted, whether or not it can be sent
    rintro ⟨stack, out, pending, s, packet, hstack, hpeer, hturn, hs, hok⟩
    refine ⟨.encrypted k out, ?_, rfl⟩
    rcases he : s.encrypt P.toAead out (out.length + 64) with ⟨s', r⟩
    rw [he] at hok
    subst hok
    unfold drainStack
    rw [hstack, hpeer]
    simp only [hturn, List.cons_ne_nil, if_false, hs, sendPending, he]
    rcases W.sendPacket d.client k packet with ⟨client, err | ⟨⟩⟩
    · exact List.mem_cons_self
    · exact List.mem_cons_self
  · -- whatever stops the loop at the first packet leaves no effect
    rintro ⟨e, he, huse⟩
    obtain ⟨k', _, hpeer, rfl⟩ := drainStack_effects he
    obtain rfl : k' = k := huse
    unfold drainStack at he
    rw [hpeer] at he
    rcases hstack : d.stack with - | stack
    · rw [hstack] at he
      cases he
    rw [hstack] at he
    simp only at he
    rcases hturn : (W.turn stack now).2 with - | ⟨out, pending⟩
    · rw [if_pos hturn] at he
      cases he
    rw [if_neg (by rw [hturn]; exact List.cons_ne_nil _ _)] at he
    rcases hs : d.sessions k' with - | session
    · rw [hs] at he
      cases he
    rw [hs, hturn] at he
    simp only [sendPending] at he
    rcases henc : session.encrypt P.toAead out (out.length + 64) with ⟨session', err | packet⟩
    · rw [henc] at he
      cases he
    · exact ⟨stack, out, pending, session, packet, hstack, hpeer, hturn, hs, by rw [henc]⟩

theorem feedStack_effects {packet : List UInt8} {e : Effect}
    (he : e ∈ (d.feedStack P src packet now).2.1) : ∃ out, e = .encrypted src out := by
  unfold feedStack at he
  split_ifs at he
  · cases he
  · obtain ⟨k, out, hk, rfl⟩ := drainStack_effects he
    obtain rfl := Option.some.inj hk
    exact ⟨out, rfl⟩

theorem answerPing_effects {session : Session} {ping : Tsmp.Ping} {e : Effect}
    (he : e ∈ (d.answerPing P src session ping).2.1) : ∃ out, e = .encrypted src out := by
  unfold answerPing at he
  rcases hw : Tsmp.writePong ping 64 with - | pong
  · rw [hw] at he
    cases he
  rw [hw] at he
  simp only at he
  rcases hs : session.encrypt P.toAead pong 256 with ⟨session', err | packet⟩
  · rw [hs] at he
    cases he
  rw [hs] at he
  simp only at he
  rcases hc : W.sendPacket d.client src packet with ⟨client, err | ⟨⟩⟩
  · rw [hc] at he
    exact ⟨pong, List.mem_singleton.mp he⟩
  · rw [hc] at he
    exact ⟨pong, List.mem_singleton.mp he⟩

/-- **What a transport packet uses.**  No session, if the one stored for its
source does not open it; else that one, first to decrypt it. -/
theorem handleTransport_effects (P : Primitives) (d : Datapath W) (src : Key)
    (data : List UInt8) (now : ℕ) :
    ((∀ s ∈ d.sessions src, ∀ plain, ¬ s.Opens P.toAead data plain) ∧
      (d.handleTransport P src data now).2.1 = []) ∨
    ∃ s plain rest, d.sessions src = some s ∧ s.Opens P.toAead data plain ∧
      (d.handleTransport P src data now).2.1 = .decrypted src plain :: rest ∧
      ∀ e ∈ rest, ∃ out, e = .encrypted src out := by
  unfold handleTransport
  rcases hs : d.sessions src with - | session
  · refine .inl ⟨?_, rfl⟩
    intro s hmem
    cases hmem
  simp only
  rcases hdec : session.decrypt P.toAead data with ⟨session', err | plain⟩
  · refine .inl ⟨?_, rfl⟩
    intro s hmem plain hopen
    obtain rfl := Option.some.inj hmem
    rw [Session.Opens, hdec] at hopen
    cases hopen
  · refine .inr ⟨session, plain, _, rfl, by rw [Session.Opens, hdec], rfl, ?_⟩
    intro e he
    rcases hping : Tsmp.parsePing plain with - | ping
    · rw [hping] at he
      exact feedStack_effects he
    · rw [hping] at he
      exact answerPing_effects he

theorem unused_nil : ∀ e ∈ ([] : List Effect), ∀ k, ¬ e.Uses k :=
  fun _ hmem => absurd hmem List.not_mem_nil

/-- **What a packet uses.**  No session, or the one stored for its source, which
opens it. -/
theorem handlePacket_effects (P : Primitives) (nodeKey : NodePrivate) (d : Datapath W) (src : Key)
    (data : List UInt8) (known : List NodePublic) (ephemeral : NodePrivate) (now : ℕ) :
    ((∀ s ∈ d.sessions src, ∀ plain, ¬ s.Opens P.toAead data plain) ∧
      ∀ e ∈ (d.handlePacket P nodeKey src data known ephemeral now).2.1, ∀ k, ¬ e.Uses k) ∨
    ∃ s plain rest, d.sessions src = some s ∧ s.Opens P.toAead data plain ∧
      (d.handlePacket P nodeKey src data known ephemeral now).2.1 = .decrypted src plain :: rest ∧
      ∀ e ∈ rest, ∃ out, e = .encrypted src out := by
  by_cases hhead : data.head? = some msgTransport
  · have he : d.handlePacket P nodeKey src data known ephemeral now =
        d.handleTransport P src data now := by
      unfold handlePacket
      rw [hhead]
      rfl
    rw [he]
    rcases handleTransport_effects P d src data now with ⟨hno, hnil⟩ | hopen
    · refine .inl ⟨hno, ?_⟩
      rw [hnil]
      exact unused_nil
    · exact .inr hopen
  · -- no session opens another kind of packet, and none is used for one
    refine .inl ⟨fun s _ plain hopen => hhead hopen.head, ?_⟩
    unfold handlePacket
    rcases hkind : data.head? with - | kind
    · exact unused_nil
    simp only
    split_ifs with h₁ h₂ h₃
    · -- an answered initiation installs a session and uses none
      rcases handleInitiation_cases P nodeKey d src data known ephemeral now with
        ⟨_, he, -⟩ | ⟨_, _, _, _, -, -, -, he⟩ | ⟨learned, keys, client, -, -, he⟩
      · rw [he]
        exact unused_nil
      · rw [he]
        exact unused_nil
      · rw [he]
        intro e hmem k huse
        obtain rfl := List.mem_singleton.mp hmem
        exact huse
    · exact unused_nil
    · exact absurd (hkind.trans (congrArg some h₃)) hhead
    · exact unused_nil

/-- A packet is decrypted when the session stored for its source opens it. -/
theorem decrypted_iff (P : Primitives) (nodeKey : NodePrivate) (d : Datapath W) (src : Key)
    (data : List UInt8) (known : List NodePublic) (ephemeral : NodePrivate) (now : ℕ)
    (plain : List UInt8) :
    .decrypted src plain ∈ (d.handlePacket P nodeKey src data known ephemeral now).2.1 ↔
      ∃ s ∈ d.sessions src, s.Opens P.toAead data plain := by
  rcases handlePacket_effects P nodeKey d src data known ephemeral now with
    ⟨hno, hnone⟩ | ⟨s, plain', rest, hs, hopen, he, hrest⟩
  · refine iff_of_false (fun hmem => hnone _ hmem src rfl) ?_
    rintro ⟨s, hs, hopen⟩
    exact hno s hs plain hopen
  · rw [he]
    constructor
    · intro hmem
      rcases List.mem_cons.mp hmem with heq | hmem
      · obtain ⟨-, rfl⟩ := Effect.decrypted.inj heq
        exact ⟨s, hs, hopen⟩
      · obtain ⟨out, hout⟩ := hrest _ hmem
        cases hout
    · rintro ⟨s', hs', hopen'⟩
      rw [hs] at hs'
      obtain rfl := Option.some.inj hs'
      obtain rfl := Except.ok.inj (hopen.symm.trans hopen')
      exact List.mem_cons_self

/-- A packet uses the session stored for its source when that opens it, and no
other. -/
theorem packet_uses_iff (P : Primitives) (nodeKey : NodePrivate) (d : Datapath W) (src : Key)
    (data : List UInt8) (known : List NodePublic) (ephemeral : NodePrivate) (now : ℕ) (k : Key) :
    (∃ e ∈ (d.handlePacket P nodeKey src data known ephemeral now).2.1, e.Uses k) ↔
      k = src ∧ ∃ s ∈ d.sessions src, ∃ plain, s.Opens P.toAead data plain := by
  rcases handlePacket_effects P nodeKey d src data known ephemeral now with
    ⟨hno, hnone⟩ | ⟨s, plain, rest, hs, hopen, he, hrest⟩
  · refine iff_of_false (fun ⟨e, hmem, huse⟩ => hnone e hmem k huse) ?_
    rintro ⟨-, s, hs, plain, hopen⟩
    exact hno s hs plain hopen
  · rw [he]
    constructor
    · rintro ⟨e, hmem, huse⟩
      refine ⟨?_, s, hs, plain, hopen⟩
      rcases List.mem_cons.mp hmem with rfl | hmem
      · exact huse.symm
      · obtain ⟨out, rfl⟩ := hrest e hmem
        exact huse.symm
    · rintro ⟨rfl, -⟩
      exact ⟨_, List.mem_cons_self, rfl⟩

end Datapath

/-! ### Lifetimes -/

/-- Sessions are used while they are young, and a packet that the session before
the stored one opens is decrypted while that is young. -/
def HonoursLifetimes (P : Primitives) (nodeKey : NodePrivate) (h : Dated W) (now : ℕ) :
    Input → Prop
  | .tick => ∀ k, (∃ e ∈ (h.datapath.drainStack P now).2.1, e.Uses k) → h.Young k now
  | .packet src data known ephemeral =>
      let effects := (h.datapath.handlePacket P nodeKey src data known ephemeral now).2.1
      (∀ k, (∃ e ∈ effects, e.Uses k) → h.Young k now) ∧
      ∀ s t plain, h.retired src = some (s, t) → now < t + rejectAfterTime →
        s.Opens P.toAead data plain → .decrypted src plain ∈ effects

/-- What comes in for the stored session, or goes out, does so while that is
young, and nothing comes in that only the one before it opens. -/
def WithinLifetimes (P : Primitives) (h : Dated W) (now : ℕ) : Input → Prop
  | .tick => ∀ k, h.datapath.Emits P now k → h.Young k now
  | .packet src data _ _ =>
      (∀ s ∈ h.datapath.sessions src, ∀ plain, s.Opens P.toAead data plain → h.Young src now) ∧
      ∀ s t plain, h.retired src = some (s, t) → now < t + rejectAfterTime →
        s.Opens P.toAead data plain →
        ∃ s' ∈ h.datapath.sessions src, s'.Opens P.toAead data plain

theorem honoursLifetimes_iff (P : Primitives) (nodeKey : NodePrivate) (h : Dated W) (now : ℕ)
    (i : Input) : HonoursLifetimes P nodeKey h now i ↔ WithinLifetimes P h now i := by
  cases i with
  | tick => simp only [HonoursLifetimes, WithinLifetimes, emits_iff]
  | packet src data known ephemeral =>
    simp only [HonoursLifetimes, WithinLifetimes, packet_uses_iff, decrypted_iff]
    -- the two halves on the session before are the same by now
    refine and_congr_left fun _ => ?_
    constructor
    · intro hyoung s hs plain hopen
      exact hyoung src ⟨rfl, s, hs, plain, hopen⟩
    · rintro hyoung k ⟨rfl, s, hs, plain, hopen⟩
      exact hyoung s hs plain hopen

/-- **When the datapath honours lifetimes.**  In every run from the start: exactly
when packets for a stored session, and output of the stack, keep within
`REJECT_AFTER_TIME` of its installation, and no packet comes that only the
session before it opens while that is young.  Throughout, the peers agree with the
record: they have a session exactly while it is young, and find one for the
index of the session before while that is. -/
theorem lifetimes_honoured_iff (P : Primitives) (nodeKey : NodePrivate) (client : W.Relay)
    (inputs : List (ℕ × Input)) :
    (Timed.Along (dated P nodeKey) (HonoursLifetimes P nodeKey) (Dated.start client) inputs ↔
      Timed.Along (dated P nodeKey) (WithinLifetimes P)
        (Dated.start client) inputs) ∧
    Timed.Along (dated P nodeKey) (fun h now _ => ∀ k,
        (((h.datapath.peers k).any fun p => p.hasSession now) = true ↔ h.Young k now) ∧
        ∀ s t, h.retired k = some (s, t) → now < t + rejectAfterTime →
          ∃ p s', h.datapath.peers k = some p ∧
            (p.sessionForIndex s.localIndex now id).2 = some s' ∧ s'.localIndex = s.localIndex)
      (Dated.start client) inputs := by
  constructor
  · refine Timed.along_congr (I := fun _ => True) (fun _ _ _ => trivial) ?_ trivial
    intro x _ h _
    exact honoursLifetimes_iff P nodeKey h x.1 x.2
  · refine Timed.along_of_invariant (I := Synced P.toAead) (fun t i hs => hs.step t i) ?_
      (Synced.start P.toAead client) inputs
    intro h now i hs k
    exact ⟨hs.hasSession_iff k now, fun s t hr hyoung => hs.sessionForIndex_retired hr hyoung⟩

/-! ### Two runs that do not -/

/-- The other end of a new session can make a packet that opens. -/
theorem exists_opens {A : Aead} (hA : A.Lawful) (keys : SessionKeys) :
    ∃ packet plain, (Session.new keys).Opens A packet plain := by
  obtain ⟨body, tag, -, -, hdec⟩ :=
    hA.exists_encrypt keys.receive (nonce 0) [] (show ([] : List UInt8).length ≤ 64 by decide)
  refine ⟨transportHeader keys.localIndex 0 ++ body ++ tag.toList, [], ?_⟩
  have hfresh : (ReplayWindow.new.accept 0).2 = true := by decide
  rw [Session.Opens, Session.decrypt_packet keys.localIndex 0 body tag A (Session.new keys) rfl]
  simp only [Session.new, hdec, hfresh, if_true]

/-- The record after an initiation was answered. -/
theorem dated_answered {h : Dated W} {l : Initiation} {keys : SessionKeys} {client : W.Relay}
    (hans : Answerable P nodeKey h.datapath src data ephemeral l keys client)
    (hauth : (known.isEmpty || listed known src) = true) (now : ℕ) :
    let h' := (dated P nodeKey h now (.packet src data known ephemeral)).1
    h'.datapath = h.datapath.installed l keys client now ∧
      h'.installedAt l.peerStatic.bytes = some now ∧
      h'.retired l.peerStatic.bytes =
        Option.map₂ Prod.mk (h.datapath.sessions l.peerStatic.bytes)
          (h.installedAt l.peerStatic.bytes) := by
  have he := hans.handlePacket hauth now
  have hinst : [Effect.installed l.peerStatic.bytes l.timestamp].any
      (Effect.installs l.peerStatic.bytes) = true :=
    installs_iff.mpr ⟨_, List.mem_cons_self⟩
  simp only [dated, Dated.record, Node.step, he]
  exact ⟨trivial, if_pos hinst, if_pos hinst⟩

/-- A session is still used three minutes after it was installed; and one second
after a rekey, a packet for the session before it is lost, although that is two
seconds old. -/
theorem lifetimes_not_honoured :
    let P := checksumPrimitives
    let key (n : UInt8) : NodePrivate := ⟨Vector.replicate 32 n⟩
    let src := ((key 1).public P).bytes
    let packet (data : List UInt8) (n : UInt8) := Input.packet src data [(key 1).public P] (key n)
    ∃ first second old,
      (∃ initiator, Initiator.new P (key 1) ((key 2).public P) (key 3) 7
        ⟨Vector.replicate 12 5⟩ = .ok (initiator, first)) ∧
      (∃ initiator, Initiator.new P (key 1) ((key 2).public P) (key 5) 8
        ⟨Vector.replicate 12 6⟩ = .ok (initiator, second)) ∧
      let late := [(0, packet first 4), (180000, packet old 0)]
      let rekey := [(0, packet first 4), (1000, packet second 6), (2000, packet old 0)]
      let start : Dated quietWorld := .start ()
      Timed.Ordered 0 late ∧
      ¬ Timed.Along (dated P (key 2)) (HonoursLifetimes P (key 2)) start late ∧
      Timed.Ordered 0 rekey ∧
      ¬ Timed.Along (dated P (key 2)) (HonoursLifetimes P (key 2)) start rekey := by
  intro P key src packet
  have hauth : (List.isEmpty [(key 1).public P] || listed [(key 1).public P] src) = true := by
    simp only [listed, List.any_cons, List.isEmpty_cons, Bool.false_or]
    rw [decide_eq_true rfl, Bool.true_or]
  obtain ⟨initiator, first, keys, hfirst, hans, hindex⟩ :=
    exists_answerable checksumAead_lawful checksumPrimitives_dhCommutes
      (Dated.start (W := quietWorld) ()).datapath src (key 1) (key 3) (key 2) (key 4) 7
      ⟨Vector.replicate 12 5⟩ (stored_start (W := quietWorld) () _ _)
  obtain ⟨old, plain, hopen⟩ := exists_opens checksumAead_lawful keys
  obtain ⟨hd, hdate, -⟩ := dated_answered hans hauth 0
  generalize hh : (dated P (key 2) (Dated.start (W := quietWorld) ()) 0 (packet first 4)).1 = h₁
    at hd hdate
  have hsess : h₁.datapath.sessions src = some (Session.new keys) := by
    rw [hd]
    exact sessions_installed _ _ keys () 0
  have hstored : h₁.datapath.stored src = some ⟨Vector.replicate 12 5⟩ := by
    rw [hd]
    exact stored_installed _ _ keys () 0
  -- a second initiation, with a greater timestamp
  obtain ⟨initiator', second, keys', hsecond, hans', hindex'⟩ :=
    exists_answerable checksumAead_lawful checksumPrimitives_dhCommutes h₁.datapath src (key 1)
      (key 5) (key 2) (key 6) 8 ⟨Vector.replicate 12 6⟩ (by
        intro prev hprev
        obtain rfl := Option.some.inj (hstored.symm.trans hprev)
        decide)
  obtain ⟨hd', -, hretired⟩ := dated_answered hans' hauth 1000
  generalize hh' : (dated P (key 2) h₁ 1000 (packet second 6)).1 = h₂ at hd' hretired
  refine ⟨first, second, old, ⟨initiator, hfirst⟩, ⟨initiator', hsecond⟩, ?_, ?_, ?_, ?_⟩
  · exact ⟨Nat.le_refl 0, by decide, trivial⟩
  · rintro ⟨-, hlate, -⟩
    rw [hh, honoursLifetimes_iff] at hlate
    obtain ⟨t, ht, hyoung⟩ := hlate.1 _ hsess plain hopen
    rw [hdate] at ht
    obtain rfl := Option.some.inj ht
    exact absurd hyoung (by decide)
  · exact ⟨Nat.le_refl 0, by decide, by decide, trivial⟩
  · rintro ⟨-, -, hlost, -⟩
    rw [hh, hh', honoursLifetimes_iff] at hlost
    obtain ⟨s', hs', hopen'⟩ := hlost.2 (Session.new keys) 0 plain
      (by rw [hretired, hsess, hdate]; rfl) (by decide) hopen
    have hs : h₂.datapath.sessions src = some (Session.new keys') := by
      rw [hd']
      exact sessions_installed _ _ keys' () 1000
    rw [hs] at hs'
    obtain rfl := Option.some.inj hs'
    -- the two sessions differ in the receiver index of their packets
    have hsame : keys.localIndex = keys'.localIndex :=
      hopen.receiver.symm.trans hopen'.receiver
    rw [hindex, hindex', hd] at hsame
    have htwo : (1 : UInt32) = max (1 + 1) 1 := hsame
    exact absurd htwo (by decide)

end Lando.Host.Node
