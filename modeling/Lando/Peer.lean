/-
Lando/Peer.lean

One WireGuard peer and everything about it that expires (`wireguard/peer.rs`).

A peer has two slots: `current`, the only session that sends, and `previous`,
kept during a rekey for packets still in flight.  An instant is a count of
milliseconds handed in by the caller, and the source only compares and
subtracts it, downwards to zero; a natural number does the same.

`send_session` and `session_for_index` lend the session out.  The model takes
what the borrower does with it as an argument, and the session handed out is
the one before.

What the slots stand for is seen best in a peer on which `expire` is never
called.  There they hold the two latest sessions that were installed, whatever
their age (`Uncollected`).  On any other peer a slot holds the same, or nothing
once that has expired (`Holds`).  Time only goes forward, so what was dropped is
never missed: the two peers answer every call alike (`simulates_uncollected`).
That `expire` is garbage collection, and that a rekey loses no valid session,
are both read off this.
-/
import Lando.Handshake
import Lando.Machine

namespace Lando

/-! ### Timers -/

namespace Timers

/-- After this long, the initiator should begin a rekey. -/
def rekeyAfterTime : ℕ := 120000
/-- After this long a key must not be used at all, in either direction. -/
def rejectAfterTime : ℕ := 180000
/-- Wait this long for a handshake response before retrying. -/
def rekeyTimeout : ℕ := 5000
/-- Give up retrying a handshake after this long. -/
def rekeyAttemptTime : ℕ := 90000
/-- If we received data and have sent nothing since, send a keepalive. -/
def keepaliveTimeout : ℕ := 10000
/-- Rekey once this many messages have been sent on a key. -/
def rekeyAfterMessages : UInt64 := .ofNat (2 ^ 60)

end Timers

open Timers

/-! ### A session with its age -/

/-- A session, and when it was made, used and heard on. -/
structure Active where
  session : Session
  established : ℕ
  lastSent : Option ℕ
  lastReceived : Option ℕ
  /-- Only the initiator starts a rekey. -/
  initiator : Bool
  deriving DecidableEq

namespace Active

/-- `expired`: the session is older than it may be. -/
def expired (a : Active) (now : ℕ) : Bool :=
  decide (rejectAfterTime ≤ now - a.established)

/-- `due_for_rekey`: by time or by messages, and at the initiator only. -/
def dueForRekey (a : Active) (now : ℕ) : Bool :=
  a.initiator &&
    (decide (rekeyAfterTime ≤ now - a.established) ||
      decide (rekeyAfterMessages ≤ a.session.sendCounter))

/-- Data arrived more recently than anything we sent, and long enough ago. -/
def owesKeepalive (a : Active) (now : ℕ) : Bool :=
  match a.lastReceived with
  | none => false
  | some received =>
      if a.lastSent.any fun s => received ≤ s then false
      else decide (keepaliveTimeout ≤ now - received)

/-- The sender's borrow. -/
def lendSend (a : Active) (now : ℕ) (use : Session → Session) : Active :=
  { a with lastSent := some now, session := use a.session }

/-- The receiver's borrow. -/
def lendReceive (a : Active) (now : ℕ) (use : Session → Session) : Active :=
  { a with lastReceived := some now, session := use a.session }

end Active

/-- What a peer needs right now. -/
inductive Peer.Action
  | idle
  /-- Send a handshake initiation. -/
  | initiate
  /-- Send an empty transport packet. -/
  | keepalive
  deriving DecidableEq

/-! ### The peer -/

/-- A single WireGuard peer. -/
structure Peer where
  staticPublic : NodePublic
  current : Option Active
  previous : Option Active
  lastHandshakeTimestamp : Option Tai64n
  /-- When the initiation in flight was sent. -/
  handshakeSent : Option ℕ
  /-- When the current run of attempts began. -/
  handshakeStarted : Option ℕ
  deriving DecidableEq

namespace Peer

/-- `Peer::new`: no session and no handshake. -/
def new (staticPublic : NodePublic) : Peer where
  staticPublic := staticPublic
  current := none
  previous := none
  lastHandshakeTimestamp := none
  handshakeSent := none
  handshakeStarted := none

/-- Validates a handshake timestamp against the greatest seen. -/
def acceptHandshakeTimestamp (p : Peer) (ts : Tai64n) : Peer × Except WgError Unit :=
  match p.lastHandshakeTimestamp with
  | some prev =>
      if !ts.isNewerThan prev then (p, .error .replayedHandshake)
      else ({ p with lastHandshakeTimestamp := some ts }, .ok ())
  | none => ({ p with lastHandshakeTimestamp := some ts }, .ok ())

/-- Records that an initiation was just sent (`handshake_sent`). -/
def markHandshakeSent (p : Peer) (now : ℕ) : Peer :=
  { p with
    handshakeSent := some now
    handshakeStarted := some (p.handshakeStarted.getD now) }

/-- Installs freshly negotiated keys, retiring the previous session. -/
def installSession (p : Peer) (keys : SessionKeys) (now : ℕ) (initiator : Bool) : Peer :=
  { p with
    previous := p.current
    current := some ⟨Session.new keys, now, none, none, initiator⟩
    handshakeSent := none
    handshakeStarted := none }

/-- The session to encrypt outbound data with, lent to `use`. -/
def sendSession (p : Peer) (now : ℕ) (use : Session → Session) : Peer × Option Session :=
  match p.current with
  | none => (p, none)
  | some active =>
      if active.expired now || decide (rejectAfterMessages ≤ active.session.sendCounter) then
        (p, none)
      else ({ p with current := some (active.lendSend now use) }, some active.session)

/-- One turn of the loop of `session_for_index`: the slot is addressed and
may still be used. -/
def addressed (slot : Option Active) (index : UInt32) (now : ℕ) : Option Active :=
  slot.filter fun active => decide (active.session.localIndex = index) && !active.expired now

/-- The session a packet is addressed to, by its receiver index, lent to
`use`. -/
def sessionForIndex (p : Peer) (index : UInt32) (now : ℕ) (use : Session → Session) :
    Peer × Option Session :=
  match addressed p.current index now with
  | some active => ({ p with current := some (active.lendReceive now use) }, some active.session)
  | none =>
      match addressed p.previous index now with
      | some active =>
          ({ p with previous := some (active.lendReceive now use) }, some active.session)
      | none => (p, none)

/-- Drops sessions that may no longer be used. -/
def expire (p : Peer) (now : ℕ) : Peer :=
  let p := if p.current.any fun a => a.expired now then { p with current := none } else p
  if p.previous.any fun a => a.expired now then { p with previous := none } else p

/-- `has_session`: the current session has not expired. -/
def hasSession (p : Peer) (now : ℕ) : Bool :=
  p.current.any fun a => !a.expired now

/-- The decision when no handshake is in flight. -/
def pollSession (current : Option Active) (now : ℕ) : Action :=
  match current with
  | none => .initiate
  | some active =>
      if active.expired now then .initiate
      else if active.dueForRekey now then .initiate
      else if active.owesKeepalive now then .keepalive
      else .idle

/-- The decision while one is: retry after a pause, and stop once the attempt
window closes. -/
def pollHandshake (sent : ℕ) (started : Option ℕ) (now : ℕ) : Action :=
  if started.any fun s => rekeyAttemptTime ≤ now - s then .idle
  else if rekeyTimeout ≤ now - sent then .initiate
  else .idle

/-- Decides what this peer needs right now. -/
def poll (p : Peer) (now : ℕ) : Action :=
  match p.handshakeSent with
  | some sent => pollHandshake sent p.handshakeStarted now
  | none => pollSession p.current now

end Peer

/-! ### Runs of calls -/

/-- What a borrower can do with a session. -/
inductive Session.Use
  | encrypt (payload : List UInt8) (outLen : ℕ)
  | decrypt (packet : List UInt8)

/-- The session after its borrower is done with it. -/
def Session.used (A : Aead) (s : Session) : List Session.Use → Session
  | [] => s
  | .encrypt payload outLen :: uses => ((s.encrypt A payload outLen).1).used A uses
  | .decrypt packet :: uses => ((s.decrypt A packet).1).used A uses

namespace Peer

/-- A call on a peer that the driver of its handshakes does not make. -/
inductive Call
  | acceptHandshakeTimestamp (ts : Tai64n)
  | installSession (keys : SessionKeys) (initiator : Bool)
  | sendSession (uses : List Session.Use)
  | sessionForIndex (index : UInt32) (uses : List Session.Use)
  | expire
  | hasSession

/-- A call on a peer. -/
inductive Op
  | handshakeSent
  | poll
  | call (c : Call)

/-- What a call returns. -/
inductive Answer
  | unit
  | timestamp (r : Except WgError Unit)
  | session (s : Option Session)
  | has (b : Bool)
  | action (a : Action)

variable (A : Aead)

/-- A call that changes the peer. -/
def stepCall : Timed.Machine Peer Call Answer
  | p, _, .acceptHandshakeTimestamp ts =>
      ((p.acceptHandshakeTimestamp ts).1, .timestamp (p.acceptHandshakeTimestamp ts).2)
  | p, now, .installSession keys initiator => (p.installSession keys now initiator, .unit)
  | p, now, .sendSession uses =>
      let r := p.sendSession now fun s => s.used A uses
      (r.1, .session r.2)
  | p, now, .sessionForIndex index uses =>
      let r := p.sessionForIndex index now fun s => s.used A uses
      (r.1, .session r.2)
  | p, now, .expire => (p.expire now, .unit)
  | p, now, .hasSession => (p, .has (p.hasSession now))

/-- One operation, and what it answers. -/
def step : Timed.Machine Peer Op Answer
  | p, now, .handshakeSent => (p.markHandshakeSent now, .unit)
  | p, now, .poll => (p, .action (p.poll now))
  | p, now, .call c => p.stepCall A now c

/-- Everything but garbage collection. -/
def Op.visible : Op → Bool
  | .call .expire => false
  | _ => true

/-! ### Garbage collection -/

variable {A} {now now' : ℕ} {slot full : Option Active}

theorem expired_later {a : Active} (h : now ≤ now') (ha : a.expired now) :
    a.expired now' := by
  simp only [Active.expired, decide_eq_true_eq] at ha ⊢
  omega

/-- A slot holds what it holds where nothing is collected, or nothing once that
has expired. -/
def Holds (now : ℕ) (slot full : Option Active) : Prop :=
  slot = full ∨ slot = none ∧ ∀ a ∈ full, a.expired now

theorem Holds.later (hle : now ≤ now') (h : Holds now slot full) : Holds now' slot full :=
  h.imp_right fun h => ⟨h.1, fun a ha => expired_later hle (h.2 a ha)⟩

/-- A slot that was emptied has lost nothing that could be addressed. -/
theorem Holds.addressed_eq (h : Holds now slot full) (index : UInt32) :
    addressed slot index now = addressed full index now := by
  rcases h with rfl | ⟨rfl, h⟩
  · rfl
  · cases full with
    | none => rfl
    | some a =>
      symm
      rw [addressed, addressed, Option.filter_none, Option.filter_eq_none_iff]
      intro b hb
      simp only [h b hb, Bool.not_true, Bool.and_false, Bool.false_eq_true, not_false_eq_true]

theorem Holds.any_eq (h : Holds now slot full) :
    (slot.any fun a => !a.expired now) = full.any fun a => !a.expired now := by
  rcases h with rfl | ⟨rfl, h⟩
  · rfl
  · cases full with
    | none => rfl
    | some a => simp only [Option.any_none, Option.any_some, h a rfl, Bool.not_true]

theorem Holds.pollSession_eq (h : Holds now slot full) :
    pollSession slot now = pollSession full now := by
  rcases h with rfl | ⟨rfl, h⟩
  · rfl
  · cases full with
    | none => rfl
    | some a => simp only [pollSession, h a rfl, if_true]

theorem Holds.collect (h : Holds now slot full) :
    Holds now (if slot.any fun a => a.expired now then none else slot) full := by
  split_ifs with hexp
  · refine .inr ⟨rfl, ?_⟩
    rcases h with rfl | ⟨rfl, h⟩
    · intro a ha
      rw [Option.mem_def.mp ha] at hexp
      exact hexp
    · exact h
  · exact h

theorem expire_eq (p : Peer) (now : ℕ) :
    p.expire now = { p with
      current := if p.current.any fun a => a.expired now then none else p.current
      previous := if p.previous.any fun a => a.expired now then none else p.previous } := by
  unfold expire
  simp only
  split_ifs <;> rfl

/-- `p` is `q`, but for what has been collected. -/
structure Collected (now : ℕ) (p q : Peer) : Prop where
  current : Holds now p.current q.current
  previous : Holds now p.previous q.previous
  others : p = { q with current := p.current, previous := p.previous }

namespace Collected

variable {p q : Peer}

theorem refl (now : ℕ) (p : Peer) : Collected now p p := ⟨.inl rfl, .inl rfl, rfl⟩

theorem later (hle : now ≤ now') (h : Collected now p q) : Collected now' p q :=
  ⟨h.current.later hle, h.previous.later hle, h.others⟩

/-- A peer that is another one but for its slots. -/
theorem exists_slots (h : Collected now p q) :
    ∃ current previous, p = { q with current := current, previous := previous } ∧
      Holds now current q.current ∧ Holds now previous q.previous :=
  ⟨p.current, p.previous, h.others, h.current, h.previous⟩

theorem expire (h : Collected now p q) : Collected now (p.expire now) q := by
  obtain ⟨current, previous, rfl, hc, hp⟩ := h.exists_slots
  rw [expire_eq]
  exact ⟨hc.collect, hp.collect, rfl⟩

theorem acceptHandshakeTimestamp (h : Collected now p q) (ts : Tai64n) :
    (p.acceptHandshakeTimestamp ts).2 = (q.acceptHandshakeTimestamp ts).2 ∧
      Collected now (p.acceptHandshakeTimestamp ts).1 (q.acceptHandshakeTimestamp ts).1 := by
  obtain ⟨current, previous, rfl, hc, hp⟩ := h.exists_slots
  obtain ⟨_, _, _, last, _, _⟩ := q
  unfold Peer.acceptHandshakeTimestamp
  rcases last with - | prev
  · exact ⟨rfl, hc, hp, rfl⟩
  · simp only
    split_ifs
    · exact ⟨rfl, hc, hp, rfl⟩
    · exact ⟨rfl, hc, hp, rfl⟩

theorem installSession (h : Collected now p q) (keys : SessionKeys) (initiator : Bool) :
    Collected now (p.installSession keys now initiator) (q.installSession keys now initiator) := by
  obtain ⟨current, previous, rfl, hc, hp⟩ := h.exists_slots
  exact ⟨.inl rfl, hc, rfl⟩

theorem sendSession (h : Collected now p q) (use : Session → Session) :
    (p.sendSession now use).2 = (q.sendSession now use).2 ∧
      Collected now (p.sendSession now use).1 (q.sendSession now use).1 := by
  obtain ⟨current, previous, rfl, hc, hp⟩ := h.exists_slots
  obtain ⟨_, full, _, _, _, _⟩ := q
  unfold Peer.sendSession
  rcases full with - | a
  · obtain rfl : current = none := hc.elim id fun h => h.1
    exact ⟨rfl, .inl rfl, hp, rfl⟩
  rcases hc with rfl | ⟨rfl, hexp⟩
  · simp only
    split_ifs
    · exact ⟨rfl, .inl rfl, hp, rfl⟩
    · exact ⟨rfl, .inl rfl, hp, rfl⟩
  · simp only [hexp a rfl, Bool.true_or, if_true]
    exact ⟨trivial, .inr ⟨rfl, hexp⟩, hp, rfl⟩

theorem sessionForIndex (h : Collected now p q) (index : UInt32) (use : Session → Session) :
    (p.sessionForIndex index now use).2 = (q.sessionForIndex index now use).2 ∧
      Collected now (p.sessionForIndex index now use).1 (q.sessionForIndex index now use).1 := by
  obtain ⟨current, previous, rfl, hc, hp⟩ := h.exists_slots
  unfold Peer.sessionForIndex
  simp only [hc.addressed_eq index, hp.addressed_eq index]
  rcases addressed q.current index now with - | a
  · rcases addressed q.previous index now with - | a
    · exact ⟨rfl, hc, hp, rfl⟩
    · exact ⟨rfl, hc, .inl rfl, rfl⟩
  · exact ⟨rfl, .inl rfl, hp, rfl⟩

theorem poll_eq (h : Collected now p q) : p.poll now = q.poll now := by
  obtain ⟨current, previous, rfl, hc, -⟩ := h.exists_slots
  unfold Peer.poll
  rcases q.handshakeSent with - | sent
  · exact hc.pollSession_eq
  · rfl

end Collected

/-- **A peer with garbage collection simulates the one without.** -/
theorem simulates_uncollected (A : Aead) :
    Timed.Simulates (step A) (step A) Op.visible Collected where
  later := Collected.later
  step := by
    intro now p q op hv h
    cases op with
    | handshakeSent =>
      obtain ⟨current, previous, rfl, hc, hp⟩ := h.exists_slots
      exact ⟨rfl, hc, hp, rfl⟩
    | poll => exact ⟨congrArg Answer.action h.poll_eq, h⟩
    | call c =>
      cases c with
      | acceptHandshakeTimestamp ts =>
        obtain ⟨hout, hrel⟩ := h.acceptHandshakeTimestamp ts
        exact ⟨congrArg Answer.timestamp hout, hrel⟩
      | installSession keys initiator => exact ⟨rfl, h.installSession keys initiator⟩
      | sendSession uses =>
        obtain ⟨hout, hrel⟩ := h.sendSession fun s => s.used A uses
        exact ⟨congrArg Answer.session hout, hrel⟩
      | sessionForIndex index uses =>
        obtain ⟨hout, hrel⟩ := h.sessionForIndex index fun s => s.used A uses
        exact ⟨congrArg Answer.session hout, hrel⟩
      | expire => cases hv
      | hasSession => exact ⟨congrArg Answer.has h.current.any_eq, h⟩
  hidden := by
    intro now p q op hv h
    cases op with
    | handshakeSent => cases hv
    | poll => cases hv
    | call c =>
      cases c with
      | expire => exact h.expire
      | _ => cases hv

/-- **`expire` is pure garbage collection.**  Two runs that differ only in their
calls of it answer every other call alike. -/
theorem expire_unobservable (A : Aead) (key : NodePublic) (start : ℕ) (ops ops' : List (ℕ × Op))
    (ho : Timed.Ordered start ops) (ho' : Timed.Ordered start ops')
    (hsame : Timed.seen Op.visible ops = Timed.seen Op.visible ops') :
    Timed.trace (step A) Op.visible (new key) ops =
      Timed.trace (step A) Op.visible (new key) ops' := by
  rw [(simulates_uncollected A).trace_eq ho (Collected.refl start (new key)),
    (simulates_uncollected A).trace_eq ho' (Collected.refl start (new key)), hsame]

/-- A session replaced after it expired, with and without a collection in
between. -/
theorem expire_unobservable_rekey :
    let rekey := fun t index => (t, Op.call (.installSession ⟨0, 0, index, 7⟩ true))
    Timed.trace (step checksumAead) Op.visible (new ⟨0⟩)
        [rekey 0 1, (180000, .call .expire), rekey 180000 2, (180001, .poll)] =
      Timed.trace (step checksumAead) Op.visible (new ⟨0⟩)
        [rekey 0 1, rekey 180000 2, (180001, .poll)] := by
  intro rekey
  refine expire_unobservable checksumAead ⟨0⟩ 0 _ _ ?_ ?_ rfl
  · simp [rekey, Timed.Ordered]
  · simp [rekey, Timed.Ordered]

/-! ### What the slots hold -/

/-- A call of `install_session`. -/
structure Install where
  keys : SessionKeys
  time : ℕ
  initiator : Bool

/-- The call that an operation is, if it installs a session. -/
def Op.install? (now : ℕ) : Op → Option Install
  | .call (.installSession keys initiator) => some ⟨keys, now, initiator⟩
  | _ => none

/-- Only `expire` is hidden, and it installs nothing. -/
theorem install?_hidden (now : ℕ) {op : Op} (h : op.visible = false) : op.install? now = none := by
  cases op with
  | handshakeSent => rfl
  | poll => rfl
  | call c =>
    cases c with
    | installSession keys initiator => cases h
    | _ => rfl

/-- The calls of `install_session` in a run, the latest first. -/
def installs : List (ℕ × Op) → List Install
  | [] => []
  | (now, op) :: ops => installs ops ++ (op.install? now).toList

end Peer

theorem Session.used_append (A : Aead) (s : Session) (us vs : List Session.Use) :
    s.used A (us ++ vs) = (s.used A us).used A vs := by
  induction us generalizing s with
  | nil => rfl
  | cons u us ih =>
    cases u with
    | encrypt payload outLen => exact ih _
    | decrypt packet => exact ih _

theorem Session.localIndex_used (A : Aead) (s : Session) (uses : List Session.Use) :
    (s.used A uses).localIndex = s.localIndex := by
  induction uses generalizing s with
  | nil => rfl
  | cons u us ih =>
    cases u with
    | encrypt payload outLen =>
      rw [Session.used, ih]
      rcases s.encrypt_cases A payload outLen with ⟨e, he⟩ | ⟨body, tag, -, -, he⟩
      · rw [he]
      · rw [he]
    | decrypt packet =>
      rw [Session.used, ih]
      rcases s.decrypt_cases A packet with ⟨e, he⟩ | ⟨body, tag, plain, -, -, -, he⟩
      · rw [he]
      · rw [he]

/-- The session that a call installed, after the uses made of it. -/
def Session.From (A : Aead) (s : Session) (c : Peer.Install) : Prop :=
  ∃ uses, s = (Session.new c.keys).used A uses

theorem Session.From.localIndex {A : Aead} {s : Session} {c : Peer.Install} (h : s.From A c) :
    s.localIndex = c.keys.localIndex := by
  obtain ⟨uses, rfl⟩ := h
  rw [Session.localIndex_used]
  rfl

theorem Session.From.used {A : Aead} {s : Session} {c : Peer.Install} (h : s.From A c)
    (uses : List Session.Use) : (s.used A uses).From A c := by
  obtain ⟨us, rfl⟩ := h
  exact ⟨us ++ uses, (Session.used_append A _ us uses).symm⟩

/-- A slot that holds what a call installed. -/
structure Active.From (A : Aead) (a : Active) (c : Peer.Install) : Prop where
  session : a.session.From A c
  established : a.established = c.time

namespace Peer

variable {A : Aead}

/-- Lending a session out does not change whose it is. -/
theorem rel_lend {a a' : Active} {call : Option Install}
    (h : Option.Rel (Active.From A) (some a) call) {uses : List Session.Use}
    (hs : a'.session = a.session.used A uses) (he : a'.established = a.established) :
    Option.Rel (Active.From A) (some a') call := by
  cases h with
  | some h => exact .some ⟨hs ▸ h.session.used uses, he.trans h.established⟩

theorem addressed_some {slot : Option Active} {index : UInt32} {now : ℕ} {a : Active}
    (h : addressed slot index now = some a) :
    slot = some a ∧ a.session.localIndex = index ∧ a.expired now = false := by
  obtain ⟨hslot, hp⟩ := Option.filter_eq_some_iff.mp h
  rw [Bool.and_eq_true, decide_eq_true_eq, Bool.not_eq_true'] at hp
  exact ⟨hslot, hp⟩

/-- Without garbage collection the slots hold the two latest sessions. -/
structure Uncollected (A : Aead) (p : Peer) (calls : List Install) : Prop where
  current : Option.Rel (Active.From A) p.current calls[0]?
  previous : Option.Rel (Active.From A) p.previous calls[1]?

namespace Uncollected

variable {p : Peer} {calls : List Install}

theorem installSession (h : Uncollected A p calls) (keys : SessionKeys) (now : ℕ)
    (initiator : Bool) :
    Uncollected A (p.installSession keys now initiator) (⟨keys, now, initiator⟩ :: calls) :=
  ⟨.some ⟨⟨[], rfl⟩, rfl⟩, h.current⟩

theorem sendSession (h : Uncollected A p calls) (now : ℕ) (uses : List Session.Use) :
    Uncollected A (p.sendSession now fun s => s.used A uses).1 calls := by
  unfold Peer.sendSession
  rcases hc : p.current with - | a
  · exact h
  · simp only
    split_ifs
    · exact h
    · exact ⟨rel_lend (hc ▸ h.current) rfl rfl, h.previous⟩

theorem sessionForIndex (h : Uncollected A p calls) (index : UInt32) (now : ℕ)
    (uses : List Session.Use) :
    Uncollected A (p.sessionForIndex index now fun s => s.used A uses).1 calls := by
  unfold Peer.sessionForIndex
  rcases hc : addressed p.current index now with - | a
  · simp only
    rcases hp : addressed p.previous index now with - | a
    · exact h
    · exact ⟨h.current, rel_lend ((addressed_some hp).1 ▸ h.previous) rfl rfl⟩
  · exact ⟨rel_lend ((addressed_some hc).1 ▸ h.current) rfl rfl, h.previous⟩

theorem acceptHandshakeTimestamp (h : Uncollected A p calls) (ts : Tai64n) :
    Uncollected A (p.acceptHandshakeTimestamp ts).1 calls := by
  unfold Peer.acceptHandshakeTimestamp
  split
  · split_ifs
    · exact h
    · exact ⟨h.current, h.previous⟩
  · exact ⟨h.current, h.previous⟩

theorem step (h : Uncollected A p calls) (now : ℕ) {op : Op} (hv : op.visible = true) :
    Uncollected A (p.step A now op).1 ((op.install? now).toList ++ calls) := by
  cases op with
  | handshakeSent => exact ⟨h.current, h.previous⟩
  | poll => exact h
  | call c =>
    cases c with
    | acceptHandshakeTimestamp ts => exact h.acceptHandshakeTimestamp ts
    | installSession keys initiator => exact h.installSession keys now initiator
    | sendSession uses => exact h.sendSession now uses
    | sessionForIndex index uses => exact h.sessionForIndex index now uses
    | expire => cases hv
    | hasSession => exact h

/-- A run without garbage collection keeps the slots in step with its calls. -/
theorem run (h : Uncollected A p calls) (ops : List (ℕ × Op)) :
    Uncollected A (Timed.run (Peer.step A) p (Timed.seen Op.visible ops)) (installs ops ++ calls) := by
  induction ops generalizing p calls with
  | nil => exact h
  | cons x ops ih =>
    obtain ⟨now, op⟩ := x
    rw [installs, List.append_assoc]
    rcases hv : op.visible with - | -
    · rw [Timed.seen_cons_hidden hv]
      rw [install?_hidden now hv]
      exact ih h
    · rw [Timed.seen_cons_visible hv]
      exact ih (h.step now hv)

end Uncollected

/-! ### Lookups -/

theorem expired_eq_false {a : Active} {now : ℕ} :
    a.expired now = false ↔ now - a.established < rejectAfterTime := by
  rw [Active.expired, decide_eq_false_iff_not, Nat.not_le]

theorem mem_take_two {α : Type} {x : α} {xs : List α} :
    x ∈ xs.take 2 ↔ xs[0]? = some x ∨ xs[1]? = some x := by
  rcases xs with - | ⟨a, - | ⟨b, xs⟩⟩
  · simp
  · simp [eq_comm]
  · simp [eq_comm]

/-- The first slot that is addressed answers. -/
theorem sessionForIndex_answer (p : Peer) (index : UInt32) (now : ℕ) (use : Session → Session) :
    (p.sessionForIndex index now use).2 =
      ((addressed p.current index now).or (addressed p.previous index now)).map Active.session := by
  unfold sessionForIndex
  rcases addressed p.current index now with - | a
  · rcases addressed p.previous index now with - | a
    · rfl
    · rfl
  · rfl

/-- The call behind a slot that is occupied. -/
theorem exists_call {slot : Option Active} {call : Option Install} {a : Active}
    (h : Option.Rel (Active.From A) slot call) (hs : slot = some a) :
    ∃ c, call = some c ∧ a.From A c := by
  subst hs
  cases h with
  | some h => exact ⟨_, rfl, h⟩

/-- The slot of a call. -/
theorem exists_slot {slot : Option Active} {call : Option Install} {c : Install}
    (h : Option.Rel (Active.From A) slot call) (hc : call = some c) :
    ∃ a, slot = some a ∧ a.From A c := by
  subst hc
  cases h with
  | some h => exact ⟨_, rfl, h⟩

namespace Uncollected

variable {q : Peer} {calls : List Install} {now : ℕ} {use : Session → Session}

theorem sendSession_some (h : Uncollected A q calls) {s : Session}
    (hs : (q.sendSession now use).2 = some s) :
    ∃ c, calls[0]? = some c ∧ s.From A c ∧ now - c.time < rejectAfterTime ∧
      s.sendCounter < rejectAfterMessages := by
  unfold Peer.sendSession at hs
  rcases hcur : q.current with - | a
  · rw [hcur] at hs
    cases hs
  · rw [hcur] at hs
    simp only at hs
    split_ifs at hs with hno
    obtain rfl := Option.some.inj hs
    obtain ⟨c, hc, hfrom⟩ := exists_call h.current hcur
    rw [Bool.or_eq_true, decide_eq_true_eq, not_or, Bool.not_eq_true, UInt64.not_le] at hno
    refine ⟨c, hc, hfrom.session, ?_, hno.2⟩
    rw [← hfrom.established]
    exact expired_eq_false.mp hno.1

theorem sessionForIndex_some (h : Uncollected A q calls) {i : UInt32} {s : Session}
    (hs : (q.sessionForIndex i now use).2 = some s) :
    s.localIndex = i ∧ ∃ c ∈ calls.take 2, s.From A c ∧ now - c.time < rejectAfterTime := by
  rw [sessionForIndex_answer] at hs
  obtain ⟨a, ha, rfl⟩ := Option.map_eq_some_iff.mp hs
  rw [Option.or_eq_some_iff] at ha
  obtain ⟨slot, call, hrel, hmem, haddr⟩ : ∃ slot call, Option.Rel (Active.From A) slot call ∧
      (call = calls[0]? ∨ call = calls[1]?) ∧ addressed slot i now = some a := by
    rcases ha with ha | ⟨-, ha⟩
    · exact ⟨_, _, h.current, .inl rfl, ha⟩
    · exact ⟨_, _, h.previous, .inr rfl, ha⟩
  obtain ⟨hslot, hindex, hyoung⟩ := addressed_some haddr
  obtain ⟨c, rfl, hfrom⟩ := exists_call hrel hslot
  refine ⟨hindex, c, mem_take_two.mpr (hmem.imp Eq.symm Eq.symm), hfrom.session, ?_⟩
  rw [← hfrom.established]
  exact expired_eq_false.mp hyoung

theorem sessionForIndex_found (h : Uncollected A q calls)
    (hdiff : ∀ c d, calls.take 2 = [c, d] → c.keys.localIndex ≠ d.keys.localIndex)
    {c : Install} (hc : c ∈ calls.take 2) (hyoung : now - c.time < rejectAfterTime) :
    ∃ s, (q.sessionForIndex c.keys.localIndex now use).2 = some s ∧ s.From A c := by
  have found : ∀ {slot : Option Active} {a : Active}, slot = some a → a.From A c →
      addressed slot c.keys.localIndex now = some a := by
    intro slot a hslot hfrom
    refine Option.filter_eq_some_iff.mpr ⟨hslot, ?_⟩
    rw [← hfrom.established] at hyoung
    rw [decide_eq_true hfrom.session.localIndex, expired_eq_false.mpr hyoung]
    rfl
  rw [sessionForIndex_answer]
  rcases mem_take_two.mp hc with hc | hc
  · obtain ⟨a, hslot, hfrom⟩ := exists_slot h.current hc
    rw [found hslot hfrom]
    exact ⟨a.session, rfl, hfrom.session⟩
  · obtain ⟨b, hslot, hfrom⟩ := exists_slot h.previous hc
    -- the newer session has another index, so it does not answer for this one
    have hnone : addressed q.current c.keys.localIndex now = none := by
      rw [addressed, Option.filter_eq_none_iff]
      intro a ha
      obtain ⟨d, hd, hafrom⟩ := exists_call h.current ha
      have htwo : calls.take 2 = [d, c] := by
        rcases calls with - | ⟨x, - | ⟨y, rest⟩⟩
        · cases hc
        · cases hc
        · obtain rfl := Option.some.inj hc
          obtain rfl := Option.some.inj hd
          rfl
      have hne : a.session.localIndex ≠ c.keys.localIndex := by
        rw [hafrom.session.localIndex]
        exact hdiff d c htwo
      rw [decide_eq_false hne]
      exact Bool.false_ne_true
    rw [hnone, Option.none_or, found hslot hfrom]
    exact ⟨b.session, rfl, hfrom.session⟩

end Uncollected

/-- **Lookups find the two latest sessions, and only while they are young.**
After any run, what is lent out to send is the session of the latest
`install_session`, and what is lent out for an index is one of the two latest,
each less than `REJECT_AFTER_TIME` old; and while their indices differ, either
of the two that is younger than that is found under its own. -/
theorem lookups_by_install (A : Aead) (key : NodePublic) (start : ℕ) (ops : List (ℕ × Op))
    (ho : Timed.Ordered start ops) (now : ℕ) (hnow : Timed.finish start ops ≤ now)
    (use : Session → Session) :
    let p := Timed.run (step A) (new key) ops
    (∀ s, (p.sendSession now use).2 = some s →
      ∃ c, (installs ops)[0]? = some c ∧ s.From A c ∧ now - c.time < rejectAfterTime ∧
        s.sendCounter < rejectAfterMessages) ∧
    (∀ i s, (p.sessionForIndex i now use).2 = some s →
      s.localIndex = i ∧ ∃ c ∈ (installs ops).take 2, s.From A c ∧
        now - c.time < rejectAfterTime) ∧
    ((∀ c d, (installs ops).take 2 = [c, d] → c.keys.localIndex ≠ d.keys.localIndex) →
      ∀ c ∈ (installs ops).take 2, now - c.time < rejectAfterTime →
        ∃ s, (p.sessionForIndex c.keys.localIndex now use).2 = some s ∧ s.From A c) := by
  intro p
  have hcol : Collected now p (Timed.run (step A) (new key) (Timed.seen Op.visible ops)) :=
    ((simulates_uncollected A).run_rel ho (Collected.refl start (new key))).later hnow
  have hslots : Uncollected A (Timed.run (step A) (new key) (Timed.seen Op.visible ops))
      (installs ops) := by
    have hnew : Uncollected A (new key) [] := ⟨.none, .none⟩
    have hrun := hnew.run ops
    rwa [List.append_nil] at hrun
  refine ⟨?_, ?_, ?_⟩
  · intro s hs
    rw [(hcol.sendSession use).1] at hs
    exact hslots.sendSession_some hs
  · intro i s hs
    rw [(hcol.sessionForIndex i use).1] at hs
    exact hslots.sessionForIndex_some hs
  · intro hdiff c hc hyoung
    rw [(hcol.sessionForIndex c.keys.localIndex use).1]
    exact hslots.sessionForIndex_found hdiff hc hyoung

/-- A rekey, and a packet for the session before it. -/
theorem lookups_by_install_rekey :
    let rekey := fun t index => (t, Op.call (.installSession ⟨0, 0, index, 20⟩ true))
    let p := Timed.run (step checksumAead) (new ⟨0⟩)
      [rekey 0 10, rekey 1000 11, (1000, .call .expire)]
    ∃ s, (p.sessionForIndex 10 2000 id).2 = some s ∧
      s.From checksumAead ⟨⟨0, 0, 10, 20⟩, 0, true⟩ := by
  intro rekey p
  have h := (lookups_by_install checksumAead ⟨0⟩ 0
    [rekey 0 10, rekey 1000 11, (1000, .call .expire)] (by simp [rekey, Timed.Ordered]) 2000
    (by simp [rekey, Timed.finish]) id).2.2
  refine h ?_ ⟨⟨0, 0, 10, 20⟩, 0, true⟩ (by simp [installs, rekey, Op.install?]) (by decide)
  intro c d hcd
  obtain ⟨rfl, hd⟩ := List.cons.inj hcd
  obtain ⟨rfl, -⟩ := List.cons.inj hd
  decide

end Peer

end Lando
