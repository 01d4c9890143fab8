/-
Lando/PeerKeepalive.lean

When a peer owes a keepalive (`wireguard/peer.rs`, `owes_keepalive`).

The rule is about the order of events on the current session: data came in, and
nothing went out since.  The source reconstructs the order from two timestamps,
`last_sent` and `last_received`, in milliseconds.  `history` records the events
themselves, and the timestamps are those of the latest event of each kind
(`Recorded`).  Times never decrease along a run, so they give the order away but
in one case: data came in during the millisecond in which something went out
before.  Then nothing is owed (`Overlooked`).
-/
import Lando.PeerTimers

namespace Lando

open Timers

namespace Peer

/-! ### Events on the current session -/

/-- The current session was lent out, to send or to receive. -/
inductive Event
  | sent (t : ℕ)
  | received (t : ℕ)
  deriving DecidableEq

/-- When it happened. -/
def Event.time : Event → ℕ
  | sent t => t
  | received t => t

/-- What a call does on the current session: `send_session` succeeds, or
`session_for_index` returns it. -/
def event (p : Peer) (now : ℕ) : Op → Option Event
  | .call (.sendSession _) =>
      if (p.sendSession now id).2.isSome then some (.sent now) else none
  | .call (.sessionForIndex index _) =>
      if (addressed p.current index now).isSome then some (.received now) else none
  | _ => none

/-- The events on the current session after a call, latest first. -/
def eventsAfter (p : Peer) (now : ℕ) (op : Op) (es : List Event) : List Event :=
  if (op.install? now).isSome then [] else (p.event now op).toList ++ es

/-- The events on the current session after a run, latest first. -/
def history (A : Aead) : Peer → List Event → List (ℕ × Op) → List Event
  | _, es, [] => es
  | p, es, (now, op) :: ops => history A (p.step A now op).1 (p.eventsAfter now op es) ops

/-- When something was sent last. -/
def lastSent : List Event → Option ℕ
  | [] => none
  | .sent t :: _ => some t
  | .received _ :: es => lastSent es

/-- When something was received last. -/
def lastReceived : List Event → Option ℕ
  | [] => none
  | .sent _ :: es => lastReceived es
  | .received t :: _ => some t

theorem sent_mem {es : List Event} {s : ℕ} (h : lastSent es = some s) : .sent s ∈ es := by
  induction es with
  | nil => cases h
  | cons e es ih =>
    cases e with
    | sent t =>
      obtain rfl := Option.some.inj h
      exact List.mem_cons_self
    | received t => exact List.mem_cons_of_mem _ (ih h)

theorem received_mem {es : List Event} {r : ℕ} (h : lastReceived es = some r) :
    .received r ∈ es := by
  induction es with
  | nil => cases h
  | cons e es ih =>
    cases e with
    | sent t => exact List.mem_cons_of_mem _ (ih h)
    | received t =>
      obtain rfl := Option.some.inj h
      exact List.mem_cons_self

/-- Among ordered events, one at the latest time at all was the last to be
sent at that time. -/
theorem lastSent_of_mem {es : List Event} {s : ℕ}
    (ho : es.Pairwise fun later earlier => earlier.time ≤ later.time) (hmem : .sent s ∈ es)
    (hmax : ∀ e ∈ es, e.time ≤ s) : lastSent es = some s := by
  induction es with
  | nil => cases hmem
  | cons e es ih =>
    obtain ⟨hhead, htail⟩ := List.pairwise_cons.mp ho
    cases e with
    | sent t =>
      rcases List.mem_cons.mp hmem with h | h
      · obtain rfl := Event.sent.inj h
        rfl
      · have hle : t ≤ s := hmax _ List.mem_cons_self
        have hge : s ≤ t := hhead _ h
        rw [lastSent, Nat.le_antisymm hle hge]
    | received t =>
      rcases List.mem_cons.mp hmem with h | h
      · cases h
      · exact ih htail h fun e he => hmax e (List.mem_cons_of_mem _ he)

/-! ### The two timestamps -/

/-- The current session is lent to the sender, or nothing is. -/
theorem sendSession_cases (p : Peer) (now : ℕ) :
    (∀ use, p.sendSession now use = (p, none)) ∨
    ∃ a, p.current = some a ∧ ∀ use, p.sendSession now use =
      ({ p with current := some (a.lendSend now use) }, some a.session) := by
  unfold sendSession
  rcases p.current with - | a
  · exact .inl fun use => rfl
  · simp only
    split_ifs
    · exact .inl fun use => rfl
    · exact .inr ⟨a, rfl, fun use => rfl⟩

/-- The timestamps of a slot are those of the latest events. -/
structure Recorded (a : Active) (es : List Event) : Prop where
  sent : a.lastSent = lastSent es
  received : a.lastReceived = lastReceived es

/-- Events that lie in the past, in order, behind the timestamps of the current
session. -/
structure Kept (now : ℕ) (p : Peer) (es : List Event) : Prop where
  recorded : ∀ a ∈ p.current, Recorded a es
  ordered : es.Pairwise fun later earlier => earlier.time ≤ later.time
  past : ∀ e ∈ es, e.time ≤ now

namespace Kept

variable {p : Peer} {es : List Event} {now now' : ℕ}

theorem later (hle : now ≤ now') (h : Kept now p es) : Kept now' p es :=
  ⟨h.recorded, h.ordered, fun e he => (h.past e he).trans hle⟩

/-- An event that is new. -/
theorem cons (h : Kept now p es) {p' : Peer} {e : Event} (he : e.time = now)
    (hp : ∀ a ∈ p'.current, Recorded a (e :: es)) : Kept now p' (e :: es) := by
  refine ⟨hp, List.pairwise_cons.mpr ⟨?_, h.ordered⟩, ?_⟩
  · intro e' he'
    rw [he]
    exact h.past e' he'
  · intro e' he'
    rcases List.mem_cons.mp he' with rfl | he'
    · exact he.le
    · exact h.past e' he'

/-- A call that leaves the current session alone, or drops it. -/
theorem unchanged (h : Kept now p es) {p' : Peer} (hp : ∀ a ∈ p'.current, a ∈ p.current) :
    Kept now p' es :=
  ⟨fun a ha => h.recorded a (hp a ha), h.ordered, h.past⟩

theorem sendSession (h : Kept now p es) (uses : List Session.Use) (A : Aead) :
    Kept now (p.step A now (.call (.sendSession uses))).1
      (p.eventsAfter now (.call (.sendSession uses)) es) := by
  simp only [eventsAfter, Op.install?, event, step, stepCall]
  rcases p.sendSession_cases now with hno | ⟨a, hc, hlend⟩
  · rw [hno, hno]
    exact h
  · rw [hlend, hlend]
    refine h.cons rfl ?_
    intro a' ha'
    obtain rfl := Option.some.inj ha'
    exact ⟨rfl, (h.recorded a hc).received⟩

theorem sessionForIndex (h : Kept now p es) (index : UInt32) (uses : List Session.Use) (A : Aead) :
    Kept now (p.step A now (.call (.sessionForIndex index uses))).1
      (p.eventsAfter now (.call (.sessionForIndex index uses)) es) := by
  simp only [eventsAfter, Op.install?, event, step, stepCall, Peer.sessionForIndex]
  rcases hc : addressed p.current index now with - | a
  · -- the previous session's timestamps are not looked at
    rcases addressed p.previous index now with - | a
    · exact h
    · exact h.unchanged fun a ha => ha
  · refine h.cons rfl ?_
    intro a' ha'
    obtain rfl := Option.some.inj ha'
    exact ⟨(h.recorded a (addressed_some hc).1).sent, rfl⟩

theorem step (h : Kept now p es) (A : Aead) (op : Op) :
    Kept now (p.step A now op).1 (p.eventsAfter now op es) := by
  cases op with
  | handshakeSent => exact h.unchanged fun a ha => ha
  | poll => exact h
  | call c =>
    cases c with
    | acceptHandshakeTimestamp ts =>
      refine h.unchanged fun a ha => ?_
      simp only [Peer.step, stepCall, Peer.acceptHandshakeTimestamp] at ha
      split at ha
      · split_ifs at ha
        · exact ha
        · exact ha
      · exact ha
    | installSession keys initiator =>
      refine ⟨?_, .nil, fun e he => by cases he⟩
      intro a ha
      obtain rfl := Option.some.inj ha
      exact ⟨rfl, rfl⟩
    | sendSession uses => exact h.sendSession uses A
    | sessionForIndex index uses => exact h.sessionForIndex index uses A
    | expire =>
      refine h.unchanged fun a ha => ?_
      simp only [Peer.step, stepCall, expire_eq] at ha
      split_ifs at ha
      · cases ha
      · exact ha
    | hasSession => exact h

theorem run (h : Kept now p es) (A : Aead) {ops : List (ℕ × Op)} (ho : Timed.Ordered now ops) :
    Kept (Timed.finish now ops) (Timed.run (Peer.step A) p ops) (history A p es ops) := by
  induction ops generalizing now p es with
  | nil => exact h
  | cons x ops ih => exact ih ((h.later ho.1).step A x.2) ho.2

end Kept

/-! ### Polling -/

theorem owesKeepalive_iff {a : Active} {now : ℕ} :
    a.owesKeepalive now = true ↔
      ∃ r, a.lastReceived = some r ∧ (∀ s ∈ a.lastSent, s < r) ∧ r + keepaliveTimeout ≤ now := by
  unfold Active.owesKeepalive
  rcases a.lastReceived with - | r
  · simp
  · have hany : (a.lastSent.any fun s => decide (r ≤ s)) = true ↔ ¬ ∀ s ∈ a.lastSent, s < r := by
      cases a.lastSent with
      | none => simp
      | some s => simp
    have htime : keepaliveTimeout ≤ now - r ↔ r + keepaliveTimeout ≤ now := by
      simp only [keepaliveTimeout]
      omega
    simp only [Option.some.injEq, exists_eq_left']
    by_cases h : ∀ s ∈ a.lastSent, s < r
    · rw [if_neg (by rw [hany, not_not]; exact h), decide_eq_true_iff, htime]
      exact ⟨fun h' => ⟨h, h'⟩, fun h' => h'.2⟩
    · rw [if_pos (hany.mpr h)]
      exact iff_of_false Bool.false_ne_true fun h' => h h'.1

/-- The current session may be used, and need not be replaced yet. -/
def Settled (p : Peer) (now : ℕ) (a : Active) : Prop :=
  p.handshakeSent = none ∧ p.current = some a ∧ a.expired now = false ∧ a.dueForRekey now = false

theorem poll_keepalive_iff {p : Peer} {now : ℕ} :
    p.poll now = .keepalive ↔ ∃ a, p.Settled now a ∧ a.owesKeepalive now = true := by
  unfold poll
  rcases hs : p.handshakeSent with - | sent
  · rcases hc : p.current with - | a
    · simp [pollSession, Settled, hc]
    · simp only [pollSession, Settled, hs, hc, true_and, Option.some.injEq, and_assoc,
        exists_eq_left']
      rcases a.expired now with - | -
      · rcases a.dueForRekey now with - | -
        · rcases a.owesKeepalive now with - | -
          · simp
          · simp
        · simp
      · simp
  · -- a handshake in flight decides alone
    refine iff_of_false ?_ ?_
    · simp only [pollHandshake]
      split_ifs <;> rintro ⟨⟩
    · rintro ⟨a, hsettled, -⟩
      have := hs.symm.trans hsettled.1
      cases this

/-! ### Order and time -/

/-- The rule: a keepalive is owed once `KEEPALIVE_TIMEOUT` has passed since the
last event, if that was a receive, and never if it was not. -/
structure FollowsOrder (p : Peer) (es : List Event) (now : ℕ) : Prop where
  owed : ∀ r, es.head? = some (.received r) → r + keepaliveTimeout ≤ now →
    ∀ a, p.Settled now a → p.poll now = .keepalive
  notOwed : (∀ r, es.head? ≠ some (.received r)) → p.poll now ≠ .keepalive

/-- A keepalive is owed since a time at which something was sent, too. -/
def Overlooked (p : Peer) (es : List Event) (now : ℕ) : Prop :=
  ∃ r a, es.head? = some (.received r) ∧ .sent r ∈ es ∧ r + keepaliveTimeout ≤ now ∧
    p.Settled now a

namespace Kept

variable {p : Peer} {es : List Event} {now now' : ℕ}

/-- Nothing comes after the last event. -/
theorem le_head (h : Kept now p es) {e : Event} (he : es.head? = some e) :
    ∀ e' ∈ es, e'.time ≤ e.time := by
  cases es with
  | nil => cases he
  | cons e₀ es =>
    obtain rfl := Option.some.inj he
    intro e' he'
    rcases List.mem_cons.mp he' with rfl | he'
    · exact Nat.le_refl _
    · exact (List.pairwise_cons.mp h.ordered).1 e' he'

theorem lastReceived_head {r : ℕ} (he : es.head? = some (.received r)) :
    lastReceived es = some r := by
  cases es with
  | nil => cases he
  | cons e₀ es =>
    obtain rfl := Option.some.inj he
    rfl

theorem followsOrder_iff (h : Kept now p es) (now' : ℕ) :
    FollowsOrder p es now' ↔ ¬ Overlooked p es now' := by
  constructor
  · rintro horder ⟨r, a, hhead, hmem, hdue, hsettled⟩
    obtain ⟨a', hsettled', howes⟩ :=
      poll_keepalive_iff.mp (horder.owed r hhead hdue a hsettled)
    obtain rfl := Option.some.inj (hsettled.2.1.symm.trans hsettled'.2.1)
    obtain ⟨r', hr', hlater, -⟩ := owesKeepalive_iff.mp howes
    have hrec := h.recorded a hsettled.2.1
    -- the send at the time of the receive was the last one
    have hsent := lastSent_of_mem h.ordered hmem (h.le_head hhead)
    rw [hrec.received, lastReceived_head hhead] at hr'
    rw [hrec.sent, hsent] at hlater
    exact absurd (hlater r rfl) (by rw [Option.some.inj hr']; exact Nat.lt_irrefl r')
  · intro hno
    constructor
    · intro r hhead hdue a hsettled
      have hrec := h.recorded a hsettled.2.1
      refine poll_keepalive_iff.mpr ⟨a, hsettled, owesKeepalive_iff.mpr ⟨r, ?_, ?_, hdue⟩⟩
      · rw [hrec.received, lastReceived_head hhead]
      · intro s hs
        have hmem : .sent s ∈ es := sent_mem (hrec.sent.symm.trans hs)
        have hle : s ≤ r := h.le_head hhead _ hmem
        have hne : s ≠ r := by
          rintro rfl
          exact hno ⟨s, a, hhead, hmem, hdue, hsettled⟩
        omega
    · intro hhead hpoll
      obtain ⟨a, hsettled, howes⟩ := poll_keepalive_iff.mp hpoll
      obtain ⟨r, hr, hlater, -⟩ := owesKeepalive_iff.mp howes
      have hrec := h.recorded a hsettled.2.1
      rw [hrec.received] at hr
      have hmem := received_mem hr
      cases es with
      | nil => cases hmem
      | cons e es =>
        cases e with
        | received t => exact hhead t rfl
        | sent t =>
          have hlt : t < r := hlater t (by rw [hrec.sent]; rfl)
          have hle : r ≤ t := h.le_head rfl _ hmem
          omega

end Kept

/-- **When keepalives follow the order of events.**  After every run, at every
later time: exactly unless a keepalive is owed since a millisecond in which the
peer had sent something before it received. -/
theorem keepalive_follows_order_iff (A : Aead) (key : NodePublic) (start : ℕ)
    (ops : List (ℕ × Op)) (ho : Timed.Ordered start ops) (now : ℕ)
    (hnow : Timed.finish start ops ≤ now) :
    let p := Timed.run (step A) (new key) ops
    let es := history A (new key) [] ops
    FollowsOrder p es now ↔ ¬ Overlooked p es now := by
  intro p es
  have hnew : Kept start (new key) [] := ⟨by rintro a ⟨⟩, .nil, by rintro e ⟨⟩⟩
  exact ((hnew.run A ho).later hnow).followsOrder_iff now

/-- A packet sent, another one received two milliseconds later. -/
theorem keepalive_follows_order_iff_later :
    let ops := [(0, Op.call (.installSession ⟨0, 0, 1, 2⟩ true)), (1000, .call (.sendSession [])),
      (1002, .call (.sessionForIndex 1 []))]
    FollowsOrder (Timed.run (step checksumAead) (new ⟨0⟩) ops)
      (history checksumAead (new ⟨0⟩) [] ops) 11002 := by
  intro ops
  refine (keepalive_follows_order_iff checksumAead ⟨0⟩ 0 ops (by simp [ops, Timed.Ordered]) 11002
    (by simp [ops, Timed.finish])).mpr ?_
  rintro ⟨r, a, hhead, hmem, -, -⟩
  have hes : history checksumAead (new ⟨0⟩) [] ops = [.received 1002, .sent 1000] := by
    decide +kernel
  rw [hes] at hhead hmem
  obtain rfl := Event.received.inj (Option.some.inj hhead)
  simp at hmem

/-- Received in the millisecond of a send, and no keepalive ever. -/
theorem keepalive_overlooked :
    let ops := [(0, Op.call (.installSession ⟨0, 0, 1, 2⟩ true)), (1000, .call (.sendSession [])),
      (1000, .call (.sessionForIndex 1 []))]
    let p := Timed.run (step checksumAead) (new ⟨0⟩) ops
    history checksumAead (new ⟨0⟩) [] ops = [.received 1000, .sent 1000] ∧
      p.poll 11000 = .idle ∧ ¬ FollowsOrder p (history checksumAead (new ⟨0⟩) [] ops) 11000 := by
  intro ops p
  have hes : history checksumAead (new ⟨0⟩) [] ops = [.received 1000, .sent 1000] := by
    decide +kernel
  have hpoll : p.poll 11000 = .idle := by decide +kernel
  refine ⟨hes, hpoll, ?_⟩
  intro horder
  have hsettled : p.Settled 11000 ⟨Session.new ⟨0, 0, 1, 2⟩, 0, some 1000, some 1000, true⟩ := by
    refine ⟨rfl, ?_, ?_, ?_⟩ <;> decide +kernel
  have := horder.owed 1000 (by rw [hes]; rfl) (by decide) _ hsettled
  rw [hpoll] at this
  cases this

end Peer

end Lando
