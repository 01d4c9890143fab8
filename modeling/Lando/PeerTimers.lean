/-
Lando/PeerTimers.lean

The handshake timer of a peer (`wireguard/peer.rs`, `poll` and
`handshake_sent`) over whole runs.

A caller that polls and sends an initiation exactly when it is told to
(`drive`) makes attempts at least `REKEY_TIMEOUT` apart, all of them inside
the window that opens with the first.  `handshake_sent` and
`handshake_started` are the newest and the oldest attempt since the last
session (`Attempts`), and the bounds follow from the two comparisons in
`poll`.

The window does not open again: once it has closed, only a session that the
other side starts brings the peer back (`GivenUp`).
-/
import Lando.Peer

namespace Lando.Peer

open Timers

/-! ### The driver -/

/-- A move of the caller: it polls, or it makes one of the other calls. -/
inductive Move
  | poll
  | call (c : Call)

/-- The moves of a caller that calls `handshake_sent` exactly when `poll` tells
it to initiate; the output says whether it did. -/
def drive (A : Aead) : Timed.Machine Peer Move Bool
  | p, now, .poll =>
      if p.poll now = .initiate then (p.markHandshakeSent now, true) else (p, false)
  | p, now, .call c => ((p.stepCall A now c).1, false)

/-- The move installs a session. -/
def Move.installs : Move → Bool
  | .call (.installSession _ _) => true
  | _ => false

/-- The times of the initiations since the latest session, or since the start
of the run, latest first. -/
def sinceInstall (A : Aead) : Peer → List ℕ → List (ℕ × Move) → List ℕ
  | _, times, [] => times
  | p, times, (now, m) :: moves =>
      sinceInstall A (drive A p now m).1
        (if m.installs then [] else if (drive A p now m).2 then now :: times else times) moves

/-! ### Attempts -/

/-- Latest first, every time is at least `gap` after the next. -/
abbrev Spaced (gap : ℕ) (times : List ℕ) : Prop :=
  times.Pairwise fun later earlier => earlier + gap ≤ later

/-- Spaced times take time. -/
theorem Spaced.span {gap first latest : ℕ} {times : List ℕ} (h : Spaced gap times)
    (hlast : times.getLast? = some first) (hhead : times.head? = some latest) :
    first + (times.length - 1) * gap ≤ latest := by
  induction times generalizing latest with
  | nil => cases hhead
  | cons a times ih =>
    obtain rfl := Option.some.inj hhead
    cases times with
    | nil =>
      obtain rfl := Option.some.inj hlast
      simp
    | cons b times =>
      have hb := ih h.tail (by rw [← hlast, List.getLast?_cons_cons]) rfl
      have hab := (List.pairwise_cons.mp h).1 b List.mem_cons_self
      simp only [List.length_cons, Nat.add_sub_cancel] at hb ⊢
      rw [Nat.succ_mul]
      omega

/-- The two handshake fields are the ends of the attempts since the last
session, and these are spaced and inside the window. -/
structure Attempts (p : Peer) (times : List ℕ) : Prop where
  sent : p.handshakeSent = times.head?
  started : p.handshakeStarted = times.getLast?
  spaced : Spaced rekeyTimeout times
  window : ∀ first ∈ times.getLast?, ∀ t ∈ times, t < first + rekeyAttemptTime

/-- While a handshake is in flight, `poll` asks for an attempt inside the window
and not too soon after the last. -/
theorem pollHandshake_initiate {sent now : ℕ} {started : Option ℕ} :
    pollHandshake sent started now = .initiate ↔
      (∀ s ∈ started, now < s + rekeyAttemptTime) ∧ sent + rekeyTimeout ≤ now := by
  have hany : (started.any fun s => decide (rekeyAttemptTime ≤ now - s)) = true ↔
      ¬ ∀ s ∈ started, now < s + rekeyAttemptTime := by
    cases started with
    | none => simp
    | some s =>
      rw [Option.any_some, decide_eq_true_iff]
      simp [rekeyAttemptTime]
      omega
  unfold pollHandshake
  by_cases hwindow : ∀ s ∈ started, now < s + rekeyAttemptTime
  · rw [if_neg (by rw [hany, not_not]; exact hwindow)]
    by_cases hpause : rekeyTimeout ≤ now - sent
    · rw [if_pos hpause]
      refine iff_of_true rfl ⟨hwindow, ?_⟩
      simp only [rekeyTimeout] at hpause ⊢
      omega
    · rw [if_neg hpause]
      refine iff_of_false (by rintro ⟨⟩) ?_
      simp only [rekeyTimeout] at hpause ⊢
      omega
  · rw [if_pos (hany.mpr hwindow)]
    exact iff_of_false (by rintro ⟨⟩) fun h => hwindow h.1

/-- Every call but `install_session` leaves the handshake fields alone. -/
theorem stepCall_handshake (A : Aead) (p : Peer) (now : ℕ) {c : Call}
    (hc : (Move.call c).installs = false) :
    (p.stepCall A now c).1.handshakeSent = p.handshakeSent ∧
      (p.stepCall A now c).1.handshakeStarted = p.handshakeStarted := by
  cases c with
  | acceptHandshakeTimestamp ts =>
    simp only [stepCall, acceptHandshakeTimestamp]
    split
    · split_ifs <;> exact ⟨rfl, rfl⟩
    · exact ⟨rfl, rfl⟩
  | installSession keys initiator => cases hc
  | sendSession uses =>
    simp only [stepCall, sendSession]
    split
    · exact ⟨rfl, rfl⟩
    · split_ifs <;> exact ⟨rfl, rfl⟩
  | sessionForIndex index uses =>
    simp only [stepCall, sessionForIndex]
    split
    · exact ⟨rfl, rfl⟩
    · split <;> exact ⟨rfl, rfl⟩
  | expire =>
    simp only [stepCall, expire_eq]
    exact ⟨trivial, trivial⟩
  | hasSession => exact ⟨rfl, rfl⟩

namespace Attempts

variable {p : Peer} {times : List ℕ} {now : ℕ}

theorem new (key : NodePublic) : Attempts (new key) [] :=
  ⟨rfl, rfl, .nil, fun _ h => by cases h⟩

/-- An attempt that `poll` asks for. -/
theorem markHandshakeSent (h : Attempts p times) (hpoll : p.poll now = .initiate) :
    Attempts (p.markHandshakeSent now) (now :: times) := by
  cases times with
  | nil =>
    -- the first of a new window
    refine ⟨rfl, ?_, List.pairwise_singleton _ _, ?_⟩
    · show some (p.handshakeStarted.getD now) = some now
      rw [h.started]
      rfl
    · intro first hfirst t ht
      rw [List.getLast?_singleton] at hfirst
      obtain rfl := Option.some.inj hfirst
      obtain rfl := List.mem_singleton.mp ht
      exact Nat.lt_add_of_pos_right (by decide)
  | cons latest times =>
    rw [poll, h.sent] at hpoll
    obtain ⟨hwindow, hpause⟩ := pollHandshake_initiate.mp hpoll
    rw [h.started] at hwindow
    refine ⟨rfl, ?_, ?_, ?_⟩
    · show some (p.handshakeStarted.getD now) = (now :: latest :: times).getLast?
      rw [h.started, List.getLast?_cons_cons]
      rcases hlast : (latest :: times).getLast? with - | first
      · rw [List.getLast?_eq_none_iff] at hlast
        cases hlast
      · rfl
    · refine List.pairwise_cons.mpr ⟨?_, h.spaced⟩
      intro t ht
      rcases List.mem_cons.mp ht with rfl | ht
      · exact hpause
      · have := (List.pairwise_cons.mp h.spaced).1 t ht
        omega
    · rw [List.getLast?_cons_cons]
      intro first hfirst t ht
      rcases List.mem_cons.mp ht with rfl | ht
      · exact hwindow first hfirst
      · exact h.window first hfirst t ht

theorem installSession (p : Peer) (keys : SessionKeys) (now : ℕ) (initiator : Bool) :
    Attempts (p.installSession keys now initiator) [] :=
  ⟨rfl, rfl, .nil, fun _ h => by cases h⟩

theorem drive (A : Aead) (h : Attempts p times) (m : Move) :
    Attempts (p.drive A now m).1
      (if m.installs then [] else if (p.drive A now m).2 then now :: times else times) := by
  cases m with
  | poll =>
    by_cases hpoll : p.poll now = .initiate
    · have he : p.drive A now .poll = (p.markHandshakeSent now, true) := if_pos hpoll
      rw [he]
      exact h.markHandshakeSent hpoll
    · have he : p.drive A now .poll = (p, false) := if_neg hpoll
      rw [he]
      exact h
  | call c =>
    rcases hc : (Move.call c).installs with - | -
    · obtain ⟨hsent, hstarted⟩ := stepCall_handshake A p now hc
      exact ⟨hsent.trans h.sent, hstarted.trans h.started, h.spaced, h.window⟩
    · cases c with
      | installSession keys initiator => exact installSession p keys now initiator
      | _ => cases hc

theorem run (A : Aead) (h : Attempts p times) (moves : List (ℕ × Move)) :
    Attempts (Timed.run (Peer.drive A) p moves) (sinceInstall A p times moves) := by
  induction moves generalizing p times with
  | nil => exact h
  | cons x moves ih => exact ih (h.drive A x.2)

end Attempts

/-- **Attempts are rate limited, then abandoned.**  At every point of every run
of a caller that initiates exactly when it is told to, the initiations since the
latest session are `REKEY_TIMEOUT` apart, inside `REKEY_ATTEMPT_TIME` of the
first, and so at most 18. -/
theorem attempts_limited (A : Aead) (key : NodePublic) (moves : List (ℕ × Move)) :
    let times := sinceInstall A (new key) [] moves
    times.Pairwise (fun later earlier => earlier + rekeyTimeout ≤ later) ∧
      (∀ first ∈ times.getLast?, ∀ t ∈ times, t < first + rekeyAttemptTime) ∧
      times.length ≤ 18 := by
  intro times
  have h : Attempts _ times := (Attempts.new key).run A moves
  refine ⟨h.spaced, h.window, ?_⟩
  rcases htimes : times with - | ⟨latest, rest⟩
  · exact Nat.zero_le 18
  · rw [htimes] at h
    obtain ⟨first, hfirst⟩ : ∃ first, (latest :: rest).getLast? = some first :=
      ⟨_, List.getLast?_eq_some_getLast (List.cons_ne_nil latest rest)⟩
    have hspan := Spaced.span h.spaced hfirst rfl
    have hlast := h.window first hfirst latest List.mem_cons_self
    simp only [rekeyTimeout, rekeyAttemptTime] at hspan hlast
    omega

/-- A caller that polls every five seconds makes all of them. -/
example : (sinceInstall checksumAead (new ⟨0⟩) []
    ((List.range 30).map fun i => (5000 * i, .poll))).length = 18 := by decide +kernel

/-! ### Giving up -/

/-- No handshake is in flight, or the next retry still falls into the window of
the one that is. -/
def CanRetry (p : Peer) (now : ℕ) : Prop :=
  ∀ sent ∈ p.handshakeSent, ∀ started ∈ p.handshakeStarted,
    max now (sent + rekeyTimeout) < started + rekeyAttemptTime

/-- A handshake is in flight whose window closes before its next retry. -/
structure GivenUp (now : ℕ) (p : Peer) (s₀ s₁ : ℕ) : Prop where
  started : p.handshakeStarted = some s₀
  sent : p.handshakeSent = some s₁
  past : s₁ ≤ now
  closed : s₀ + rekeyAttemptTime ≤ max now (s₁ + rekeyTimeout)

/-- Without a usable session and a handshake in flight, `poll` starts one. -/
theorem pollSession_initiate {p : Peer} {now : ℕ} (h : p.hasSession now = false) :
    pollSession p.current now = .initiate := by
  unfold hasSession at h
  rcases hc : p.current with - | a
  · rfl
  · rw [hc, Option.any_some, Bool.not_eq_false'] at h
    rw [pollSession, if_pos h]

theorem exists_initiate_iff {p : Peer} {now : ℕ} (h : p.hasSession now = false) :
    (∃ t, now ≤ t ∧ p.poll t = .initiate) ↔ p.CanRetry now := by
  rcases hs : p.handshakeSent with - | sent
  · refine iff_of_true ⟨now, Nat.le_refl now, ?_⟩ ?_
    · rw [poll, hs]
      exact pollSession_initiate h
    · intro sent hsent
      rw [hs] at hsent
      cases hsent
  · have hpoll : ∀ t, p.poll t = .initiate ↔
        (∀ s ∈ p.handshakeStarted, t < s + rekeyAttemptTime) ∧ sent + rekeyTimeout ≤ t := by
      intro t
      rw [poll, hs]
      exact pollHandshake_initiate
    constructor
    · rintro ⟨t, ht, hinit⟩ sent' hsent' started hstarted
      obtain ⟨hwindow, hpause⟩ := (hpoll t).mp hinit
      rw [hs] at hsent'
      obtain rfl := Option.some.inj hsent'
      have := hwindow started hstarted
      omega
    · intro hretry
      refine ⟨max now (sent + rekeyTimeout), Nat.le_max_left _ _, (hpoll _).mpr ⟨?_, ?_⟩⟩
      · exact hretry sent hs
      · exact Nat.le_max_right _ _

namespace GivenUp

variable {p : Peer} {now now' s₀ s₁ : ℕ}

theorem later (hle : now ≤ now') (h : GivenUp now p s₀ s₁) : GivenUp now' p s₀ s₁ :=
  ⟨h.started, h.sent, h.past.trans hle, by have := h.closed; omega⟩

theorem poll_idle (h : GivenUp now p s₀ s₁) (hle : now ≤ now') : p.poll now' = .idle := by
  have hclosed := h.closed
  rw [poll, h.sent]
  simp only [pollHandshake, h.started, Option.any_some, decide_eq_true_eq]
  by_cases hwindow : rekeyAttemptTime ≤ now' - s₀
  · rw [if_pos hwindow]
  · rw [if_neg hwindow, if_neg]
    simp only [rekeyAttemptTime, rekeyTimeout] at hclosed hwindow ⊢
    omega

/-- Only a new session gets a peer out of it. -/
theorem step (A : Aead) (h : GivenUp now p s₀ s₁) {op : Op} (hop : op.install? now = none) :
    ∃ s₁', GivenUp now (p.step A now op).1 s₀ s₁' := by
  cases op with
  | handshakeSent =>
    refine ⟨now, ?_, rfl, Nat.le_refl now, ?_⟩
    · show some (p.handshakeStarted.getD now) = some s₀
      rw [h.started]
      rfl
    · have hclosed := h.closed
      have hpast := h.past
      omega
  | poll => exact ⟨s₁, h⟩
  | call c =>
    have hc : (Move.call c).installs = false := by
      cases c with
      | installSession keys initiator => cases hop
      | _ => rfl
    obtain ⟨hsent, hstarted⟩ := stepCall_handshake A p now hc
    exact ⟨s₁, hstarted.trans h.started, hsent.trans h.sent, h.past, h.closed⟩

theorem run (A : Aead) (h : GivenUp now p s₀ s₁) {ops : List (ℕ × Op)}
    (ho : Timed.Ordered now ops) (hops : installs ops = []) :
    ∃ s₁', GivenUp (Timed.finish now ops) (Timed.run (Peer.step A) p ops) s₀ s₁' := by
  induction ops generalizing now p s₁ with
  | nil => exact ⟨s₁, h⟩
  | cons x ops ih =>
    obtain ⟨hrest, hop⟩ := List.append_eq_nil_iff.mp hops
    obtain ⟨s₁', h'⟩ := (h.later ho.1).step A (Option.toList_eq_nil_iff.mp hop)
    exact ih h' ho.2 hrest

end GivenUp

/-- The initiation in flight was not sent in the future. -/
theorem sent_le_finish (A : Aead) (key : NodePublic) {start : ℕ} {ops : List (ℕ × Op)}
    (ho : Timed.Ordered start ops) {s₁ : ℕ}
    (h : (Timed.run (step A) (new key) ops).handshakeSent = some s₁) :
    s₁ ≤ Timed.finish start ops := by
  refine Timed.run_invariant (M := step A) (I := fun now p => ∀ s ∈ p.handshakeSent, s ≤ now)
    ?_ ?_ ho ?_ s₁ h
  · intro now now' p hle hp s hs
    exact (hp s hs).trans hle
  · intro now p op hp
    cases op with
    | handshakeSent =>
      intro s hs
      obtain rfl := Option.some.inj hs
      exact Nat.le_refl now
    | poll => exact hp
    | call c =>
      rcases hc : (Move.call c).installs with - | -
      · show ∀ s ∈ (p.stepCall A now c).1.handshakeSent, s ≤ now
        rw [(stepCall_handshake A p now hc).1]
        exact hp
      · cases c with
        | installSession keys initiator =>
          intro s hs
          cases hs
        | _ => cases hc
  · intro s hs
    cases hs

/-- **When a peer comes back by itself.**  Without a usable session, `poll` asks
for an initiation at some later time exactly as long as no handshake is in
flight or the next retry still falls into its attempt window.  After that it
never does again, whatever is called, until a session is installed. -/
theorem initiates_again_iff (A : Aead) (key : NodePublic) (start : ℕ) (ops : List (ℕ × Op))
    (ho : Timed.Ordered start ops) (now : ℕ) (hnow : Timed.finish start ops ≤ now)
    (hno : (Timed.run (step A) (new key) ops).hasSession now = false) :
    let p := Timed.run (step A) (new key) ops
    ((∃ t, now ≤ t ∧ p.poll t = .initiate) ↔ p.CanRetry now) ∧
      (¬ p.CanRetry now → ∀ more t, Timed.Ordered now more → installs more = [] →
        Timed.finish now more ≤ t → (Timed.run (step A) p more).poll t = .idle) := by
  intro p
  refine ⟨exists_initiate_iff hno, ?_⟩
  intro hdead more t hmore hnone ht
  simp only [CanRetry, not_forall, Nat.not_lt] at hdead
  obtain ⟨s₁, hsent, s₀, hstarted, hclosed⟩ := hdead
  have hgiven : GivenUp now p s₀ s₁ :=
    ⟨hstarted, hsent, (sent_le_finish A key ho hsent).trans hnow, hclosed⟩
  obtain ⟨s₁', hend⟩ := hgiven.run A hmore hnone
  exact hend.poll_idle ht

/-- A second after the first initiation there is still a retry to come. -/
theorem initiates_again_iff_retry :
    ∃ t, 1000 ≤ t ∧ (Timed.run (step checksumAead) (new ⟨0⟩) [(0, .handshakeSent)]).poll t
      = .initiate := by
  refine ((initiates_again_iff checksumAead ⟨0⟩ 0 [(0, .handshakeSent)] ⟨Nat.le_refl 0, trivial⟩
    1000 (by decide) (by decide)).1).mpr ?_
  intro sent hsent started hstarted
  obtain rfl := Option.some.inj hsent
  obtain rfl := Option.some.inj hstarted
  decide

/-- A minute and a half after it there is none, ever. -/
theorem unanswered_peer_stays_idle :
    let ops := [(0, Op.handshakeSent)]
    let p := Timed.run (step checksumAead) (new ⟨0⟩) ops
    Timed.Ordered 0 ops ∧ Timed.finish 0 ops ≤ 90000 ∧ p.hasSession 90000 = false ∧
      ¬ ∃ t, 90000 ≤ t ∧ p.poll t = .initiate := by
  intro ops p
  have hgiven : GivenUp 90000 p 0 0 := ⟨rfl, rfl, by decide, by decide⟩
  refine ⟨⟨Nat.le_refl 0, trivial⟩, by decide, by decide, ?_⟩
  rintro ⟨t, ht, hinit⟩
  rw [hgiven.poll_idle ht] at hinit
  cases hinit

end Lando.Peer
