/-
Lando/FwTunnel.lean

The firmware's splice of a tailnet socket and a LAN socket (`relay` in
`lando-fw/src/tunnel.rs`).

One loop serves both directions.  What it has read from the LAN and the socket
has not taken yet is the range `pending` of the buffer `held`; what the peer
sent lies in the receive buffer of the socket until a turn writes it to the
LAN.  Each is a queue (`Fifo.Step`), and the sum over a run is

    read from the LAN = handed to the socket ++ pending.

A turn that returns may leave bytes in the range.  It must where the socket is
gone, the LAN refuses a write or nothing has moved for fifteen minutes.  The
LAN's own end is only seen with an empty range.  The one exit that looks at
the peer alone is "client finished": whether the range is empty does not
enter into it, and a run that finds the client finished over held bytes ends
without handing them over (`relay_delivers_iff`).
-/
import Lando.Bytes
import Lando.Fifo

namespace Lando.Fw.Tunnel

open Bytes

/-- The length of the buffer for the peer's bytes. -/
def bufLen : ℕ := 1024

/-- The length of the buffer for the LAN's bytes. -/
def heldLen : ℕ := 2048

/-- `Duration::from_secs`, in microseconds. -/
def secs (n : ℕ) : ℕ := n * 1000000

/-- `IDLE_LIMIT`. -/
def idleLimit : ℕ := secs 900

/-- Why `relay` returned. -/
inductive Exit
  /-- "tunnel socket inactive". -/
  | inactive
  /-- "client finished". -/
  | clientFinished
  /-- "lan write failed". -/
  | lanWriteFailed
  /-- "lan silent". -/
  | lanSilent
  /-- "idle". -/
  | idle
  /-- "lan closed". -/
  | lanClosed
  /-- "lan error". -/
  | lanError
  deriving DecidableEq, Repr

/-- The exits that leave bytes behind: a socket is gone, or nothing has moved for
the whole limit. -/
def Exit.GivesUp (why : Exit) : Prop :=
  why = .inactive ∨ why = .lanWriteFailed ∨ why = .idle

/-- What the read of the LAN ends with, before its ten milliseconds are over
or then. -/
inductive LanRead
  | timeout
  | data (bytes : { bytes : List UInt8 // bytes.length ≤ heldLen })
  | failed

/-- What one poll of `flush` brings, and whether the socket is inactive or its
send queue empty then. -/
structure Poll where
  arrives : List UInt8
  done : Bool

/-- What the two sockets and the clock answer in one turn of the loop. -/
structure Turn where
  /-- What the poll brings into the receive buffer of the socket. -/
  arrives : List UInt8
  /-- `is_active` after the poll. -/
  active : Bool
  /-- How many bytes `recv_slice` gives at most, `0` where it cannot. -/
  gives : ℕ
  /-- `may_recv` after that. -/
  mayRecv : Bool
  /-- `is_active` after that. -/
  stillActive : Bool
  /-- Where the write to the LAN fails: the bytes written before. -/
  writeFails : Option ℕ
  /-- The clock before the write, after it, and after the read of the LAN. -/
  received : ℕ
  checked : ℕ
  read : ℕ
  /-- How many bytes `send_slice` takes at most, `0` where it cannot. -/
  takes : ℕ
  lan : LanRead
  /-- The polls of a `flush`, by the number still to come. -/
  polls : ℕ → Poll

/-- The variables of the loop, and the receive buffer of the socket. -/
structure State where
  held : List UInt8
  pendingStart : ℕ
  pendingEnd : ℕ
  lastActivity : ℕ
  heardFromLan : Bool
  rx : List UInt8

/-- What went through the two sockets. -/
structure Log where
  /-- From the peer into the receive buffer. -/
  arrived : List UInt8 := []
  toLan : List UInt8 := []
  fromLan : List UInt8 := []
  /-- Accepted by `send_slice`. -/
  toPeer : List UInt8 := []

/-- One log after the other. -/
def Log.append (l l' : Log) : Log :=
  ⟨l.arrived ++ l'.arrived, l.toLan ++ l'.toLan, l.fromLan ++ l'.fromLan, l.toPeer ++ l'.toPeer⟩

instance : Append Log := ⟨Log.append⟩

namespace State

/-- The bytes that the range `pending` denotes. -/
def pending (s : State) : List UInt8 := slice s.held s.pendingStart s.pendingEnd

/-- The loop is about to start. -/
def init (now : ℕ) : State := ⟨List.replicate heldLen 0, 0, 0, now, false, []⟩

/-- Another send of what is held. -/
def drain (s : State) (t : Turn) (log : Log) : State × Log × Option Exit :=
  let chunk := slice s.held s.pendingStart s.pendingEnd
  let sent := min t.takes chunk.length
  ({ s with pendingStart := s.pendingStart + sent }, { log with toPeer := chunk.take sent }, none)

/-- Polls until the tailnet socket has sent everything queued, or gives up. -/
def flush (t : Turn) (s : State) (log : Log) : ℕ → State × Log
  | 0 => (s, log)
  | k + 1 =>
      let poll := t.polls k
      let s := { s with rx := s.rx ++ poll.arrives }
      let log := { log with arrived := log.arrived ++ poll.arrives }
      if poll.done = true then (s, log) else flush t s log k

/-- A return behind a `flush`. -/
def flushed (s : State) (t : Turn) (log : Log) (why : Exit) : State × Log × Option Exit :=
  let (s, log) := flush t s log 50
  (s, log, some why)

/-- The read of the LAN, into the drained buffer. -/
def readLan (s : State) (t : Turn) (log : Log) : State × Log × Option Exit :=
  match t.lan with
  | .timeout => (s, log, none)
  | .failed => s.flushed t log .lanError
  | .data ⟨[], _⟩ => s.flushed t log .lanClosed
  | .data ⟨bytes, _⟩ =>
      ({ s with held := blit s.held 0 bytes, pendingStart := 0, pendingEnd := bytes.length
                lastActivity := t.read, heardFromLan := true },
        { log with fromLan := bytes }, none)

/-- The loop after the writes to the LAN. -/
def afterWrite (s : State) (t : Turn) (log : Log) : State × Log × Option Exit :=
  let waited := t.checked - s.lastActivity
  if s.heardFromLan = false ∧ secs 6 < waited then (s, log, some .lanSilent)
  else if idleLimit < waited then (s, log, some .idle)
  else if s.pendingStart < s.pendingEnd then s.drain t log
  else s.readLan t log

/-- What `recv_slice` gives in a turn. -/
def fromPeer (s : State) (t : Turn) : List UInt8 :=
  (s.rx ++ t.arrives).take (min t.gives bufLen)

/-- One turn of the loop. -/
def turn (s : State) (t : Turn) : State × Log × Option Exit :=
  let rx := s.rx ++ t.arrives
  if t.active = false then ({ s with rx := rx }, { arrived := t.arrives }, some .inactive)
  else
    let data := s.fromPeer t
    let s := { s with rx := rx.drop data.length }
    let peerDone := t.mayRecv = false ∧ data = []
    if t.stillActive = false then (s, { arrived := t.arrives }, some .inactive)
    else if peerDone then (s, { arrived := t.arrives }, some .clientFinished)
    else if data = [] then s.afterWrite t { arrived := t.arrives }
    else
      let s := { s with lastActivity := t.received }
      match t.writeFails with
      | some k => (s, { arrived := t.arrives, toLan := data.take k }, some .lanWriteFailed)
      | none => s.afterWrite t { arrived := t.arrives, toLan := data }

/-- The turns of the loop, until one returns. -/
def relay (s : State) : List Turn → State × Log × Option Exit
  | [] => (s, {}, none)
  | t :: ts =>
      match s.turn t with
      | (s', log, some why) => (s', log, some why)
      | (s', log, none) =>
          let (s'', log', why) := s'.relay ts
          (s'', log ++ log', why)

/-! ### One turn -/

/-- The range lies in the buffer, and it is empty as long as nothing was heard
from the LAN. -/
structure Inv (s : State) : Prop where
  start_le : s.pendingStart ≤ s.pendingEnd
  end_le : s.pendingEnd ≤ s.held.length
  length_held : s.held.length = heldLen
  silent : s.heardFromLan = false → s.pendingStart = s.pendingEnd

theorem inv_init (now : ℕ) : (init now).Inv :=
  ⟨Nat.le_refl 0, Nat.zero_le _, List.length_replicate, fun _ => rfl⟩

/-- The peer's bytes do not touch the range. -/
theorem Inv.received {s : State} (h : s.Inv) (rx : List UInt8) (now : ℕ) :
    Inv { s with rx := rx, lastActivity := now } := ⟨h.1, h.2, h.3, h.4⟩

theorem pending_eq_nil {s : State} (h : s.pendingStart = s.pendingEnd) : s.pending = [] := by
  rw [pending, slice, h, Nat.sub_self, List.take_zero]

theorem length_pending {s : State} (h : s.Inv) :
    s.pending.length = s.pendingEnd - s.pendingStart := by
  have := h.end_le
  rw [pending, slice, List.length_take, List.length_drop]
  omega

theorem pending_ne_nil {s : State} (h : s.Inv) (hlt : s.pendingStart < s.pendingEnd) :
    s.pending ≠ [] := by
  have hlen := length_pending h
  exact List.ne_nil_of_length_pos (by omega)

/-- What the rest of a turn does once the peer's bytes are dealt with: it moves
bytes of the LAN only, and it returns with an empty range unless it is idle. -/
structure Passes (s : State) (log : Log) (r : State × Log × Option Exit) : Prop where
  inv : r.1.Inv
  down : Fifo.Step s.pending r.2.1.fromLan r.2.1.toPeer r.1.pending
  up : ∃ more, r.1.rx = s.rx ++ more ∧ r.2.1.arrived = log.arrived ++ more ∧
    r.2.1.toLan = log.toLan
  exit : ∀ why, r.2.2 = some why →
    why = .idle ∨ (why ≠ .clientFinished ∧ r.1.pending = [])

theorem unmoved (s : State) (log : Log) :
    ∃ more, s.rx = s.rx ++ more ∧ log.arrived = log.arrived ++ more ∧ log.toLan = log.toLan :=
  ⟨[], (List.append_nil _).symm, (List.append_nil _).symm, rfl⟩

theorem drain_passes {s : State} (h : s.Inv) (t : Turn) {log : Log} (hlog : log.fromLan = []) :
    Passes s log (s.drain t log) := by
  have hlen := length_pending h
  have hsent : min t.takes s.pending.length ≤ s.pendingEnd - s.pendingStart := by omega
  have hrest : (s.drain t log).1.pending = s.pending.drop (min t.takes s.pending.length) := by
    show slice s.held (s.pendingStart + min t.takes s.pending.length) s.pendingEnd = _
    rw [pending, slice, slice, List.drop_take, List.drop_drop, Nat.sub_add_eq]
  have hle := h.start_le
  constructor
  case inv =>
    refine ⟨?_, h.end_le, h.length_held, fun hsilent => ?_⟩
    · show s.pendingStart + min t.takes s.pending.length ≤ s.pendingEnd
      omega
    · show s.pendingStart + min t.takes s.pending.length = s.pendingEnd
      have := h.silent hsilent
      omega
  case down =>
    rw [hrest]
    show Fifo.Step s.pending log.fromLan (s.pending.take (min t.takes s.pending.length)) _
    rw [hlog]
    exact Fifo.Step.leave s.pending _
  case up => exact unmoved s log
  case exit =>
    intro why hwhy
    cases hwhy

/-- A flush only waits: it touches neither the range nor what was handed over. -/
theorem flush_spec (t : Turn) (s : State) (log : Log) (k : ℕ) :
    ∃ more, flush t s log k =
      ({ s with rx := s.rx ++ more }, { log with arrived := log.arrived ++ more }) := by
  induction k generalizing s log with
  | zero => exact ⟨[], by simp only [flush, List.append_nil]⟩
  | succ k ih =>
    rw [flush]
    split_ifs with hdone
    · exact ⟨_, rfl⟩
    · obtain ⟨more, hmore⟩ := ih { s with rx := s.rx ++ (t.polls k).arrives }
        { log with arrived := log.arrived ++ (t.polls k).arrives }
      exact ⟨(t.polls k).arrives ++ more, by rw [hmore]; simp only [List.append_assoc]⟩

theorem flushed_passes {s : State} (h : s.Inv) (hempty : s.pendingStart = s.pendingEnd) (t : Turn)
    {log : Log} (hfrom : log.fromLan = []) (hto : log.toPeer = []) {why : Exit}
    (hwhy : why ≠ .clientFinished) : Passes s log (s.flushed t log why) := by
  obtain ⟨more, hmore⟩ := flush_spec t s log 50
  rw [flushed, hmore]
  constructor
  case inv => exact ⟨h.1, h.2, h.3, h.4⟩
  case down =>
    show Fifo.Step s.pending log.fromLan log.toPeer s.pending
    rw [hfrom, hto]
    exact Fifo.Step.idle s.pending
  case up => exact ⟨more, rfl, rfl, rfl⟩
  case exit =>
    intro why' heq
    obtain rfl := Option.some.inj heq
    exact .inr ⟨hwhy, pending_eq_nil hempty⟩

theorem readLan_passes {s : State} (h : s.Inv) (hempty : s.pendingStart = s.pendingEnd) (t : Turn)
    {log : Log} (hfrom : log.fromLan = []) (hto : log.toPeer = []) :
    Passes s log (s.readLan t log) := by
  have hidle : Fifo.Step s.pending log.fromLan log.toPeer s.pending := by
    rw [hfrom, hto]
    exact Fifo.Step.idle s.pending
  rw [readLan]
  split
  case h_1 => exact ⟨h, hidle, unmoved s log, fun why hwhy => by cases hwhy⟩
  case h_2 => exact flushed_passes h hempty t hfrom hto (by decide)
  case h_3 => exact flushed_passes h hempty t hfrom hto (by decide)
  case h_4 bytes hbytes _ _ =>
    have hroom : 0 + bytes.length ≤ s.held.length := by
      rw [h.length_held, Nat.zero_add]
      exact hbytes
    have hread : slice (blit s.held 0 bytes) 0 bytes.length = bytes :=
      slice_blit_self (Nat.zero_add _).symm (by omega)
    constructor
    case inv =>
      refine ⟨Nat.zero_le _, ?_, ?_, fun hsilent => by cases hsilent⟩
      · rw [length_blit hroom, ← Nat.zero_add bytes.length]
        exact hroom
      · rw [length_blit hroom, h.length_held]
    case down =>
      show Fifo.Step s.pending bytes log.toPeer (slice (blit s.held 0 bytes) 0 bytes.length)
      rw [pending_eq_nil hempty, hto, hread]
      exact Fifo.Step.enter [] bytes
    case up => exact unmoved s log
    case exit =>
      intro why hwhy
      cases hwhy

theorem afterWrite_passes {s : State} (h : s.Inv) (t : Turn) {log : Log}
    (hfrom : log.fromLan = []) (hto : log.toPeer = []) : Passes s log (s.afterWrite t log) := by
  have hidle : Fifo.Step s.pending log.fromLan log.toPeer s.pending := by
    rw [hfrom, hto]
    exact Fifo.Step.idle s.pending
  have hle := h.start_le
  rw [afterWrite]
  split_ifs with hsilent hlimit hpending
  · -- nothing was read, so nothing is held
    refine ⟨h, hidle, unmoved s log, fun why hwhy => .inr ⟨?_, ?_⟩⟩
    · cases hwhy
      decide
    · exact pending_eq_nil (h.silent hsilent.1)
  · exact ⟨h, hidle, unmoved s log, fun why hwhy => .inl (Option.some.inj hwhy).symm⟩
  · exact drain_passes h t hfrom
  · exact readLan_passes h (by omega) t hfrom hto

/-- The turn finds that the client has sent its last byte and nothing of it is
left. -/
def ClientFinished (s : State) (t : Turn) : Prop :=
  t.active = true ∧ t.stillActive = true ∧ t.mayRecv = false ∧ s.fromPeer t = []

/-- What a turn does, whatever it returns with. -/
structure Turned (s : State) (t : Turn) (r : State × Log × Option Exit) : Prop where
  inv : r.1.Inv
  down : Fifo.Step s.pending r.2.1.fromLan r.2.1.toPeer r.1.pending
  up : r.2.2 = none → Fifo.Step s.rx r.2.1.arrived r.2.1.toLan r.1.rx
  up_end : ∃ rx, Fifo.Step s.rx r.2.1.arrived r.2.1.toLan rx
  finished : s.ClientFinished t → r.2.2 = some .clientFinished ∧ r.1.pending = s.pending
  exit : ∀ why, r.2.2 = some why → ¬ s.ClientFinished t → why.GivesUp ∨ r.1.pending = []

/-- The peer's bytes have been written, and the turn goes on. -/
theorem turned_of_passes {s s' : State} {t : Turn} {data : List UInt8}
    {r : State × Log × Option Exit} (h : Passes s' { arrived := t.arrives, toLan := data } r)
    (hdata : data = s.fromPeer t) (hrx : s'.rx = (s.rx ++ t.arrives).drop data.length)
    (hpending : s'.pending = s.pending) (hnot : ¬ s.ClientFinished t) : s.Turned t r := by
  have hfront : data <+: s.rx ++ t.arrives := hdata ▸ List.take_prefix _ _
  have hup : Fifo.Step s.rx r.2.1.arrived r.2.1.toLan r.1.rx := by
    obtain ⟨more, hmore, harrived, hlan⟩ := h.up
    have := (Fifo.Step.leave_front hfront).trans (Fifo.Step.enter _ more)
    rw [harrived, hlan, hmore, hrx]
    rwa [List.append_nil] at this
  have hdown := h.down
  rw [hpending] at hdown
  refine ⟨h.inv, hdown, fun _ => hup, ⟨_, hup⟩, fun hfin => absurd hfin hnot, ?_⟩
  intro why hwhy _
  rcases h.exit why hwhy with rfl | ⟨-, hempty⟩
  · exact .inl (.inr (.inr rfl))
  · exact .inr hempty

theorem turn_spec {s : State} (h : s.Inv) (t : Turn) : s.Turned t (s.turn t) := by
  have hfront : s.fromPeer t <+: s.rx ++ t.arrives := List.take_prefix _ _
  have hidle : Fifo.Step s.pending [] [] s.pending := Fifo.Step.idle s.pending
  have harrived : ∃ rx, Fifo.Step s.rx t.arrives [] rx := ⟨_, Fifo.Step.enter s.rx t.arrives⟩
  simp only [turn]
  split_ifs with hinactive hstill hdone hnone
  · -- inactive after the poll
    refine ⟨h.received _ s.lastActivity, hidle, fun hnil => absurd hnil (Option.some_ne_none _), harrived, ?_, ?_⟩
    · rintro ⟨hactive, -⟩
      exact absurd (hactive.symm.trans hinactive) (by decide)
    · exact fun why hwhy _ => .inl (.inl (Option.some.inj hwhy).symm)
  · -- inactive after the receive
    refine ⟨h.received _ s.lastActivity, hidle, fun hnil => absurd hnil (Option.some_ne_none _), harrived, ?_, ?_⟩
    · rintro ⟨-, hactive, -⟩
      exact absurd (hactive.symm.trans hstill) (by decide)
    · exact fun why hwhy _ => .inl (.inl (Option.some.inj hwhy).symm)
  · -- the client finished
    have hfin : s.ClientFinished t :=
      ⟨Bool.eq_true_of_not_eq_false hinactive, Bool.eq_true_of_not_eq_false hstill, hdone⟩
    exact ⟨h.received _ s.lastActivity, hidle, fun hnil => absurd hnil (Option.some_ne_none _), harrived,
      fun _ => ⟨rfl, rfl⟩, fun why _ hnot => absurd hfin hnot⟩
  · -- nothing received
    have hpass := afterWrite_passes (h.received ((s.rx ++ t.arrives).drop (s.fromPeer t).length)
      s.lastActivity) t (rfl : ({ arrived := t.arrives } : Log).fromLan = []) rfl
    refine turned_of_passes hpass hnone.symm ?_ rfl (fun hfin => hdone hfin.2.2)
    show (s.rx ++ t.arrives).drop (s.fromPeer t).length = _
    rw [hnone]
  · have hnot : ¬ s.ClientFinished t := fun hfin => hnone hfin.2.2.2
    split
    case h_1 k _ =>
      -- the write failed behind `k` bytes
      have hpre : (s.fromPeer t).take k <+: s.rx ++ t.arrives := (List.take_prefix _ _).trans hfront
      exact ⟨h.received _ t.received, hidle, fun hnil => absurd hnil (Option.some_ne_none _),
        ⟨_, Fifo.Step.leave_front hpre⟩,
        fun hfin => absurd hfin hnot,
        fun why hwhy _ => .inl (.inr (.inl (Option.some.inj hwhy).symm))⟩
    case h_2 =>
      have hpass := afterWrite_passes (h.received ((s.rx ++ t.arrives).drop (s.fromPeer t).length)
        t.received) t (rfl : ({ arrived := t.arrives, toLan := s.fromPeer t } : Log).fromLan = []) rfl
      exact turned_of_passes hpass rfl rfl rfl hnot

/-! ### Runs -/

theorem relay_cons_of_some {s : State} {t : Turn} {why : Exit} (ts : List Turn)
    (h : (s.turn t).2.2 = some why) : s.relay (t :: ts) = s.turn t := by
  rw [relay]
  split
  · next heq => exact heq.symm
  · next heq => rw [heq] at h; cases h

theorem relay_cons_of_none {s : State} {t : Turn} (ts : List Turn) (h : (s.turn t).2.2 = none) :
    s.relay (t :: ts) = (((s.turn t).1.relay ts).1,
      (s.turn t).2.1 ++ ((s.turn t).1.relay ts).2.1, ((s.turn t).1.relay ts).2.2) := by
  rw [relay]
  split
  · next heq => rw [heq] at h; cases h
  · next heq => rw [heq]

/-- **No run loses its place**: in both directions the bytes that went out are
the ones that came in, up to what is held. -/
theorem relay_spec {s : State} (h : s.Inv) (ts : List Turn) :
    Fifo.Step s.pending (s.relay ts).2.1.fromLan (s.relay ts).2.1.toPeer (s.relay ts).1.pending ∧
      ((s.relay ts).2.2 = none →
        Fifo.Step s.rx (s.relay ts).2.1.arrived (s.relay ts).2.1.toLan (s.relay ts).1.rx) ∧
      ∃ rx, Fifo.Step s.rx (s.relay ts).2.1.arrived (s.relay ts).2.1.toLan rx := by
  induction ts generalizing s with
  | nil => exact ⟨Fifo.Step.idle _, fun _ => Fifo.Step.idle _, _, Fifo.Step.idle _⟩
  | cons t ts ih =>
    have hturn := turn_spec h t
    cases hexit : (s.turn t).2.2 with
    | some why =>
      rw [relay_cons_of_some ts hexit]
      exact ⟨hturn.down, hturn.up, hturn.up_end⟩
    | none =>
      obtain ⟨hdown, hup, rx, hend⟩ := ih hturn.inv
      have hfirst := hturn.up hexit
      rw [relay_cons_of_none ts hexit]
      exact ⟨hturn.down.trans hdown, fun hnone => hfirst.trans (hup hnone), rx,
        hfirst.trans hend⟩

/-- Some turn of the run finds the client finished while bytes of the LAN are
still held. -/
def CutOff : State → List Turn → Prop
  | _, [] => False
  | s, t :: ts =>
      (s.ClientFinished t ∧ s.pendingStart < s.pendingEnd) ∨
        ((s.turn t).2.2 = none ∧ CutOff (s.turn t).1 ts)

theorem relay_drained_iff {s : State} (h : s.Inv) (ts : List Turn) :
    (∀ why, (s.relay ts).2.2 = some why → why.GivesUp ∨ (s.relay ts).1.pending = []) ↔
      ¬ s.CutOff ts := by
  induction ts generalizing s with
  | nil => exact iff_of_true (fun why hwhy => by cases hwhy) id
  | cons t ts ih =>
    have hturn := turn_spec h t
    rw [CutOff]
    by_cases hfin : s.ClientFinished t
    · -- the run ends here, with what was held before
      obtain ⟨hexit, hpending⟩ := hturn.finished hfin
      rw [relay_cons_of_some ts hexit, hexit, hpending]
      have hkeeps : ¬ Exit.GivesUp .clientFinished := by
        rintro (h | h | h) <;> cases h
      constructor
      · rintro hdrained (⟨-, hlt⟩ | ⟨hnone, -⟩)
        · rcases hdrained _ rfl with hgives | hempty
          · exact hkeeps hgives
          · exact pending_ne_nil h hlt hempty
        · cases hnone
      · intro hnot why _
        have hge : ¬ s.pendingStart < s.pendingEnd := fun hlt => hnot (.inl ⟨hfin, hlt⟩)
        have hle := h.start_le
        exact .inr (pending_eq_nil (by omega))
    · cases hexit : (s.turn t).2.2 with
      | some why =>
        rw [relay_cons_of_some ts hexit]
        refine iff_of_true (fun why' hwhy => hturn.exit why' hwhy hfin) ?_
        rintro (⟨hfin', -⟩ | ⟨hnone, -⟩)
        · exact hfin hfin'
        · cases hnone
      | none =>
        rw [relay_cons_of_none ts hexit]
        refine (ih hturn.inv).trans (not_congr ?_)
        exact ⟨fun hcut => .inr ⟨rfl, hcut⟩, fun hcut => hcut.elim (fun hl => absurd hl.1 hfin) (·.2)⟩

/-- What a splice is for: all along its run both sides get the bytes of the
other, in order, and as long as it goes on the LAN gets all that the socket does
not hold; when it returns of its own accord the tailnet socket has all that was
read from the LAN. -/
def Delivers (s : State) (schedule : List Turn) : Prop :=
  (∀ turns, turns <+: schedule →
    (s.relay turns).2.1.toPeer <+: (s.relay turns).2.1.fromLan ∧
      (s.relay turns).2.1.toLan <+: (s.relay turns).2.1.arrived ∧
      ((s.relay turns).2.2 = none →
        (s.relay turns).2.1.arrived = (s.relay turns).2.1.toLan ++ (s.relay turns).1.rx)) ∧
    ∀ why, (s.relay schedule).2.2 = some why →
      why.GivesUp ∨ (s.relay schedule).2.1.toPeer = (s.relay schedule).2.1.fromLan

/-- **The order is always kept**, and all is handed over unless the client is
found finished while bytes are held. -/
theorem relay_delivers_iff (now : ℕ) (schedule : List Turn) :
    (init now).Delivers schedule ↔ ¬ (init now).CutOff schedule := by
  have hstart : (init now).pending = [] := pending_eq_nil rfl
  have hspec := fun turns => relay_spec (inv_init now) turns
  simp only [hstart] at hspec
  have horder : ∀ turns, turns <+: schedule →
      ((init now).relay turns).2.1.toPeer <+: ((init now).relay turns).2.1.fromLan ∧
        ((init now).relay turns).2.1.toLan <+: ((init now).relay turns).2.1.arrived ∧
        (((init now).relay turns).2.2 = none → ((init now).relay turns).2.1.arrived =
          ((init now).relay turns).2.1.toLan ++ ((init now).relay turns).1.rx) := by
    intro turns _
    obtain ⟨hdown, hgoing, rx, hup⟩ := hspec turns
    exact ⟨hdown.isPrefix, hup.isPrefix, hgoing⟩
  have hall := (hspec schedule).1.eq_iff
  rw [Delivers, and_iff_right horder, ← relay_drained_iff (inv_init now) schedule]
  simp only [hall]

/-- Two bytes of the LAN's answer, of which the socket takes one before the
client ends its side. -/
theorem relay_truncates : ¬ ∀ now schedule, (init now).Delivers schedule := by
  intro hall
  let answer : Turn :=
    { arrives := [71], active := true, gives := 1024, mayRecv := true, stillActive := true
      writeFails := none, received := 1, checked := 1, read := 2, takes := 0
      lan := .data ⟨[72, 105], by decide⟩, polls := fun _ => ⟨[], true⟩ }
  let partly : Turn :=
    { answer with arrives := [], takes := 1 }
  let fin : Turn :=
    { answer with arrives := [], mayRecv := false }
  rcases (hall 0 [answer, partly, fin]).2 .clientFinished (by decide +kernel) with hgives | heq
  · rcases hgives with h | h | h <;> cases h
  · revert heq
    decide +kernel

end State

end Lando.Fw.Tunnel
