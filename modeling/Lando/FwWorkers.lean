/-
Lando/FwWorkers.lean

The eight workers of the firmware's tunnel and the sockets they share
(`Tunnel`, `worker` and `serve` in `lando-fw/src/tunnel.rs`).

Each worker claims a socket with a connection, splices it onto the LAN and
returns it to service; between two of its turns the other workers, the tailnet
and the supervisor that restarts the session have theirs.  `claimed` is the only
thing that keeps the workers apart.  It is a book of leases (`Leases`): no socket
has two workers, so a worker's connection is its own `relay`, byte for byte
(`workers_exclusive`).

A restart drops the workers and leaves the marks: the sockets they held are
never claimed again, nor is one whose connection closed before a worker came
(`out_of_service_for_good`).
-/
import Lando.Leases
import Lando.FwTunnel

namespace Lando.Fw.Tunnel

/-! ### The stack under the tunnel -/

/-- `PORTS`. -/
def ports : List UInt16 :=
  [80, 80, 80, 80, 80, 84, 84, 84, 84, 8080, 8080, 8009, 8009, 8008, 443, 443,
    37193, 37193, 37193]

/-- An index into `listeners` and `claimed`. -/
abbrev Slot := Fin ports.length

/-- The workers that `serve` joins. -/
abbrev Worker := Fin 8

/-- An address and a port. -/
structure Endpoint where
  addr : Vector UInt8 4
  port : UInt16
  deriving DecidableEq

/-- The TCP socket that the tunnel is built on. -/
structure Tcp (σ : Type) where
  fresh : σ
  isOpen : σ → Bool
  isListening : σ → Bool
  isActive : σ → Bool
  mayRecv : σ → Bool
  maySend : σ → Bool
  localEndpoint : σ → Option Endpoint
  abort : σ → σ
  close : σ → σ
  listen : σ → UInt16 → Option σ

/-- What its documentation says: a socket is closed until it listens, a closed
one listens on any port but `0`, and it has no local endpoint. -/
structure Tcp.Lawful {σ : Type} (T : Tcp σ) : Prop where
  fresh_closed : T.isOpen T.fresh = false
  listen_closed : ∀ {s port}, T.isOpen s = false → port ≠ 0 → (T.listen s port).isSome
  listen_open : ∀ {s port s'}, T.listen s port = some s' → T.isOpen s' = true
  endpoint_open : ∀ {s}, T.isOpen s = false → T.localEndpoint s = none

variable {σ : Type} (T : Tcp σ)

/-- A turn of the interface: what becomes of each socket, and what is put into
its receive buffer.  It opens no socket that is closed. -/
structure Poll.Interface where
  turn : Slot → σ → σ
  arrives : Slot → List UInt8
  closed : ∀ i s, T.isOpen s = false → T.isOpen (turn i s) = false

/-- `recv_slice` and `send_slice` on a socket. -/
structure Use where
  use : σ → σ
  closed : ∀ s, T.isOpen s = false → T.isOpen (use s) = false

/-! ### The sockets -/

/-- The sockets with their receive buffers, and which are claimed.  `stream` is
there for the proofs: what was put into the buffer since the socket is in
service. -/
structure Pool (σ : Type) where
  sockets : Slot → σ
  rx : Slot → List UInt8
  stream : Slot → List UInt8
  claimed : Slot → Bool
  dropped : UInt32

namespace Pool

/-- All sockets listen. -/
def new : Pool σ where
  sockets i := (T.listen T.fresh (ports.get i)).getD T.fresh
  rx _ := []
  stream _ := []
  claimed _ := false
  dropped := 0

variable {T}

/-- A poll of the interface: every socket takes its turn and what arrives for it. -/
def poll (p : Pool σ) (turn : Poll.Interface T) : Pool σ :=
  { p with
    sockets := fun i => turn.turn i (p.sockets i)
    rx := fun i => p.rx i ++ turn.arrives i
    stream := fun i => p.stream i ++ turn.arrives i }

/-- Changes one socket. -/
def onSocket (p : Pool σ) (i : Slot) (f : σ → σ) : Pool σ :=
  { p with sockets := Function.update p.sockets i (f (p.sockets i)) }

variable (T)

/-- The first socket that is not claimed and has a connection, with the address
the peer was trying to reach. -/
def claim (p : Pool σ) : Option (Slot × Endpoint) :=
  (List.finRange ports.length).findSome? fun i =>
    if p.claimed i then none
    else if !T.mayRecv (p.sockets i) && !T.maySend (p.sockets i) then none
    else (T.localEndpoint (p.sockets i)).map fun e => (i, e)

variable {T}

/-- Returns the socket to service, and whether it listens again. -/
def relisten (p : Pool σ) (i : Slot) (port : UInt16) (turn turn' : Poll.Interface T) :
    Pool σ × Bool :=
  let p := (p.onSocket i T.abort).poll turn
  let p := if T.isOpen (p.sockets i) then (p.onSocket i T.close).poll turn' else p
  match T.listen (p.sockets i) port with
  | some s =>
      ({ p.onSocket i fun _ => s with
          rx := Function.update p.rx i []
          stream := Function.update p.stream i []
          claimed := Function.update p.claimed i false }, true)
  | none =>
      ({ p with
          stream := Function.update p.stream i (p.rx i)
          claimed := Function.update p.claimed i false }, false)

variable (T)

/-- Counts listeners by state: claimed, listening, active, and what was
dropped. -/
def stats (p : Pool σ) : ℕ × ℕ × ℕ × UInt32 :=
  ((Finset.univ.filter fun i => p.claimed i = true).card,
    (Finset.univ.filter fun i => T.isListening (p.sockets i) = true).card,
    (Finset.univ.filter fun i => T.isActive (p.sockets i) = true).card, p.dropped)

end Pool

/-! ### The workers -/

/-- Where a worker's connection stands. -/
inductive Phase
  | dialing
  | relaying (loop : State)
  | ended

/-- A connection in the hands of a worker: the socket, where it is dialled to,
how far `splice` is, and what went through. -/
structure Served where
  slot : Slot
  dst : Endpoint
  phase : Phase
  log : Log

/-- The sockets and what every worker is at. -/
structure Workers (σ : Type) where
  pool : Pool σ
  workers : Worker → Option Served

/-- What happens, one lock of the tunnel at a time. -/
inductive Event
  /-- A worker without a connection looks for one. -/
  | claim (k : Worker) (turn : Poll.Interface T)
  /-- The dial ends, and the loop starts unless it failed. -/
  | dialed (k : Worker) (loop : Option ℕ)
  /-- A turn of the loop of `relay`. -/
  | turn (k : Worker) (turn : Poll.Interface T) (use : Use T) (t : Turn)
  /-- The connection is over. -/
  | relisten (k : Worker) (turn turn' : Poll.Interface T)
  /-- Something else polls: a packet of a peer, the relay, mDNS. -/
  | poll (turn : Poll.Interface T) (drops : Bool)
  /-- The session ends, with everything that `select4` runs, and the next one
  serves again. -/
  | restart

namespace Workers

/-- Fresh sockets, and no worker has claimed one. -/
def start : Workers σ := ⟨Pool.new T, fun _ => none⟩

variable {T}

/-- The worker now serves `s`. -/
def serving (w : Workers σ) (k : Worker) (s : Option Served) : Worker → Option Served :=
  Function.update w.workers k s

/-- One event; it is none where the worker is at something else. -/
def step (w : Workers σ) : Event T → Workers σ
  | .claim k turn =>
      match w.workers k with
      | some _ => w
      | none =>
          let p := w.pool.poll turn
          match p.claim T with
          | none => { w with pool := p }
          | some (i, dst) =>
              { pool := { p with claimed := Function.update p.claimed i true }
                workers := w.serving k (some ⟨i, dst, .dialing, {}⟩) }
  | .dialed k loop =>
      match w.workers k with
      | some ⟨i, dst, .dialing, log⟩ =>
          let phase := match loop with
            | some now => .relaying (State.init now)
            | none => .ended
          { w with workers := w.serving k (some ⟨i, dst, phase, log⟩) }
      | _ => w
  | .turn k turn use t =>
      match w.workers k with
      | some ⟨i, dst, .relaying loop, log⟩ =>
          let r := { loop with rx := w.pool.rx i }.turn { t with arrives := turn.arrives i }
          let p := (w.pool.poll turn).onSocket i use.use
          let phase := if r.2.2.isSome then .ended else .relaying r.1
          { pool :=
              { p with
                rx := Function.update p.rx i r.1.rx
                stream := Function.update p.stream i (w.pool.stream i ++ r.2.1.arrived) }
            workers := w.serving k (some ⟨i, dst, phase, log ++ r.2.1⟩) }
      | _ => w
  | .relisten k turn turn' =>
      match w.workers k with
      | some ⟨i, dst, .ended, _⟩ =>
          { pool := (w.pool.relisten i dst.port turn turn').1
            workers := w.serving k none }
      | _ => w
  | .poll turn drops =>
      let p := w.pool.poll turn
      { w with pool := { p with dropped := if drops then p.dropped + 1 else p.dropped } }
  | .restart => { w with workers := fun _ => none }

/-- The workers after a run. -/
def run (w : Workers σ) (evs : List (Event T)) : Workers σ := evs.foldl step w

/-- The book of leases. -/
def book (w : Workers σ) : Leases.Book Slot Worker :=
  ⟨w.pool.claimed, fun k => (w.workers k).map Served.slot⟩

/-- The sockets in some worker's hands, when the session ends. -/
def strands (w : Workers σ) : Event T → Finset Slot
  | .restart => w.book.held
  | _ => ∅

/-- The sockets that were in some worker's hands when a session ended. -/
def stranded (w : Workers σ) : List (Event T) → Finset Slot
  | [] => ∅
  | ev :: evs => w.strands ev ∪ (w.step ev).stranded evs

/-! ### The sockets are lent -/

variable {w : Workers σ} {lost : Finset Slot} {k : Worker} {i : Slot}

/-- A claim is of the first socket that may be claimed. -/
theorem claim_some {p : Pool σ} {dst : Endpoint} (h : p.claim T = some (i, dst)) :
    p.claimed i = false ∧ T.localEndpoint (p.sockets i) = some dst := by
  obtain ⟨j, -, hj⟩ := List.exists_of_findSome?_eq_some h
  split_ifs at hj with hc hr
  obtain ⟨e, he, heq⟩ := Option.map_eq_some_iff.mp hj
  obtain ⟨rfl, rfl⟩ := Prod.mk.inj heq
  exact ⟨Bool.eq_false_of_not_eq_true hc, he⟩

/-- What an event does. -/
inductive Does (w : Workers σ) : Event T → Workers σ → Prop
  | nothing {ev : Event T} (h : w.strands ev = ∅) : Does w ev w
  | poll {ev : Event T} (h : w.strands ev = ∅) (turn : Poll.Interface T) (dropped : UInt32) :
      Does w ev { w with pool := { w.pool.poll turn with dropped := dropped } }
  | claim {k : Worker} {i : Slot} {dst : Endpoint} (turn : Poll.Interface T)
      (hk : w.workers k = none) (hfree : w.pool.claimed i = false)
      (hdst : T.localEndpoint ((w.pool.poll turn).sockets i) = some dst) :
      Does w (.claim k turn)
        { pool := { w.pool.poll turn with claimed := Function.update w.pool.claimed i true }
          workers := w.serving k (some ⟨i, dst, .dialing, {}⟩) }
  | dialed {k : Worker} {i : Slot} {dst : Endpoint} {log : Log} (loop : Option ℕ)
      (hk : w.workers k = some ⟨i, dst, .dialing, log⟩) :
      Does w (.dialed k loop)
        { w with
          workers := w.serving k
            (some ⟨i, dst, (loop.map fun now => .relaying (State.init now)).getD .ended, log⟩) }
  | turn {k : Worker} {i : Slot} {dst : Endpoint} {loop : State} {log : Log}
      (turn : Poll.Interface T) (use : Use T) (t : Turn) {r : State × Log × Option Exit}
      (hk : w.workers k = some ⟨i, dst, .relaying loop, log⟩)
      (hr : r = { loop with rx := w.pool.rx i }.turn { t with arrives := turn.arrives i }) :
      Does w (.turn k turn use t)
        { pool :=
            { sockets := ((w.pool.poll turn).onSocket i use.use).sockets
              rx := Function.update (w.pool.poll turn).rx i r.1.rx
              stream := Function.update (w.pool.poll turn).stream i
                (w.pool.stream i ++ r.2.1.arrived)
              claimed := w.pool.claimed
              dropped := w.pool.dropped }
          workers := w.serving k
            (some ⟨i, dst, if r.2.2.isSome then .ended else .relaying r.1, log ++ r.2.1⟩) }
  | relisten {k : Worker} {i : Slot} {dst : Endpoint} {log : Log}
      (turn turn' : Poll.Interface T) (hk : w.workers k = some ⟨i, dst, .ended, log⟩) :
      Does w (.relisten k turn turn')
        { pool := (w.pool.relisten i dst.port turn turn').1
          workers := w.serving k none }
  | restart : Does w .restart { w with workers := fun _ => none }

theorem step_does (w : Workers σ) (ev : Event T) : w.Does ev (w.step ev) := by
  cases ev with
  | claim k turn =>
    rcases hw : w.workers k with - | s
    · rcases hc : (w.pool.poll turn).claim T with - | ⟨i, dst⟩
      · simp only [step, hw, hc]
        exact .poll rfl turn w.pool.dropped
      · obtain ⟨hfree, hdst⟩ := claim_some hc
        simp only [step, hw, hc]
        exact .claim turn hw hfree hdst
    · simp only [step, hw]
      exact .nothing rfl
  | dialed k loop =>
    rcases hw : w.workers k with - | ⟨i, dst, - | _ | -, log⟩
    · simp only [step, hw]
      exact .nothing rfl
    · have h := Does.dialed (T := T) loop hw
      simp only [step, hw]
      rcases loop with - | now
      · exact h
      · exact h
    · simp only [step, hw]
      exact .nothing rfl
    · simp only [step, hw]
      exact .nothing rfl
  | turn k turn use t =>
    rcases hw : w.workers k with - | ⟨i, dst, - | loop | -, log⟩
    · simp only [step, hw]
      exact .nothing rfl
    · simp only [step, hw]
      exact .nothing rfl
    · simp only [step, hw]
      exact .turn turn use t hw rfl
    · simp only [step, hw]
      exact .nothing rfl
  | relisten k turn turn' =>
    rcases hw : w.workers k with - | ⟨i, dst, - | loop | -, log⟩
    · simp only [step, hw]
      exact .nothing rfl
    · simp only [step, hw]
      exact .nothing rfl
    · simp only [step, hw]
      exact .nothing rfl
    · simp only [step, hw]
      exact .relisten turn turn' hw
  | poll turn drops => exact .poll rfl turn _
  | restart => exact .restart

theorem book_holds_serving (w : Workers σ) (k : Worker) (s : Option Served) :
    (fun k' => (w.serving k s k').map Served.slot) =
      Function.update w.book.holds k (s.map Served.slot) := by
  funext k'
  by_cases hk : k' = k
  · subst hk
    rw [serving, Function.update_self, Function.update_self]
  · rw [serving, Function.update_of_ne hk, Function.update_of_ne hk]
    rfl

theorem relisten_claimed (p : Pool σ) (port : UInt16) (turn turn' : Poll.Interface T) :
    (p.relisten i port turn turn').1.claimed = Function.update p.claimed i false := by
  unfold Pool.relisten
  simp only
  split_ifs
  · split
    · rfl
    · rfl
  · split
    · rfl
    · rfl

theorem holds_eq {s : Served} (hk : w.workers k = some s) : w.book.holds k = some s.slot := by
  show (w.workers k).map Served.slot = some s.slot
  rw [hk]
  rfl

/-- A worker that goes on with its socket. -/
theorem sound_serving (h : Leases.Sound w.book lost) {p : Pool σ} {s s' : Served}
    (hp : p.claimed = w.pool.claimed) (hk : w.workers k = some s) (hslot : s'.slot = s.slot) :
    Leases.Sound (⟨p, w.serving k (some s')⟩ : Workers σ).book lost := by
  rw [book, book_holds_serving, hp, Option.map_some, hslot, ← holds_eq hk,
    Function.update_eq_self]
  exact h

/-- Every event keeps the book. -/
theorem sound_step (h : Leases.Sound w.book lost) (ev : Event T) :
    Leases.Sound (w.step ev).book (lost ∪ w.strands ev) := by
  have hdoes := w.step_does ev
  generalize w.step ev = w' at hdoes ⊢
  cases hdoes with
  | nothing hs =>
    rw [hs, Finset.union_empty]
    exact h
  | poll hs turn dropped =>
    rw [hs, Finset.union_empty]
    exact h
  | claim turn hk hfree hdst =>
    rename_i k i dst
    have hidle : w.book.holds k = none := by
      show (w.workers k).map Served.slot = none
      rw [hk]
      rfl
    have htake := h.take hidle (i := i) hfree
    show Leases.Sound _ (lost ∪ ∅)
    rw [Finset.union_empty, book, book_holds_serving]
    exact htake
  | dialed loop hk =>
    show Leases.Sound _ (lost ∪ ∅)
    rw [Finset.union_empty]
    exact sound_serving h rfl hk rfl
  | turn turn use t hk hr =>
    show Leases.Sound _ (lost ∪ ∅)
    rw [Finset.union_empty]
    exact sound_serving h rfl hk rfl
  | relisten turn turn' hk =>
    have hback := h.giveBack (holds_eq hk)
    show Leases.Sound _ (lost ∪ ∅)
    rw [Finset.union_empty, book, book_holds_serving, relisten_claimed]
    exact hback
  | restart => exact h.forget

theorem sound_run (h : Leases.Sound w.book lost) (evs : List (Event T)) :
    Leases.Sound (w.run evs).book (lost ∪ w.stranded evs) := by
  induction evs generalizing w lost with
  | nil =>
    rw [stranded, Finset.union_empty]
    exact h
  | cons ev evs ih =>
    rw [stranded, ← Finset.union_assoc]
    exact ih (sound_step h ev)

theorem sound_start : Leases.Sound (start T).book ∅ := Leases.Sound.start

/-! ### Every connection its own relay -/

/-- What a worker has moved, given what was put into the receive buffer of its
socket and what is left there. -/
structure Moves (s : Served) (stream rx : List UInt8) : Prop where
  up : ∃ rest, Fifo.Step [] stream s.log.toLan rest
  down : ∃ rest, Fifo.Step [] s.log.fromLan s.log.toPeer rest
  untouched : s.phase = .dialing → stream = rx ∧ s.log = {}
  looping : ∀ loop, s.phase = .relaying loop → loop.Inv ∧ Fifo.Step [] stream s.log.toLan rx ∧
    Fifo.Step [] s.log.fromLan s.log.toPeer loop.pending

/-- What holds of the receive buffers throughout a run. -/
structure Streams (w : Workers σ) : Prop where
  moves : ∀ k s, w.workers k = some s → Moves s (w.pool.stream s.slot) (w.pool.rx s.slot)
  unread : ∀ i, w.pool.claimed i = false → w.pool.stream i = w.pool.rx i

theorem Moves.arrive {s : Served} {stream rx : List UInt8} (h : Moves s stream rx)
    (more : List UInt8) : Moves s (stream ++ more) (rx ++ more) where
  up := by
    obtain ⟨rest, hrest⟩ := h.up
    have hmore := hrest.trans (Fifo.Step.enter rest more)
    rw [List.append_nil] at hmore
    exact ⟨_, hmore⟩
  down := h.down
  untouched hs := by
    obtain ⟨heq, hlog⟩ := h.untouched hs
    exact ⟨by rw [heq], hlog⟩
  looping loop hloop := by
    obtain ⟨hinv, hup, hdown⟩ := h.looping loop hloop
    have hmore := hup.trans (Fifo.Step.enter rx more)
    rw [List.append_nil] at hmore
    exact ⟨hinv, hmore, hdown⟩

/-- Nothing has been moved. -/
theorem Moves.claimed {s : Served} {stream rx : List UInt8} (hlog : s.log = {})
    (hs : s.phase = .dialing) (heq : stream = rx) : Moves s stream rx where
  up := ⟨stream, by rw [hlog]; rfl⟩
  down := ⟨[], by rw [hlog]; rfl⟩
  untouched _ := ⟨heq, hlog⟩
  looping loop hloop := by
    rw [hs] at hloop
    cases hloop

/-- The dial ends. -/
theorem Moves.dialed {i : Slot} {dst : Endpoint} {log : Log} {stream rx : List UInt8}
    (h : Moves ⟨i, dst, .dialing, log⟩ stream rx) (loop : Option ℕ) :
    Moves ⟨i, dst, (loop.map fun now => .relaying (State.init now)).getD .ended, log⟩
      stream rx where
  up := h.up
  down := h.down
  untouched hs := by
    rcases loop with - | now
    · cases hs
    · cases hs
  looping loop' hloop := by
    obtain ⟨heq, hlog⟩ := h.untouched rfl
    rcases loop with - | now
    · cases hloop
    · obtain rfl := Phase.relaying.inj hloop
      obtain rfl : log = {} := hlog
      exact ⟨State.inv_init now, heq, rfl⟩

/-- A turn of the loop of `relay`, on the buffer of the socket. -/
theorem Moves.turn {i : Slot} {dst : Endpoint} {log : Log} {loop : State} {stream rx : List UInt8}
    (h : Moves ⟨i, dst, .relaying loop, log⟩ stream rx) {t : Turn} {r : State × Log × Option Exit}
    (hr : r = { loop with rx := rx }.turn t) :
    Moves ⟨i, dst, if r.2.2.isSome then .ended else .relaying r.1, log ++ r.2.1⟩
      (stream ++ r.2.1.arrived) r.1.rx := by
  obtain ⟨hinv, hup, hdown⟩ := h.looping loop rfl
  have hturn := State.turn_spec (hinv.received rx loop.lastActivity) t
  rw [← hr] at hturn
  obtain ⟨rest, hrest⟩ := hturn.up_end
  refine ⟨⟨rest, hup.trans hrest⟩, ⟨_, hdown.trans hturn.down⟩, ?_, ?_⟩
  · intro hs
    rcases hexit : r.2.2 with - | why
    · rw [hexit] at hs
      cases hs
    · rw [hexit] at hs
      cases hs
  · intro loop' hloop
    rcases hexit : r.2.2 with - | why
    · rw [hexit] at hloop
      obtain rfl := Phase.relaying.inj hloop
      exact ⟨hturn.inv, hup.trans (hturn.up hexit), hdown.trans hturn.down⟩
    · rw [hexit] at hloop
      cases hloop

theorem streams_start : (start T).Streams where
  moves k s hk := by cases hk
  unread i _ := rfl

theorem Moves.polled (h : w.Streams) {k : Worker} {s : Served} (hk : w.workers k = some s)
    (turn : Poll.Interface T) :
    Moves s ((w.pool.poll turn).stream s.slot) ((w.pool.poll turn).rx s.slot) :=
  (h.moves k s hk).arrive (turn.arrives s.slot)

theorem polled_unread (h : w.Streams) (turn : Poll.Interface T) {i : Slot}
    (hi : w.pool.claimed i = false) : (w.pool.poll turn).stream i = (w.pool.poll turn).rx i := by
  show w.pool.stream i ++ turn.arrives i = w.pool.rx i ++ turn.arrives i
  rw [h.unread i hi]

/-- Two workers, two sockets. -/
theorem slots_ne (h : Leases.Sound w.book lost) {k k' : Worker} {s s' : Served}
    (hk : w.workers k = some s) (hk' : w.workers k' = some s') (hne : k' ≠ k) :
    s'.slot ≠ s.slot := fun heq =>
  hne (h.exclusive (holds_eq hk') (heq ▸ holds_eq hk))

/-- What `relisten` does to the receive buffers: the others get more, its own is
as one that nothing was read from. -/
theorem relisten_rx (p : Pool σ) (i : Slot) (port : UInt16) (turn turn' : Poll.Interface T) :
    ∃ more : Slot → List UInt8,
      (∀ j ≠ i, (p.relisten i port turn turn').1.rx j = p.rx j ++ more j ∧
        (p.relisten i port turn turn').1.stream j = p.stream j ++ more j) ∧
      (p.relisten i port turn turn').1.stream i = (p.relisten i port turn turn').1.rx i := by
  unfold Pool.relisten
  simp only
  split_ifs
  · refine ⟨fun j => turn.arrives j ++ turn'.arrives j, ?_⟩
    split
    · refine ⟨fun j hj => ?_, ?_⟩
      · simp [hj, Pool.onSocket, Pool.poll]
      · simp
    · refine ⟨fun j hj => ?_, ?_⟩
      · simp [hj, Pool.onSocket, Pool.poll]
      · simp
  · refine ⟨turn.arrives, ?_⟩
    split
    · refine ⟨fun j hj => ?_, ?_⟩
      · simp [hj, Pool.onSocket, Pool.poll]
      · simp
    · refine ⟨fun j hj => ?_, ?_⟩
      · simp [hj, Pool.onSocket, Pool.poll]
      · simp

theorem serving_some {k k' : Worker} {s s' : Served} (h : w.serving k (some s) k' = some s') :
    (k' = k ∧ s' = s) ∨ (k' ≠ k ∧ w.workers k' = some s') := by
  by_cases hk : k' = k
  · subst hk
    rw [serving, Function.update_self] at h
    exact .inl ⟨rfl, (Option.some.inj h).symm⟩
  · rw [serving, Function.update_of_ne hk] at h
    exact .inr ⟨hk, h⟩

theorem streams_step (h : w.Streams) (hs : Leases.Sound w.book lost) (ev : Event T) :
    (w.step ev).Streams := by
  have hdoes := w.step_does ev
  generalize w.step ev = w' at hdoes ⊢
  cases hdoes with
  | nothing _ => exact h
  | poll _ turn dropped =>
    exact ⟨fun k s hk => Moves.polled h hk turn, fun i hi => polled_unread h turn hi⟩
  | @claim k i dst turn hk hfree hdst =>
    constructor
    · intro k' s hk'
      rcases serving_some hk' with ⟨rfl, rfl⟩ | ⟨-, hk'⟩
      · exact Moves.claimed rfl rfl (polled_unread h turn hfree)
      · exact Moves.polled h hk' turn
    · intro j hj
      have hji : j ≠ i := by
        rintro rfl
        simp at hj
      apply polled_unread h turn
      simpa [hji] using hj
  | @dialed k i dst log loop hk =>
    constructor
    · intro k' s hk'
      rcases serving_some hk' with ⟨rfl, rfl⟩ | ⟨-, hk'⟩
      · exact (h.moves k' _ hk).dialed loop
      · exact h.moves k' s hk'
    · exact h.unread
  | @turn k i dst loop log turn use t r hk hr =>
    have hheld : w.pool.claimed i = true := (hs.marked_iff i).mpr (.inl ⟨k, holds_eq hk⟩)
    constructor
    · intro k' s hk'
      rcases serving_some hk' with ⟨rfl, rfl⟩ | ⟨hne, hk'⟩
      · simp only [Function.update_self]
        exact (h.moves k' _ hk).turn hr
      · have hslot : s.slot ≠ i := slots_ne hs hk hk' hne
        simp only [Function.update_of_ne hslot]
        exact Moves.polled h hk' turn
    · intro j hj
      have hji : j ≠ i := by
        rintro rfl
        rw [show w.pool.claimed j = false from hj] at hheld
        cases hheld
      simp only [Function.update_of_ne hji]
      exact polled_unread h turn hj
  | @relisten k i dst log turn turn' hk =>
    obtain ⟨more, hothers, hown⟩ := relisten_rx w.pool i dst.port turn turn'
    constructor
    · intro k' s hk'
      by_cases hkk : k' = k
      · subst hkk
        simp [serving] at hk'
      · replace hk' : w.workers k' = some s := by
          simpa [serving, hkk] using hk'
        have hslot : s.slot ≠ i := slots_ne hs hk hk' hkk
        obtain ⟨hrx, hstream⟩ := hothers s.slot hslot
        show Moves s ((w.pool.relisten i dst.port turn turn').1.stream s.slot) _
        rw [hrx, hstream]
        exact (h.moves k' s hk').arrive (more s.slot)
    · intro j hj
      by_cases hji : j = i
      · subst hji
        exact hown
      · obtain ⟨hrx, hstream⟩ := hothers j hji
        have hfree : w.pool.claimed j = false := by
          rw [relisten_claimed, Function.update_of_ne hji] at hj
          exact hj
        show (w.pool.relisten i dst.port turn turn').1.stream j = _
        rw [hrx, hstream, h.unread j hfree]
  | restart => exact ⟨fun k s hk => (by cases hk), h.unread⟩

theorem streams_run (h : w.Streams) (hs : Leases.Sound w.book lost) (evs : List (Event T)) :
    (w.run evs).Streams := by
  induction evs generalizing w lost with
  | nil => exact h
  | cons ev evs ih => exact ih (streams_step h hs ev) (sound_step hs ev)

/-- **Eight workers, one connection each.**  After every run, in whatever order
the workers, the tailnet and the supervisor take their turns:

* no two workers serve the same socket;
* a socket is claimed exactly when a worker serves it or a session ended while
  one did, and the first count of `stats` is that of these two;
* what a worker has written to the LAN is a prefix of what was put into the
  receive buffer of its own socket, what it has handed to its socket is a prefix
  of what it read from its own LAN host, and while it relays nothing is missing
  but what is still in the two buffers. -/
theorem workers_exclusive (evs : List (Event T)) :
    let w := (start T).run evs
    (∀ k k' s s', w.workers k = some s → w.workers k' = some s' → s.slot = s'.slot → k = k') ∧
    (∀ i, w.pool.claimed i = true ↔
      (∃ k s, w.workers k = some s ∧ s.slot = i) ∨ i ∈ (start T).stranded evs) ∧
    (w.pool.stats T).1 =
      (Finset.univ.filter fun k => (w.workers k).isSome = true).card +
        ((start T).stranded evs).card ∧
    ∀ k s, w.workers k = some s →
      s.log.toLan <+: w.pool.stream s.slot ∧ s.log.toPeer <+: s.log.fromLan ∧
      ∀ loop, s.phase = .relaying loop →
        w.pool.stream s.slot = s.log.toLan ++ w.pool.rx s.slot ∧
        s.log.fromLan = s.log.toPeer ++ loop.pending := by
  intro w
  have hsound : Leases.Sound w.book (∅ ∪ (start T).stranded evs) := sound_run sound_start evs
  rw [Finset.empty_union] at hsound
  have hstreams : w.Streams := streams_run streams_start sound_start evs
  refine ⟨?_, ?_, ?_, ?_⟩
  · intro k k' s s' hk hk' heq
    exact hsound.exclusive (holds_eq hk) (heq ▸ holds_eq hk')
  · intro i
    have hheld : w.book.Held i ↔ ∃ k s, w.workers k = some s ∧ s.slot = i := by
      constructor
      · rintro ⟨k, hk⟩
        obtain ⟨s, hs, rfl⟩ := Option.map_eq_some_iff.mp hk
        exact ⟨k, s, hs, rfl⟩
      · rintro ⟨k, s, hs, rfl⟩
        exact ⟨k, holds_eq hs⟩
    rw [← hheld]
    exact hsound.marked_iff i
  · have hcard := hsound.card_marked
    simp only [book, Option.isSome_map] at hcard
    exact hcard
  · intro k s hk
    have hmoves := hstreams.moves k s hk
    obtain ⟨rest, hup⟩ := hmoves.up
    obtain ⟨rest', hdown⟩ := hmoves.down
    refine ⟨hup.isPrefix, hdown.isPrefix, fun loop hloop => ?_⟩
    obtain ⟨-, hup, hdown⟩ := hmoves.looping loop hloop
    exact ⟨hup, hdown⟩

/-! ### Out of service -/

/-- A worker serves the socket, or a worker can still come to serve it. -/
def InService (T : Tcp σ) (w : Workers σ) (i : Slot) : Prop :=
  w.book.Held i ∨ w.pool.claimed i = false ∧ T.isOpen (w.pool.sockets i) = true

theorem start_inService (hT : T.Lawful) (i : Slot) : (start T).InService T i := by
  refine .inr ⟨rfl, ?_⟩
  have hport : ports.get i ≠ 0 := by
    revert i
    decide
  obtain ⟨s, hs⟩ := Option.isSome_iff_exists.mp (hT.listen_closed hT.fresh_closed hport)
  show T.isOpen ((T.listen T.fresh (ports.get i)).getD T.fresh) = true
  rw [hs]
  exact hT.listen_open hs

theorem polled_open {p : Pool σ} (turn : Poll.Interface T) {i : Slot}
    (h : T.isOpen ((p.poll turn).sockets i) = true) : T.isOpen (p.sockets i) = true := by
  by_contra hno
  rw [Bool.not_eq_true] at hno
  have hclosed : T.isOpen ((p.poll turn).sockets i) = false := turn.closed i _ hno
  rw [hclosed] at h
  cases h

theorem relisten_open {p : Pool σ} {i j : Slot} {port : UInt16} {turn turn' : Poll.Interface T}
    (hij : j ≠ i) (h : T.isOpen ((p.relisten i port turn turn').1.sockets j) = true) :
    T.isOpen (p.sockets j) = true := by
  have hof : ∀ (p : Pool σ) f, (p.onSocket i f).sockets j = p.sockets j := fun p f =>
    Function.update_of_ne hij _ _
  unfold Pool.relisten at h
  simp only at h
  split_ifs at h
  · have hpoll : T.isOpen (((((p.onSocket i T.abort).poll turn).onSocket i T.close).poll
        turn').sockets j) = true := by
      split at h
      · rw [hof] at h
        exact h
      · exact h
    have hpoll' := polled_open _ hpoll
    rw [hof] at hpoll'
    have hopen := polled_open _ hpoll'
    rwa [hof] at hopen
  · have hpoll : T.isOpen (((p.onSocket i T.abort).poll turn).sockets j) = true := by
      split at h
      · rw [hof] at h
        exact h
      · exact h
    have hopen := polled_open _ hpoll
    rwa [hof] at hopen

/-- No event brings a socket back. -/
theorem inService_of_step (hT : T.Lawful) {ev : Event T} {j : Slot}
    (h : (w.step ev).InService T j) : w.InService T j := by
  have hdoes := w.step_does ev
  generalize w.step ev = w' at hdoes h
  cases hdoes with
  | nothing _ => exact h
  | poll _ turn dropped => exact h.imp_right fun h => ⟨h.1, polled_open _ h.2⟩
  | @claim k i dst turn hk hfree hdst =>
    by_cases hj : j = i
    · subst hj
      refine .inr ⟨hfree, polled_open turn ?_⟩
      by_contra hno
      rw [Bool.not_eq_true] at hno
      rw [hT.endpoint_open hno] at hdst
      cases hdst
    · rcases h with ⟨k', hk'⟩ | ⟨hfree', hopen⟩
      · refine .inl ⟨k', ?_⟩
        obtain ⟨s, hs', rfl⟩ := Option.map_eq_some_iff.mp hk'
        rcases serving_some hs' with ⟨rfl, rfl⟩ | ⟨-, hk''⟩
        · exact absurd rfl hj
        · exact holds_eq hk''
      · refine .inr ⟨?_, polled_open _ hopen⟩
        simpa only [Function.update_of_ne hj] using hfree'
  | @dialed k i dst log loop hk =>
    refine h.imp_left ?_
    rintro ⟨k', hk'⟩
    obtain ⟨s, hs', rfl⟩ := Option.map_eq_some_iff.mp hk'
    rcases serving_some hs' with ⟨rfl, rfl⟩ | ⟨-, hk''⟩
    · exact ⟨k', (holds_eq hk :)⟩
    · exact ⟨k', holds_eq hk''⟩
  | @turn k i dst loop log turn use t r hk hr =>
    by_cases hj : j = i
    · subst hj
      exact .inl ⟨k, holds_eq hk⟩
    · rcases h with ⟨k', hk'⟩ | ⟨hfree, hopen⟩
      · obtain ⟨s, hs', rfl⟩ := Option.map_eq_some_iff.mp hk'
        rcases serving_some hs' with ⟨rfl, rfl⟩ | ⟨-, hk''⟩
        · exact absurd rfl hj
        · exact .inl ⟨k', holds_eq hk''⟩
      · refine .inr ⟨hfree, polled_open turn ?_⟩
        simpa only [Pool.onSocket, Function.update_of_ne hj] using hopen
  | @relisten k i dst log turn turn' hk =>
    by_cases hj : j = i
    · subst hj
      exact .inl ⟨k, holds_eq hk⟩
    · rcases h with ⟨k', hk'⟩ | ⟨hfree, hopen⟩
      · obtain ⟨s, hs', rfl⟩ := Option.map_eq_some_iff.mp hk'
        have hkk : k' ≠ k := by
          rintro rfl
          simp [serving] at hs'
        refine .inl ⟨k', holds_eq ?_⟩
        simpa [serving, hkk] using hs'
      · rw [relisten_claimed, Function.update_of_ne hj] at hfree
        exact .inr ⟨hfree, relisten_open hj hopen⟩
  | restart =>
    rcases h with ⟨k, hk⟩ | h
    · cases hk
    · exact .inr h

theorem inService_of_run (hT : T.Lawful) {evs : List (Event T)} {i : Slot}
    (h : (w.run evs).InService T i) : w.InService T i := by
  induction evs generalizing w with
  | nil => exact h
  | cons ev evs ih => exact inService_of_step hT (ih h)

theorem not_inService_of_lost (hs : Leases.Sound w.book lost) {i : Slot} (hi : i ∈ lost) :
    ¬ w.InService T i := by
  rintro (hheld | ⟨hfree, -⟩)
  · exact hs.apart hheld hi
  · exact hs.not_lost hfree hi

/-- **A socket that is lost stays lost.**  All sockets are in service in the
beginning.  After every run:

* a socket that is out of service is so after every continuation of the run, and
  no worker serves it;
* the end of a session takes exactly those sockets out of service that a worker
  serves then, and those it took before are still out;
* every other event takes a socket out of service only by leaving it closed and
  unclaimed: nothing makes it listen again. -/
theorem out_of_service_for_good (hT : T.Lawful) (evs : List (Event T)) (i : Slot) :
    let w := (start T).run evs
    (start T).InService T i ∧
    (¬ w.InService T i → ∀ more : List (Event T), ¬ (w.run more).InService T i ∧
      ∀ k s, (w.run more).workers k = some s → s.slot ≠ i) ∧
    ((w.step (.restart : Event T)).InService T i ↔ w.InService T i ∧ ¬ w.book.Held i) ∧
    (i ∈ (start T).stranded evs → ¬ w.InService T i) ∧
    ∀ ev : Event T, w.strands ev = ∅ → w.InService T i → ¬ (w.step ev).InService T i →
      (w.step ev).pool.claimed i = false ∧
        T.isOpen ((w.step ev).pool.sockets i) = false := by
  intro w
  have hsound : Leases.Sound w.book (∅ ∪ (start T).stranded evs) := sound_run sound_start evs
  rw [Finset.empty_union] at hsound
  refine ⟨start_inService hT i, ?_, ?_, not_inService_of_lost hsound, ?_⟩
  · intro hout more
    have hlater : ¬ (w.run more).InService T i := fun h => hout (inService_of_run hT h)
    refine ⟨hlater, ?_⟩
    rintro k s hk rfl
    exact hlater (.inl ⟨k, holds_eq hk⟩)
  · constructor
    · rintro (⟨k, hk⟩ | h)
      · cases hk
      · exact ⟨.inr h, hsound.not_held h.1⟩
    · rintro ⟨hin, hno⟩
      exact .inr (hin.resolve_left hno)
  · intro ev hev hin hout
    have hsound' := sound_step hsound ev
    rw [hev, Finset.union_empty] at hsound'
    have hfree : (w.step ev).pool.claimed i = false := by
      by_contra hclaimed
      rw [Bool.not_eq_false] at hclaimed
      rcases (hsound'.marked_iff i).mp hclaimed with hheld | hlost
      · exact hout (.inl hheld)
      · exact not_inService_of_lost hsound hlost hin
    refine ⟨hfree, ?_⟩
    by_contra hopen
    rw [Bool.not_eq_false] at hopen
    exact hout (.inr ⟨hfree, hopen⟩)

end Workers

/-- A stack with three states and nothing else. -/
inductive Sock
  | closed
  | listening
  | connected (local_ : Endpoint)

/-- The four states as a TCP socket. -/
def Sock.tcp : Tcp Sock where
  fresh := closed
  isOpen s := match s with | closed => false | _ => true
  isListening s := match s with | listening => true | _ => false
  isActive s := match s with | connected _ => true | _ => false
  mayRecv s := match s with | connected _ => true | _ => false
  maySend s := match s with | connected _ => true | _ => false
  localEndpoint s := match s with | connected e => some e | _ => none
  abort _ := closed
  close _ := closed
  listen s port := match s with | closed => if port = 0 then none else some listening | _ => none

theorem Sock.tcp_lawful : Sock.tcp.Lawful where
  fresh_closed := rfl
  listen_closed := by
    intro s port hs hport
    cases s with
    | closed => simp [tcp, hport]
    | listening => cases hs
    | connected e => cases hs
  listen_open := by
    intro s port s' h
    cases s with
    | closed =>
      simp only [tcp] at h
      split_ifs at h
      cases h
      rfl
    | listening => cases h
    | connected e => cases h
  endpoint_open := by
    intro s hs
    cases s with
    | closed => rfl
    | listening => rfl
    | connected e => cases hs

/-- Somebody dials the first socket. -/
def Sock.dialled (e : Endpoint) : Poll.Interface Sock.tcp where
  turn i s := match s with
    | listening => if i.val = 0 then connected e else listening
    | s => s
  arrives _ := []
  closed i s hs := by
    cases s with
    | closed => rfl
    | listening => cases hs
    | connected e => cases hs

namespace Workers

/-- A session ends while a worker is at its connection. -/
theorem out_of_service_for_good_restart :
    let web : Slot := ⟨0, by decide⟩
    let evs := [.claim 0 (Sock.dialled ⟨#v[192, 168, 1, 50], 80⟩), .restart]
    ∀ more : List (Event Sock.tcp), ∀ k s,
      (((start Sock.tcp).run evs).run more).workers k = some s → s.slot ≠ web := by
  intro web evs
  obtain ⟨-, hgood, -, hlost, -⟩ := out_of_service_for_good Sock.tcp_lawful evs web
  refine fun more => (hgood (hlost ?_) more).2
  show web ∈ ∅ ∪ (((start Sock.tcp).step
    (.claim 0 (Sock.dialled ⟨#v[192, 168, 1, 50], 80⟩))).book.held ∪ ∅)
  simp only [Finset.empty_union, Finset.union_empty, Leases.Book.mem_held]
  exact ⟨0, rfl⟩

end Workers

end Lando.Fw.Tunnel
