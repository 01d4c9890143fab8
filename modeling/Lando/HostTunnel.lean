/-
Lando/HostTunnel.lean

The host's SOCKS5 proxy (`TunnelStack::serve` and what it calls in
`lando-host/src/tunnel.rs`), for one client among the others.

A client sends a greeting, a CONNECT request and the bytes for the LAN, and
the segments that carry them are cut anywhere.  A socket of the stack consumes
them in three states, and its state says how far it is (`Served`):

    greeting   nothing consumed,           nothing sent
    request    the greeting consumed,      the method sent
    relaying   both messages consumed,     the method and the success sent,

in the last with `arrived = messages ++ written to the LAN ++ receive buffer`.
A turn of `serve` acts on the receive buffer, which holds either a proper
prefix of the message the state waits for, or that message and what follows.
The two parsers tell these apart exactly.
-/
import Lando.Bytes
import Lando.Fifo
import Lando.Utf8
import Mathlib.Data.Set.Defs

namespace Lando.Host.Tunnel

open Bytes

/-! ### The messages -/

/-- An address and a port. -/
inductive SocketAddr
  | v4 (ip : Vector UInt8 4) (port : UInt16)
  | v6 (ip : Vector UInt8 16) (port : UInt16)
  deriving DecidableEq

/-- `to_socket_addrs` with the first of its answers. -/
abbrev Resolver := List Char → UInt16 → Option SocketAddr

/-- `u16::from_be_bytes` of two bytes of a buffer. -/
def portAt (buf : List UInt8) (off : ℕ) : UInt16 := UInt16.ofNat (fromBE (slice buf off (off + 2)))

/-- What the closure of `greet` consumes, unless it waits. -/
def greetingUsed (buf : List UInt8) : Option ℕ :=
  if buf.length < 2 ∨ buf.getD 0 0 ≠ 5 then none
  else
    let n := 2 + (buf.getD 1 0).toNat
    if buf.length < n then none else some n

/-- `parse_request`: the bytes consumed and the target. -/
def parseRequest (resolve : Resolver) (buf : List UInt8) : Option (ℕ × SocketAddr) :=
  if buf.length < 4 ∨ buf.getD 0 0 ≠ 5 then none
  else if buf.getD 1 0 ≠ 1 then none
  else if buf.getD 3 0 = 1 ∧ 10 ≤ buf.length then
    some (10, .v4 (read 4 buf 4) (portAt buf 8))
  else if buf.getD 3 0 = 3 ∧ 5 ≤ buf.length then
    let len := (buf.getD 4 0).toNat
    if buf.length < 5 + len + 2 then none
    else
      match Utf8.decode (slice buf 5 (5 + len)) with
      | none => none
      | some host => (resolve host (portAt buf (5 + len))).map fun addr => (5 + len + 2, addr)
  else none

/-- What a client sends: the methods it offers, the target it asks for, and
the bytes for that target. -/
inductive Request
  | ipv4 (reserved : UInt8) (ip : Vector UInt8 4) (port : UInt16)
  | domain (reserved : UInt8) (host : { cs : List Char // (Utf8.encode cs).length < 256 })
      (port : UInt16)

/-- The request as RFC 1928 has it. -/
def Request.bytes : Request → List UInt8
  | ipv4 reserved ip port => [5, 1, reserved, 1] ++ (ip.toList ++ toBE 2 port.toNat)
  | domain reserved host port =>
      [5, 1, reserved, 3, UInt8.ofNat (Utf8.encode host).length] ++
        (Utf8.encode host ++ toBE 2 port.toNat)

/-- The address that a request asks for. -/
def Request.target (resolve : Resolver) : Request → Option SocketAddr
  | ipv4 _ ip port => some (.v4 ip port)
  | domain _ host port => resolve host port

/-- All that a client sends: its methods, its request, and what is for the target. -/
structure Client where
  methods : { ms : List UInt8 // ms.length < 256 }
  request : Request
  app : List UInt8

namespace Client

/-- The version, and the methods with their number. -/
def greeting (c : Client) : List UInt8 :=
  [5, UInt8.ofNat c.methods.val.length] ++ c.methods

/-- The whole stream of the client. -/
def bytes (c : Client) : List UInt8 := c.greeting ++ (c.request.bytes ++ c.app)

end Client

/-! ### The sockets -/

/-- What a slot serves. -/
inductive Target
  | socks
  | forward (addr : SocketAddr)

/-- Where a connection is.  A stream is told by the address it was dialled
at. -/
inductive Conn
  | greeting
  | request
  | relaying (stream : SocketAddr)
  deriving DecidableEq

/-- How a write to the LAN ends. -/
inductive Write
  | wrote (n : ℕ)
  | wouldBlock
  | failed
  deriving DecidableEq

/-- How a read of the LAN ends; no bytes are its end. -/
inductive Read
  | got (bytes : List UInt8)
  | wouldBlock
  | failed
  deriving DecidableEq

/-- What the rest of the world answers one socket in one call of `serve`. -/
structure Env where
  /-- How many bytes of the send queue the peer has acknowledged before. -/
  acked : ℕ
  active : Bool
  /-- The peer and the network let this socket send. -/
  maySend : Bool
  resolve : Resolver
  /-- `TcpStream::connect` succeeds. -/
  dials : Bool
  write : Write
  read : Read

/-- `TCP_BUFFER`. -/
def tcpBuffer : ℕ := 8 * 1024

/-- One socket with its proxy state, and what has gone through it. -/
structure Slot where
  rx : List UInt8 := []
  /-- `send_queue`. -/
  queued : ℕ := 0
  closed : Bool := false
  conn : Conn := .greeting
  target : Target
  /-- What each `send_slice` took. -/
  sent : List (List UInt8) := []
  dialled : List SocketAddr := []
  toLan : List UInt8 := []
  /-- What each read of the LAN got. -/
  fromLan : List (List UInt8) := []

/-- The reply to a greeting: no authentication. -/
def methodReply : List UInt8 := [5, 0]

/-- The reply to a request that is granted. -/
def successReply : List UInt8 := [5, 0, 0, 1, 0, 0, 0, 0, 0, 0]

/-- The reply to a request whose target refuses. -/
def refusedReply : List UInt8 := [5, 5, 0, 1, 0, 0, 0, 0, 0, 0]

namespace Slot

/-- `send_slice`: what fits, or an error. -/
def send (e : Env) (data : List UInt8) (s : Slot) : Slot × Bool :=
  if e.maySend = true ∧ s.closed = false then
    let taken := data.take (tcpBuffer - s.queued)
    ({ s with queued := s.queued + taken.length, sent := s.sent ++ [taken] }, true)
  else (s, false)

/-- The slot's socket is closed. -/
def close (s : Slot) : Slot := { s with closed := true }

/-- Consumes the greeting and answers it. -/
def greet (e : Env) (s : Slot) : Slot × Bool :=
  if s.rx = [] then (s, false)
  else
    match greetingUsed s.rx with
    | none => (s, false)
    | some n => { s with rx := s.rx.drop n }.send e methodReply

/-- Consumes the request and opens the LAN connection. -/
def connect (e : Env) (s : Slot) : Slot × Option SocketAddr :=
  if s.rx = [] then (s, none)
  else
    match parseRequest e.resolve s.rx with
    | none => (s, none)
    | some (used, addr) =>
        let s := { s with rx := s.rx.drop used, dialled := s.dialled ++ [addr] }
        if e.dials = true then
          match s.send e successReply with
          | (s, true) => (s, some addr)
          | (s, false) => (s, none)
        else ((s.send e refusedReply).1.close, none)

/-- Tunnel to LAN. -/
def relayOut (e : Env) (s : Slot) : Slot :=
  if s.rx = [] then s
  else
    match e.write with
    | .wrote n => { s with rx := s.rx.drop n, toLan := s.toLan ++ s.rx.take n }
    | .wouldBlock => s
    | .failed => { s with rx := [] }

/-- LAN to tunnel, as much as the socket will take. -/
def relayIn (e : Env) (s : Slot) : Slot :=
  if e.maySend = true ∧ s.closed = false ∧ s.queued < tcpBuffer then
    let want := min (tcpBuffer - s.queued) 2048
    match e.read with
    | .got [] => s.close
    | .got bytes =>
        ({ s with fromLan := s.fromLan ++ [bytes.take want] }.send e (bytes.take want)).1
    | .wouldBlock => s
    | .failed => s.close
  else s

/-- Moves bytes both ways. -/
def relay (e : Env) (s : Slot) : Slot := (s.relayOut e).relayIn e

/-- The turn of one socket in `serve`. -/
def serve (e : Env) (s : Slot) : Slot :=
  let s := { s with queued := s.queued - e.acked }
  if e.active = false then { s with conn := .greeting }
  else
    match s.conn, s.target with
    | .greeting, .forward addr | .request, .forward addr =>
        if e.dials = true then
          { s with conn := .relaying addr, dialled := s.dialled ++ [addr] }
        else { s with dialled := s.dialled ++ [addr] }.close
    | .greeting, .socks =>
        let (s, answered) := s.greet e
        if answered = true then { s with conn := .request } else s
    | .request, .socks =>
        let (s, stream) := s.connect e
        match stream with
        | some addr => { s with conn := .relaying addr }
        | none => s
    | .relaying _, _ => s.relay e

end Slot

/-- The sockets, each with its state. -/
abbrev TunnelStack := List Slot

/-- Bytes arrive at a socket, or the stack is served. -/
inductive Event
  | deliver (i : ℕ) (bytes : List UInt8)
  | serve (env : ℕ → Env)

namespace TunnelStack

/-- Advances every connection. -/
def serve (env : ℕ → Env) (stack : TunnelStack) : TunnelStack :=
  stack.mapIdx fun i s => s.serve (env i)

/-- One event. -/
def step (stack : TunnelStack) : Event → TunnelStack
  | .deliver i bytes => stack.modify i fun s => { s with rx := s.rx ++ bytes }
  | .serve env => stack.serve env

/-- The stack after a list of events. -/
def run (stack : TunnelStack) (events : List Event) : TunnelStack := events.foldl step stack

end TunnelStack

/-! ### The parsers on a stream -/

theorem toNat_ofNat_length {n : ℕ} (h : n < 256) : (UInt8.ofNat n).toNat = n := by
  rw [UInt8.toNat_ofNat', Nat.mod_eq_of_lt h]

/-- Of two beginnings of one stream, a shorter one is a proper beginning of the
other. -/
theorem prefix_or_proper {msg rest buf : List UInt8} (h : buf <+: msg ++ rest) :
    msg <+: buf ∨ (buf <+: msg ∧ buf.length < msg.length) := by
  rcases List.prefix_or_prefix_of_prefix h (List.prefix_append msg rest) with hle | hge
  · rcases Nat.lt_or_ge buf.length msg.length with hlt | hge
    · exact .inr ⟨hle, hlt⟩
    · exact .inl (hle.eq_of_length_le hge ▸ List.prefix_rfl)
  · exact .inl hge

theorem getD_front {buf msg : List UInt8} (h : buf <+: msg) {i : ℕ} (hi : i < buf.length) :
    buf.getD i 0 = msg.getD i 0 := by
  obtain ⟨rest, rfl⟩ := h
  rw [List.getD_eq_getElem?_getD, List.getD_eq_getElem?_getD, List.getElem?_append_left hi]

namespace Client

variable (c : Client)

/-- Behind both messages stand the bytes for the LAN. -/
theorem app_eq {toLan rx : List UInt8}
    (h : Fifo.Step [] c.bytes (c.greeting ++ (c.request.bytes ++ toLan)) rx) :
    c.app = toLan ++ rx := by
  rw [bytes, Fifo.Step, List.nil_append, List.append_assoc, List.append_assoc] at h
  exact List.append_cancel_left (List.append_cancel_left h)

theorem length_greeting : c.greeting.length = 2 + c.methods.val.length := by
  rw [greeting, List.length_append]
  rfl

theorem greetingUsed_whole {buf : List UInt8} (h : c.greeting <+: buf) :
    greetingUsed buf = some c.greeting.length := by
  have hn := toNat_ofNat_length c.methods.property
  have hlen := h.length_le
  have hgreeting := c.length_greeting
  have h0 : buf.getD 0 0 = 5 := (getD_front h (by omega)).symm
  have h1 : buf.getD 1 0 = UInt8.ofNat c.methods.val.length :=
    (getD_front h (by omega)).symm
  rw [greetingUsed, if_neg (not_or.mpr ⟨by omega, not_not.mpr h0⟩)]
  simp only [h1, hn]
  rw [if_neg (by omega), hgreeting]

/-- A greeting that is still cut is waited for. -/
theorem greetingUsed_cut {buf : List UInt8} (h : buf <+: c.greeting)
    (hlt : buf.length < c.greeting.length) : greetingUsed buf = none := by
  have hn := toNat_ofNat_length c.methods.property
  rw [length_greeting] at hlt
  rw [greetingUsed]
  by_cases hshort : buf.length < 2 ∨ buf.getD 0 0 ≠ 5
  · rw [if_pos hshort]
  · have h1 : buf.getD 1 0 = UInt8.ofNat c.methods.val.length :=
      getD_front h (by omega)
    rw [if_neg hshort]
    simp only [h1, hn]
    rw [if_pos hlt]

end Client

namespace Request

variable (resolve : Resolver)

theorem portAt_append {a rest : List UInt8} {off : ℕ} (port : UInt16) (h : off = a.length) :
    portAt (a ++ (toBE 2 port.toNat ++ rest)) off = port := by
  have hport : port.toNat < 256 ^ 2 := port.toNat_lt
  rw [portAt, slice_append_mid h (by rw [length_toBE]), fromBE_toBE hport, UInt16.ofNat_toNat]

theorem parseRequest_whole {r : Request} {addr : SocketAddr} (hr : r.target resolve = some addr)
    {buf : List UInt8} (h : r.bytes <+: buf) :
    parseRequest resolve buf = some (r.bytes.length, addr) := by
  obtain ⟨rest, rfl⟩ := h
  cases r with
  | ipv4 reserved ip port =>
    obtain rfl := Option.some.inj hr
    have hip : ip.toList.length = 4 := ip.length_toList
    have hlayout : (ipv4 reserved ip port).bytes ++ rest =
        [5, 1, reserved, 1] ++ (ip.toList ++ (toBE 2 port.toNat ++ rest)) := by
      simp only [bytes, List.append_assoc]
    have hlen : (ipv4 reserved ip port).bytes.length = 10 := by
      simp only [bytes, List.length_append, hip, length_toBE]
      rfl
    have hread : Bytes.read 4 ((ipv4 reserved ip port).bytes ++ rest) 4 = ip := by
      apply read_eq
      rw [hlayout]
      exact slice_append_mid rfl (by rw [hip])
    have hport : portAt ((ipv4 reserved ip port).bytes ++ rest) 8 = port := by
      rw [hlayout, ← List.append_assoc]
      exact portAt_append port (by rw [List.length_append, hip]; rfl)
    have hroom : 10 ≤ ((ipv4 reserved ip port).bytes ++ rest).length := by
      rw [List.length_append, hlen]
      omega
    have h0 : ((ipv4 reserved ip port).bytes ++ rest).getD 0 0 = 5 := rfl
    have h1 : ((ipv4 reserved ip port).bytes ++ rest).getD 1 0 = 1 := rfl
    have hkind : ((ipv4 reserved ip port).bytes ++ rest).getD 3 0 = 1 := rfl
    rw [parseRequest, if_neg (not_or.mpr ⟨by omega, not_not.mpr h0⟩), if_neg (not_not.mpr h1),
      if_pos ⟨hkind, hroom⟩, hread, hport, hlen]
  | domain reserved host port =>
    have hn := toNat_ofNat_length host.property
    have hlayout : (domain reserved host port).bytes ++ rest =
        [5, 1, reserved, 3, UInt8.ofNat (Utf8.encode host).length] ++
          (Utf8.encode host ++ (toBE 2 port.toNat ++ rest)) := by
      simp only [bytes, List.append_assoc]
    have hlen : (domain reserved host port).bytes.length =
        5 + (Utf8.encode host).length + 2 := by
      simp only [bytes, List.length_append, length_toBE, List.length_cons, List.length_nil]
      omega
    have hhost : slice ((domain reserved host port).bytes ++ rest) 5
        (5 + (Utf8.encode host).length) = Utf8.encode host := by
      rw [hlayout]
      exact slice_append_mid rfl rfl
    have hport : portAt ((domain reserved host port).bytes ++ rest)
        (5 + (Utf8.encode host).length) = port := by
      rw [hlayout, ← List.append_assoc]
      exact portAt_append port (by rw [List.length_append]; rfl)
    have hroom : 5 + (Utf8.encode host).length + 2 ≤
        ((domain reserved host port).bytes ++ rest).length := by
      rw [List.length_append, hlen]
      omega
    have h0 : ((domain reserved host port).bytes ++ rest).getD 0 0 = 5 := rfl
    have h1 : ((domain reserved host port).bytes ++ rest).getD 1 0 = 1 := rfl
    have hkind : ((domain reserved host port).bytes ++ rest).getD 3 0 = 3 := rfl
    have h4 : ((domain reserved host port).bytes ++ rest).getD 4 0 =
        UInt8.ofNat (Utf8.encode host).length := rfl
    rw [parseRequest, if_neg (not_or.mpr ⟨by omega, not_not.mpr h0⟩), if_neg (not_not.mpr h1),
      if_neg (by rw [hkind]; exact fun h => absurd h.1 (by decide)), if_pos ⟨hkind, by omega⟩]
    simp only [h4, hn]
    rw [if_neg (by omega), hhost, Utf8.decode_encode]
    simp only [hport]
    rw [show resolve host.val port = some addr from hr, hlen]
    rfl

/-- A request that is still cut is waited for. -/
theorem parseRequest_cut {r : Request} {buf : List UInt8} (h : buf <+: r.bytes)
    (hlt : buf.length < r.bytes.length) : parseRequest resolve buf = none := by
  rw [parseRequest]
  by_cases hshort : buf.length < 4 ∨ buf.getD 0 0 ≠ 5
  · rw [if_pos hshort]
  rw [if_neg hshort]
  by_cases hcmd : buf.getD 1 0 ≠ 1
  · rw [if_pos hcmd]
  rw [if_neg hcmd]
  have hkind := getD_front h (i := 3) (by omega)
  cases r with
  | ipv4 reserved ip port =>
    have hlen : (ipv4 reserved ip port).bytes.length = 10 := by
      simp only [bytes, List.length_append, ip.length_toList, length_toBE]
      rfl
    have h1 : buf.getD 3 0 = 1 := hkind
    rw [if_neg (by omega), if_neg (by rw [h1]; exact fun h => absurd h.1 (by decide))]
  | domain reserved host port =>
    have hn := toNat_ofNat_length host.property
    have hlen : (domain reserved host port).bytes.length =
        5 + (Utf8.encode host).length + 2 := by
      simp only [bytes, List.length_append, length_toBE, List.length_cons, List.length_nil]
      omega
    have h3 : buf.getD 3 0 = 3 := hkind
    rw [if_neg (by rw [h3]; exact fun h => absurd h.1 (by decide))]
    by_cases hfive : 5 ≤ buf.length
    · have h4 : buf.getD 4 0 = UInt8.ofNat (Utf8.encode host).length :=
        getD_front h (by omega)
      rw [if_pos ⟨h3, hfive⟩]
      simp only [h4, hn]
      rw [if_pos (by omega)]
    · rw [if_neg (fun h => hfive h.2)]

end Request

/-! ### One turn of a socket -/

/-- What serving a client rests on: its socket is open, it may send, its
target has an address and can be dialled, and the LAN refuses no write. -/
structure Env.Willing (e : Env) (c : Client) (addrs : Set SocketAddr) : Prop where
  active : e.active = true
  maySend : e.maySend = true
  resolves : ∃ addr ∈ addrs, c.request.target e.resolve = some addr
  dials : e.dials = true
  writes : e.write ≠ .failed

/-- How many bytes a write to the LAN takes. -/
def Write.taken : Write → ℕ
  | wrote n => n
  | _ => 0

namespace Slot

variable {c : Client} {addrs : Set SocketAddr} {e : Env} {s : Slot}

theorem send_eq (data : List UInt8) (hmay : e.maySend = true) (hopen : s.closed = false)
    (hroom : data.length ≤ tcpBuffer - s.queued) :
    s.send e data =
      ({ s with queued := s.queued + data.length, sent := s.sent ++ [data] }, true) := by
  rw [send, if_pos ⟨hmay, hopen⟩, List.take_of_length_le hroom]

/-- A SOCKS socket with nothing dialled yet. -/
structure Negotiating (s : Slot) : Prop where
  target : s.target = .socks
  opened : s.closed = false
  queued : s.queued ≤ s.sent.flatten.length
  dialled : s.dialled = []
  toLan : s.toLan = []
  fromLan : s.fromLan = []

theorem serve_greeting {t : Slot} {answered : Bool} (he : e.Willing c addrs) (h : s.Negotiating)
    (hconn : s.conn = .greeting)
    (hgreet : greet e { s with queued := s.queued - e.acked } = (t, answered)) :
    s.serve e = if answered = true then { t with conn := .request } else t := by
  simp only [hconn, h.target] at hgreet
  simp only [serve, he.active, Bool.true_eq_false, if_false, hconn, h.target, hgreet]

theorem serve_greeting_cut (he : e.Willing c addrs) (h : s.Negotiating)
    (hconn : s.conn = .greeting) (hcut : s.rx <+: c.greeting)
    (hlt : s.rx.length < c.greeting.length) :
    s.serve e = { s with queued := s.queued - e.acked } := by
  have hgreet : greet e { s with queued := s.queued - e.acked } =
      ({ s with queued := s.queued - e.acked }, false) := by
    rw [greet]
    by_cases hempty : s.rx = []
    · rw [if_pos hempty]
    · rw [if_neg hempty]
      simp only [c.greetingUsed_cut hcut hlt]
  exact serve_greeting he h hconn hgreet

theorem serve_greeting_whole (he : e.Willing c addrs) (h : s.Negotiating)
    (hconn : s.conn = .greeting) (hwhole : c.greeting <+: s.rx) (hsent : s.sent = []) :
    s.serve e = { s with
      queued := s.queued - e.acked + 2, rx := s.rx.drop c.greeting.length
      sent := [methodReply], conn := .request } := by
  have hne : s.rx ≠ [] := hwhole.ne_nil (List.cons_ne_nil _ _)
  have hqueued : s.queued ≤ 0 := by
    have := h.queued
    rwa [hsent] at this
  have hsend := send_eq (e := e) (s := { s with queued := s.queued - e.acked, rx := s.rx.drop c.greeting.length })
    methodReply he.maySend h.opened (show 2 ≤ 8192 - (s.queued - e.acked) by omega)
  have hgreet : greet e { s with queued := s.queued - e.acked } =
      ({ s with queued := s.queued - e.acked + 2, rx := s.rx.drop c.greeting.length
                sent := [methodReply] }, true) := by
    rw [greet, if_neg hne]
    simp only [c.greetingUsed_whole hwhole]
    rw [hsend, hsent]
    rfl
  exact serve_greeting he h hconn hgreet

theorem serve_request {t : Slot} {stream : Option SocketAddr} (he : e.Willing c addrs)
    (h : s.Negotiating) (hconn : s.conn = .request)
    (hconnect : connect e { s with queued := s.queued - e.acked } = (t, stream)) :
    s.serve e = stream.elim t fun addr => { t with conn := .relaying addr } := by
  simp only [hconn, h.target] at hconnect
  simp only [serve, he.active, Bool.true_eq_false, if_false, hconn, h.target, hconnect]
  cases stream with
  | none => rfl
  | some addr => rfl

theorem serve_request_cut (he : e.Willing c addrs) (h : s.Negotiating)
    (hconn : s.conn = .request) (hcut : s.rx <+: c.request.bytes)
    (hlt : s.rx.length < c.request.bytes.length) :
    s.serve e = { s with queued := s.queued - e.acked } := by
  have hconnect : connect e { s with queued := s.queued - e.acked } =
      ({ s with queued := s.queued - e.acked }, none) := by
    rw [connect]
    by_cases hempty : s.rx = []
    · rw [if_pos hempty]
    · rw [if_neg hempty]
      simp only [Request.parseRequest_cut e.resolve hcut hlt]
  exact serve_request he h hconn hconnect

theorem serve_request_whole {addr : SocketAddr} (he : e.Willing c addrs) (h : s.Negotiating)
    (hconn : s.conn = .request) (hwhole : c.request.bytes <+: s.rx)
    (hsent : s.sent = [methodReply]) (haddr : c.request.target e.resolve = some addr) :
    s.serve e = { s with
      queued := s.queued - e.acked + 10, rx := s.rx.drop c.request.bytes.length
      sent := [methodReply, successReply], dialled := [addr], conn := .relaying addr } := by
  have hne : s.rx ≠ [] := hwhole.ne_nil (by cases c.request <;> exact List.cons_ne_nil _ _)
  have hqueued : s.queued ≤ 2 := by
    have := h.queued
    rwa [hsent] at this
  have hsend := send_eq (e := e) (s := { s with
      queued := s.queued - e.acked, rx := s.rx.drop c.request.bytes.length, dialled := [addr] })
    successReply he.maySend h.opened (show 10 ≤ 8192 - (s.queued - e.acked) by omega)
  have hconnect : connect e { s with queued := s.queued - e.acked } =
      ({ s with
          queued := s.queued - e.acked + 10, rx := s.rx.drop c.request.bytes.length
          sent := [methodReply, successReply], dialled := [addr] }, some addr) := by
    rw [connect, if_neg hne]
    simp only [Request.parseRequest_whole e.resolve haddr hwhole, he.dials, if_true, h.dialled,
      List.nil_append]
    rw [hsend, hsent]
    rfl
  exact serve_request he h hconn hconnect

theorem relayOut_eq (h : e.write ≠ .failed) :
    s.relayOut e =
      { s with rx := s.rx.drop e.write.taken, toLan := s.toLan ++ s.rx.take e.write.taken } := by
  rw [relayOut]
  by_cases hempty : s.rx = []
  · rw [if_pos hempty]
    cases s
    cases hempty
    simp
  · rw [if_neg hempty]
    cases hwrite : e.write with
    | wrote n => rfl
    | wouldBlock => simp [Write.taken]
    | failed => exact absurd hwrite h

/-- The other direction only adds what the LAN said to what was sent. -/
theorem relayIn_spec (e : Env) (s : Slot) :
    ∃ got, (s.relayIn e).sent = s.sent ++ got ∧ (s.relayIn e).fromLan = s.fromLan ++ got ∧
      (s.relayIn e).rx = s.rx ∧ (s.relayIn e).toLan = s.toLan ∧ (s.relayIn e).conn = s.conn ∧
      (s.relayIn e).dialled = s.dialled := by
  have hsame : ∃ got, s.sent = s.sent ++ got ∧ s.fromLan = s.fromLan ++ got ∧ s.rx = s.rx ∧
      s.toLan = s.toLan ∧ s.conn = s.conn ∧ s.dialled = s.dialled := ⟨[], by simp⟩
  rw [relayIn]
  split
  · next hsend =>
    obtain ⟨hmay, hopen, hfull⟩ := hsend
    cases e.read with
    | wouldBlock => exact hsame
    | failed => exact hsame
    | got bytes =>
      cases bytes with
      | nil => exact hsame
      | cons b bs =>
        -- what was asked for fits
        have hfits : ((b :: bs).take (min (tcpBuffer - s.queued) 2048)).length ≤
            tcpBuffer - s.queued := by
          rw [List.length_take]
          omega
        have hsend := send_eq (e := e) (s := { s with
          fromLan := s.fromLan ++ [(b :: bs).take (min (tcpBuffer - s.queued) 2048)] })
          _ hmay hopen hfits
        refine ⟨[(b :: bs).take (min (tcpBuffer - s.queued) 2048)], ?_⟩
        simp only [hsend, and_self]
  · exact hsame

theorem serve_relaying {addr : SocketAddr} (he : e.Willing c addrs)
    (hconn : s.conn = .relaying addr) :
    s.serve e = relay e { s with queued := s.queued - e.acked } := by
  simp only [serve, he.active, Bool.true_eq_false, if_false, hconn]

/-! ### A client served -/

/-- How far a socket is with a client of which it has received `arrived`. -/
inductive Served (c : Client) (addrs : Set SocketAddr) (arrived : List UInt8) (s : Slot) : Prop
  /-- Waiting for the greeting: nothing was consumed and nothing sent. -/
  | greeting (hconn : s.conn = .greeting) (hnew : s.Negotiating)
      (hstream : Fifo.Step [] arrived [] s.rx) (hsent : s.sent = [])
  /-- The greeting was consumed and answered. -/
  | request (hconn : s.conn = .request) (hnew : s.Negotiating)
      (hstream : Fifo.Step [] arrived c.greeting s.rx) (hsent : s.sent = [methodReply])
  /-- Both messages were consumed and answered, and the LAN has what follows. -/
  | relaying (addr : SocketAddr) (haddr : addr ∈ addrs) (hconn : s.conn = .relaying addr)
      (hdialled : s.dialled = [addr])
      (hstream : Fifo.Step [] arrived (c.greeting ++ (c.request.bytes ++ s.toLan)) s.rx)
      (hsent : s.sent = methodReply :: successReply :: s.fromLan)

/-- What happens to one socket. -/
inductive Happens
  | arrives (bytes : List UInt8)
  | serve (e : Env)

namespace Happens

/-- What the event brings. -/
def bytes : Happens → List UInt8
  | arrives bytes => bytes
  | serve _ => []

/-- The socket is served, and the LAN would take a byte at least. -/
def writes : Happens → Bool
  | arrives _ => false
  | serve e => decide (0 < e.write.taken)

end Happens

/-- What arrives over a run. -/
def arrivedBy (events : List Happens) : List UInt8 := events.flatMap Happens.bytes

/-- One event of the slot. -/
def step (s : Slot) : Happens → Slot
  | .arrives bytes => { s with rx := s.rx ++ bytes }
  | .serve e => s.serve e

/-- The slot after a list of events. -/
def run (s : Slot) (events : List Happens) : Slot := events.foldl step s

/-- The way of a connection. -/
inductive Moves : Conn → Conn → Prop
  | stays (conn : Conn) : Moves conn conn
  | greeted : Moves .greeting .request
  | connected (addr : SocketAddr) : Moves .request (.relaying addr)

/-- The replies and the bytes for the LAN that a client is still owed once all
its bytes are there. -/
def owed (c : Client) (s : Slot) : ℕ :=
  (match s.conn with
    | .greeting => 2
    | .request => 1
    | .relaying _ => 0) + (c.app.length - s.toLan.length)

/-- What one event does to a socket in the middle of serving a client. -/
structure Advances (c : Client) (addrs : Set SocketAddr) (arrived : List UInt8) (s : Slot)
    (ev : Happens) : Prop where
  served : Served c addrs (arrived ++ ev.bytes) (s.step ev)
  moves : Moves s.conn (s.step ev).conn
  owed_le : arrived = c.bytes → owed c (s.step ev) ≤ owed c s - if ev.writes then 1 else 0

theorem Served.arrives {arrived : List UInt8} (h : Served c addrs arrived s)
    (bytes : List UInt8) : Advances c addrs arrived s (.arrives bytes) := by
  refine ⟨?_, .stays _, fun _ => Nat.le_refl _⟩
  have hmore : ∀ {consumed}, Fifo.Step [] arrived consumed s.rx →
      Fifo.Step [] (arrived ++ bytes) consumed (s.rx ++ bytes) := by
    intro consumed hstream
    have := hstream.trans (Fifo.Step.enter s.rx bytes)
    rwa [List.append_nil] at this
  cases h with
  | greeting hconn hnew hstream hsent =>
    exact .greeting hconn ⟨hnew.1, hnew.2, hnew.3, hnew.4, hnew.5, hnew.6⟩ (hmore hstream) hsent
  | request hconn hnew hstream hsent =>
    exact .request hconn ⟨hnew.1, hnew.2, hnew.3, hnew.4, hnew.5, hnew.6⟩ (hmore hstream) hsent
  | relaying addr haddr hconn hdialled hstream hsent =>
    exact .relaying addr haddr hconn hdialled (hmore hstream) hsent

/-- A turn that changes nothing but the send queue. -/
theorem Served.waits {arrived : List UInt8} (h : Served c addrs arrived s)
    (hserve : s.serve e = { s with queued := s.queued - e.acked }) (hpart : arrived ≠ c.bytes) :
    Advances c addrs arrived s (.serve e) := by
  refine ⟨?_, ?_, fun hall => absurd hall hpart⟩
  · show Served c addrs (arrived ++ []) (s.serve e)
    rw [List.append_nil, hserve]
    cases h with
    | greeting hconn hnew hstream hsent =>
      exact .greeting hconn ⟨hnew.1, hnew.2, (Nat.sub_le _ _).trans hnew.queued, hnew.4, hnew.5,
        hnew.6⟩ hstream hsent
    | request hconn hnew hstream hsent =>
      exact .request hconn ⟨hnew.1, hnew.2, (Nat.sub_le _ _).trans hnew.queued, hnew.4, hnew.5,
        hnew.6⟩ hstream hsent
    | relaying addr haddr hconn hdialled hstream hsent =>
      exact .relaying addr haddr hconn hdialled hstream hsent
  · show Moves s.conn (s.serve e).conn
    rw [hserve]
    exact .stays _

theorem writes_le_one (ev : Happens) : (if ev.writes = true then 1 else 0) ≤ 1 := by
  split <;> omega

theorem Served.serve_greeting {arrived : List UInt8} (h : Served c addrs arrived s)
    (hconn : s.conn = .greeting) (hnew : s.Negotiating) (hrx : arrived = s.rx)
    (hsent : s.sent = []) (harrived : arrived <+: c.bytes) (he : e.Willing c addrs) :
    Advances c addrs arrived s (.serve e) := by
  have hone := writes_le_one (.serve e)
  rcases prefix_or_proper (hrx ▸ harrived) with hwhole | ⟨hcut, hlt⟩
  · have hserve := serve_greeting_whole he hnew hconn hwhole hsent
    have hqueued : s.queued ≤ 0 := by
      have := hnew.queued
      rwa [hsent] at this
    constructor
    case served =>
      show Served c addrs (arrived ++ []) (s.serve e)
      rw [List.append_nil, hserve]
      refine .request rfl ⟨hnew.1, hnew.2, ?_, hnew.4, hnew.5, hnew.6⟩ ?_ rfl
      · show s.queued - e.acked + 2 ≤ 2
        omega
      · show arrived = c.greeting ++ s.rx.drop c.greeting.length
        rw [hrx]
        exact (List.prefix_iff_eq_append.mp hwhole).symm
    case moves =>
      show Moves s.conn (s.serve e).conn
      rw [hserve, hconn]
      exact .greeted
    case owed_le =>
      intro _
      show owed c (s.serve e) ≤ _
      rw [hserve, owed, owed, hconn]
      simp only
      omega
  · -- a whole stream holds a whole greeting
    refine h.waits (serve_greeting_cut he hnew hconn hcut hlt) fun hall => ?_
    rw [← hrx, hall, Client.bytes, List.length_append] at hlt
    omega

theorem Served.serve_request {arrived : List UInt8} (h : Served c addrs arrived s)
    (hconn : s.conn = .request) (hnew : s.Negotiating) (hrx : arrived = c.greeting ++ s.rx)
    (hsent : s.sent = [methodReply]) (harrived : arrived <+: c.bytes) (he : e.Willing c addrs) :
    Advances c addrs arrived s (.serve e) := by
  have hone := writes_le_one (.serve e)
  have hrest : s.rx <+: c.request.bytes ++ c.app := by
    rw [hrx, Client.bytes] at harrived
    exact (List.prefix_append_right_inj _).mp harrived
  rcases prefix_or_proper hrest with hwhole | ⟨hcut, hlt⟩
  · obtain ⟨addr, hmem, haddr⟩ := he.resolves
    have hserve := serve_request_whole he hnew hconn hwhole hsent haddr
    constructor
    case served =>
      show Served c addrs (arrived ++ []) (s.serve e)
      rw [List.append_nil, hserve]
      refine .relaying addr hmem rfl rfl ?_ ?_
      · -- the request is taken off, and the LAN has nothing yet
        show arrived = c.greeting ++ (c.request.bytes ++ s.toLan) ++ s.rx.drop _
        rw [hnew.toLan, List.append_nil, hrx, List.append_assoc]
        congr 1
        exact (List.prefix_iff_eq_append.mp hwhole).symm
      · show [methodReply, successReply] = methodReply :: successReply :: s.fromLan
        rw [hnew.fromLan]
    case moves =>
      show Moves s.conn (s.serve e).conn
      rw [hserve, hconn]
      exact .connected addr
    case owed_le =>
      intro _
      show owed c (s.serve e) ≤ _
      rw [hserve, owed, owed, hconn]
      simp only
      omega
  · -- a whole stream holds a whole request
    refine h.waits (serve_request_cut he hnew hconn hcut hlt) fun hall => ?_
    have hrx' : s.rx = c.request.bytes ++ c.app := by
      rw [hall, Client.bytes] at hrx
      exact (List.append_cancel_left hrx).symm
    rw [hrx', List.length_append] at hlt
    omega

theorem serve_relays {addr : SocketAddr} {arrived : List UInt8} (haddr : addr ∈ addrs)
    (hconn : s.conn = .relaying addr) (hdialled : s.dialled = [addr])
    (hstream : Fifo.Step [] arrived (c.greeting ++ (c.request.bytes ++ s.toLan)) s.rx)
    (hsent : s.sent = methodReply :: successReply :: s.fromLan) (he : e.Willing c addrs) :
    Advances c addrs arrived s (.serve e) := by
  obtain ⟨got, hgot, hfrom, hrx, hlan, hconn', hdialled'⟩ := relayIn_spec e
    { s with
      queued := s.queued - e.acked, rx := s.rx.drop e.write.taken
      toLan := s.toLan ++ s.rx.take e.write.taken }
  have hserve : s.serve e = relayIn e { s with
      queued := s.queued - e.acked, rx := s.rx.drop e.write.taken
      toLan := s.toLan ++ s.rx.take e.write.taken } := by
    rw [serve_relaying he hconn, relay, relayOut_eq he.writes]
  rw [← hserve] at hgot hfrom hrx hlan hconn' hdialled'
  constructor
  case served =>
    show Served c addrs (arrived ++ []) (s.serve e)
    rw [List.append_nil]
    refine .relaying addr haddr (hconn'.trans hconn) (hdialled'.trans hdialled) ?_ ?_
    · rw [hrx, hlan]
      have := hstream.trans (Fifo.Step.leave s.rx e.write.taken)
      simpa only [List.append_nil, List.append_assoc] using this
    · rw [hgot, hfrom, hsent]
      rfl
  case moves =>
    show Moves s.conn (s.serve e).conn
    rw [hconn']
    exact .stays _
  case owed_le =>
    intro hall
    show owed c (s.serve e) ≤ _
    have hlen := congrArg List.length (c.app_eq (hall ▸ hstream))
    rw [List.length_append] at hlen
    rw [owed, owed, hconn', hconn, hlan, List.length_append, List.length_take]
    simp only [Happens.writes, decide_eq_true_eq]
    split <;> omega

theorem Served.serve {arrived : List UInt8} (h : Served c addrs arrived s)
    (harrived : arrived <+: c.bytes) (he : e.Willing c addrs) :
    Advances c addrs arrived s (.serve e) := by
  cases id h with
  | greeting hconn hnew hstream hsent =>
    exact h.serve_greeting hconn hnew hstream hsent harrived he
  | request hconn hnew hstream hsent =>
    exact h.serve_request hconn hnew hstream hsent harrived he
  | relaying addr haddr hconn hdialled hstream hsent =>
    exact serve_relays haddr hconn hdialled hstream hsent he

theorem Served.step {arrived : List UInt8} (h : Served c addrs arrived s) (ev : Happens)
    (hev : ∀ e, ev = .serve e → e.Willing c addrs) (harrived : arrived <+: c.bytes) :
    Advances c addrs arrived s ev := by
  cases ev with
  | arrives bytes => exact h.arrives bytes
  | serve e => exact h.serve harrived (hev e rfl)

/-! ### Runs -/

theorem Served.run {arrived : List UInt8} (h : Served c addrs arrived s) {events : List Happens}
    (hevents : ∀ e, Happens.serve e ∈ events → e.Willing c addrs)
    (harrived : arrived ++ arrivedBy events <+: c.bytes) :
    Served c addrs (arrived ++ arrivedBy events) (s.run events) := by
  induction events generalizing s arrived with
  | nil => rwa [arrivedBy, List.flatMap_nil, List.append_nil]
  | cons ev events ih =>
    have hcons : arrivedBy (ev :: events) = ev.bytes ++ arrivedBy events := List.flatMap_cons
    rw [hcons, ← List.append_assoc] at harrived ⊢
    have hfirst := (List.prefix_append _ _).trans ((List.prefix_append _ _).trans harrived)
    have hstep := h.step ev (fun e he => hevents e (he ▸ List.mem_cons_self)) hfirst
    exact ih hstep.served (fun e he => hevents e (List.mem_cons_of_mem _ he)) harrived

/-- Every turn in which the LAN takes something settles some of what is owed. -/
theorem Served.owed_run (h : Served c addrs c.bytes s) {events : List Happens}
    (hevents : ∀ e, Happens.serve e ∈ events → e.Willing c addrs)
    (hnone : arrivedBy events = []) :
    owed c (s.run events) ≤ owed c s - events.countP Happens.writes := by
  induction events generalizing s with
  | nil => exact Nat.le_refl _
  | cons ev events ih =>
    have hcons : arrivedBy (ev :: events) = ev.bytes ++ arrivedBy events := List.flatMap_cons
    obtain ⟨hbytes, hrest⟩ := List.append_eq_nil_iff.mp (hcons.symm.trans hnone)
    have hstep := h.step ev (fun e he => hevents e (he ▸ List.mem_cons_self)) List.prefix_rfl
    have hserved := hstep.served
    rw [hbytes, List.append_nil] at hserved
    have hle := ih hserved (fun e he => hevents e (List.mem_cons_of_mem _ he)) hrest
    have howed := hstep.owed_le rfl
    show owed c ((s.step ev).run events) ≤ _
    rw [List.countP_cons]
    omega

theorem owed_le (c : Client) (s : Slot) : owed c s ≤ 2 + c.app.length := by
  rw [owed]
  split <;> omega

/-- Once nothing is owed, the LAN has everything. -/
theorem Served.of_owed_eq_zero (h : Served c addrs c.bytes s) (howed : owed c s = 0) :
    (∃ addr ∈ addrs, s.conn = .relaying addr) ∧ s.toLan = c.app := by
  cases h with
  | greeting hconn hnew hstream hsent =>
    rw [owed, hconn] at howed
    simp only at howed
    omega
  | request hconn hnew hstream hsent =>
    rw [owed, hconn] at howed
    simp only at howed
    omega
  | relaying addr haddr hconn hdialled hstream hsent =>
    have hrest := c.app_eq hstream
    have hlen : c.app.length ≤ s.toLan.length := by
      rw [owed, hconn] at howed
      simp only at howed
      omega
    exact ⟨⟨addr, haddr, hconn⟩, List.IsPrefix.eq_of_length_le ⟨s.rx, hrest.symm⟩ hlen⟩

/-- What the LAN has is the application data, as far as it goes. -/
theorem Served.toLan_prefix {arrived : List UInt8} (h : Served c addrs arrived s)
    (harrived : arrived <+: c.bytes) : s.toLan <+: c.app := by
  cases h with
  | greeting hconn hnew hstream hsent => exact hnew.toLan ▸ List.nil_prefix
  | request hconn hnew hstream hsent => exact hnew.toLan ▸ List.nil_prefix
  | relaying addr haddr hconn hdialled hstream hsent =>
    have hfront := hstream.isPrefix.trans harrived
    rw [Client.bytes, List.prefix_append_right_inj, List.prefix_append_right_inj] at hfront
    exact hfront

end Slot

/-! ### The stack -/

/-- What an event of the stack is for its socket `i`. -/
def Event.at (i : ℕ) : Event → Slot.Happens
  | deliver j bytes => .arrives (if j = i then bytes else [])
  | serve env => .serve (env i)

namespace TunnelStack

theorem getElem?_step (i : ℕ) (stack : TunnelStack) (ev : Event) :
    (stack.step ev)[i]? = stack[i]?.map fun s => s.step (ev.at i) := by
  cases ev with
  | deliver j bytes =>
    rw [step, List.getElem?_modify]
    by_cases hij : j = i
    · simp only [Event.at, hij, if_true, Slot.step]
      rfl
    · simp only [Event.at, hij, if_false, Slot.step, List.append_nil]
      cases stack[i]? <;> rfl
  | serve env =>
    rw [step, serve, List.getElem?_mapIdx]
    rfl

/-- The sockets do not meet. -/
theorem getElem?_run (i : ℕ) (stack : TunnelStack) (events : List Event) :
    (stack.run events)[i]? = stack[i]?.map fun s => s.run (events.map (Event.at i)) := by
  induction events generalizing stack with
  | nil => exact Option.map_id'.symm
  | cons ev events ih =>
    show ((stack.step ev).run events)[i]? = _
    rw [ih, getElem?_step, Option.map_map]
    rfl

/-- What arrives at one socket. -/
def arrivedAt (i : ℕ) (events : List Event) : List UInt8 :=
  Slot.arrivedBy (events.map (Event.at i))

/-- How often one socket is served while the LAN would take a byte of it. -/
def writesAt (i : ℕ) (events : List Event) : ℕ :=
  (events.map (Event.at i)).countP Slot.Happens.writes

theorem arrivedAt_append (i : ℕ) (before after : List Event) :
    arrivedAt i (before ++ after) = arrivedAt i before ++ arrivedAt i after := by
  rw [arrivedAt, List.map_append, Slot.arrivedBy, List.flatMap_append]
  rfl

theorem willing_at {c : Client} {addrs : Set SocketAddr} {i : ℕ} {events : List Event}
    (henv : ∀ env, Event.serve env ∈ events → (env i).Willing c addrs) :
    ∀ e, Slot.Happens.serve e ∈ events.map (Event.at i) → e.Willing c addrs := by
  intro e he
  obtain ⟨ev, hmem, hev⟩ := List.mem_map.mp he
  cases ev with
  | deliver j bytes => cases hev
  | serve env =>
    cases hev
    exact henv env hmem

/-- The socket of a new client, after a run. -/
theorem served_at {c : Client} {addrs : Set SocketAddr} {i : ℕ} {stack : TunnelStack}
    (hnew : stack[i]? = some { target := .socks }) {events : List Event}
    (henv : ∀ env, Event.serve env ∈ events → (env i).Willing c addrs)
    (harrived : arrivedAt i events <+: c.bytes) :
    ∃ s, (run stack events)[i]? = some s ∧ Slot.Served c addrs (arrivedAt i events) s := by
  have hfresh : Slot.Served c addrs [] { target := .socks } :=
    .greeting rfl ⟨rfl, rfl, Nat.le_refl _, rfl, rfl, rfl⟩ rfl rfl
  refine ⟨_, ?_, hfresh.run (willing_at henv) harrived⟩
  rw [getElem?_run, hnew]
  rfl

theorem getElem?_run_append {i : ℕ} {stack : TunnelStack} {before after : List Event} {s : Slot}
    (h : (run stack before)[i]? = some s) :
    (run stack (before ++ after))[i]? = some (s.run (after.map (Event.at i))) := by
  have hsplit : run stack (before ++ after) = run (run stack before) after := List.foldl_append
  rw [hsplit, getElem?_run, h]
  rfl

/-- **A client is served**, in whatever segments its bytes come and however the
turns of the stack fall among them: its socket is always where its bytes say,
it goes from the greeting to the request and on to the relay, the LAN has what
it may have by then, and all of it after enough turns. -/
theorem serve_socks (c : Client) (addrs : Set SocketAddr) (i : ℕ) (stack : TunnelStack)
    (hnew : stack[i]? = some { target := .socks }) (events : List Event)
    (henv : ∀ env, Event.serve env ∈ events → (env i).Willing c addrs)
    (harrived : arrivedAt i events <+: c.bytes) :
    ∃ s, (run stack events)[i]? = some s ∧
      Slot.Served c addrs (arrivedAt i events) s ∧ s.toLan <+: c.app ∧
      (∀ before ev, before ++ [ev] <+: events →
        ∃ t t', (run stack before)[i]? = some t ∧ (run stack (before ++ [ev]))[i]? = some t' ∧
          Slot.Moves t.conn t'.conn) ∧
      ∀ before after, events = before ++ after → arrivedAt i before = c.bytes →
        2 + c.app.length ≤ writesAt i after →
        (∃ addr ∈ addrs, s.conn = .relaying addr) ∧ s.toLan = c.app := by
  -- the invariant holds behind every part of the run
  have hpart : ∀ before after, events = before ++ after → arrivedAt i before <+: c.bytes ∧
      ∃ t, (run stack before)[i]? = some t ∧ Slot.Served c addrs (arrivedAt i before) t := by
    rintro before after rfl
    rw [arrivedAt_append] at harrived
    have hfront := (List.prefix_append _ _).trans harrived
    exact ⟨hfront, served_at hnew (fun env h => henv env (List.mem_append_left _ h)) hfront⟩
  obtain ⟨-, s, hs, hserved⟩ := hpart events [] (List.append_nil _).symm
  refine ⟨s, hs, hserved, hserved.toLan_prefix harrived, ?_, ?_⟩
  · rintro before ev ⟨after, rfl⟩
    obtain ⟨hfront, t, ht, hmid⟩ := hpart before ([ev] ++ after) (List.append_assoc _ _ _)
    have hev : ∀ e, ev.at i = .serve e → e.Willing c addrs := fun e he =>
      willing_at henv e (by rw [List.map_append, List.map_append, ← he]; simp)
    exact ⟨t, _, ht, getElem?_run_append ht, (hmid.step (ev.at i) hev hfront).moves⟩
  · rintro before after rfl hall hwrites
    obtain ⟨-, t, ht, hmid⟩ := hpart before after rfl
    have henv' := willing_at fun env h => henv env (List.mem_append_right before h)
    rw [arrivedAt_append, hall] at harrived
    -- nothing is left to arrive
    have hnone : arrivedAt i after = [] := by
      have hlen := harrived.length_le
      rw [List.length_append] at hlen
      exact List.eq_nil_of_length_eq_zero (by omega)
    rw [arrivedAt_append, hall, hnone, List.append_nil] at hserved
    rw [hall] at hmid
    obtain rfl := Option.some.inj (hs.symm.trans (getElem?_run_append ht))
    have howed := hmid.owed_run henv' hnone
    have hbound := Slot.owed_le c t
    rw [writesAt] at hwrites
    exact hserved.of_owed_eq_zero (by omega)

/-- A request whose last segment brings a byte for the LAN, and a second one
later; the LAN takes a byte at a time. -/
theorem serve_socks_coalesced :
    let env : ℕ → Env := fun _ =>
      { acked := 2, active := true, maySend := true, resolve := fun _ _ => none, dials := true
        write := .wrote 1, read := .wouldBlock }
    let before : List Event :=
      [.deliver 1 [5], .serve env, .deliver 1 [1, 0, 5, 1], .serve env, .deliver 0 [5, 2],
        .deliver 1 [0, 1, 192, 168, 1, 2, 0, 80, 71], .serve env, .deliver 1 [69]]
    let after : List Event := [.serve env, .serve env, .serve env, .serve env]
    ∃ s, (run [{ target := .socks }, { target := .socks }] (before ++ after))[1]? = some s ∧
      s.toLan = [71, 69] := by
  intro env before after
  let c : Client :=
    { methods := ⟨[0], by decide⟩, request := .ipv4 0 ⟨#[192, 168, 1, 2], rfl⟩ 80
      app := [71, 69] }
  have hwilling : ∀ env', Event.serve env' ∈ before ++ after →
      (env' 1).Willing c {.v4 ⟨#[192, 168, 1, 2], rfl⟩ 80} := by
    intro env' henv
    have : env' = env := by
      simpa [before, after] using henv
    rw [this]
    exact ⟨rfl, rfl, ⟨_, rfl, rfl⟩, rfl, by decide⟩
  obtain ⟨s, hs, -, -, -, hall⟩ := serve_socks c {.v4 ⟨#[192, 168, 1, 2], rfl⟩ 80} 1
    [{ target := .socks }, { target := .socks }] rfl (before ++ after) hwilling
    (by decide +kernel)
  exact ⟨s, hs, (hall before after rfl (by decide +kernel) (by decide +kernel)).2⟩

end TunnelStack

end Lando.Host.Tunnel
