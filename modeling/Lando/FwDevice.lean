/-
Lando/FwDevice.lean

The tunnel as a device of the TCP/IP stack (`TunnelDevice`, `deliver` and
`take_outbound`, `lando-fw/src/tunnel.rs`).

Two queues of twelve packets lie between WireGuard and the stack.  What the stack
does with the device while it is polled is an argument: any list of calls.  Each
queue is a `Fifo.Step`, and so is a run.

A packet that finds twelve in front of it is lost on its way in, and so is a reply
on its way out; only the former is counted.  `deliver` polls the stack at once, so
when the stack reads what there is, nothing is lost on the way in
(`queues_account`).
-/
import Lando.Fifo
import Lando.FwRelay

namespace Lando.Fw.Device

/-! ### The device -/

/-- `MTU`. -/
def mtu : ℕ := 1400

/-- `QUEUE`. -/
def queue : ℕ := 12

/-- A packet of the tunnel's size. -/
structure Packet where
  bytes : List UInt8
  fits : bytes.length ≤ mtu
  deriving DecidableEq

/-- A packet that is longer is not made. -/
def Packet.new (bytes : List UInt8) : Option Packet :=
  if h : bytes.length ≤ mtu then some ⟨bytes, h⟩ else none

/-- Either queue is a vector of which the first element is removed. -/
structure TunnelDevice where
  inbound : Channel Packet queue
  outbound : Channel Packet queue

/-- What the stack does with the device. -/
inductive Call
  /-- It takes the oldest packet, and may write one with the token that comes with
  it. -/
  | receive (reply : Option Packet)
  | transmit (packet : Packet)

/-- What becomes of a packet. -/
inductive Fate
  | entered
  | overflowed
  | received
  | written
  | lost
  | taken
  deriving DecidableEq

/-- What became of packets, in order. -/
abbrev Notes := List (Fate × Packet)

namespace TunnelDevice

/-- `TxToken::consume`. -/
def consume (d : TunnelDevice) (p : Packet) : TunnelDevice × Notes :=
  if d.outbound.items.length < queue then
    ({ d with outbound := d.outbound.trySend p }, [(.written, p)])
  else (d, [(.lost, p)])

/-- One call of smoltcp on the device; a received packet may be answered at once. -/
def call (d : TunnelDevice) : Call → TunnelDevice × Notes
  | .receive reply =>
      match d.inbound.tryReceive with
      | none => (d, [])
      | some (p, inbound) =>
          let d := { d with inbound := inbound }
          match reply with
          | none => (d, [(.received, p)])
          | some reply =>
              let (d, notes) := d.consume reply
              (d, (.received, p) :: notes)
  | .transmit p =>
      -- no token for a full queue
      if d.outbound.items.length < queue then d.consume p else (d, [])

end TunnelDevice

/-- The device between the WireGuard task and smoltcp, and its counter of drops. -/
structure Tunnel where
  device : TunnelDevice
  dropped : UInt32

/-- What is done with the tunnel. -/
inductive Event
  | deliver (packet : List UInt8) (calls : List Call)
  | poll (calls : List Call)
  | takeOutbound

namespace Tunnel

/-- Empty queues. -/
def start : Tunnel := ⟨⟨.new, .new⟩, 0⟩

/-- A poll of the stack. -/
def poll (t : Tunnel) : List Call → Tunnel × Notes
  | [] => (t, [])
  | c :: calls =>
      let (device, notes) := t.device.call c
      let (t, later) := poll { t with device := device } calls
      (t, notes ++ later)

/-- The queue half of `deliver`. -/
def push (t : Tunnel) (packet : List UInt8) : Tunnel × Notes :=
  match Packet.new packet with
  | none => (t, [])
  | some p =>
      if t.device.inbound.items.length < queue then
        ({ t with device := { t.device with inbound := t.device.inbound.trySend p } },
          [(.entered, p)])
      -- wraps
      else ({ t with dropped := t.dropped + 1 }, [(.overflowed, p)])

/-- A decrypted packet goes in, and smoltcp polls. -/
def deliver (t : Tunnel) (packet : List UInt8) (calls : List Call) : Tunnel × Notes :=
  let (t, notes) := t.push packet
  let (t, later) := t.poll calls
  (t, notes ++ later)

/-- The WireGuard task takes the oldest packet that waits to be sent. -/
def takeOutbound (t : Tunnel) : Tunnel × Notes :=
  match t.device.outbound.tryReceive with
  | none => (t, [])
  | some (p, outbound) =>
      ({ t with device := { t.device with outbound := outbound } }, [(.taken, p)])

/-- One event. -/
def step (t : Tunnel) : Event → Tunnel × Notes
  | .deliver packet calls => t.deliver packet calls
  | .poll calls => t.poll calls
  | .takeOutbound => t.takeOutbound

/-- A run, with all its notes. -/
def run (t : Tunnel) : List Event → Tunnel × Notes
  | [] => (t, [])
  | e :: events =>
      let (t, notes) := t.step e
      let (t, later) := t.run events
      (t, notes ++ later)

end Tunnel

/-! ### The books -/

/-- The packets with this fate, in order. -/
def Notes.of (notes : Notes) (fate : Fate) : List Packet :=
  (notes.filter fun n => n.1 = fate).map Prod.snd

/-- The packets that were to enter. -/
def Notes.offered (notes : Notes) : List Packet :=
  (notes.filter fun n => n.1 = .entered ∨ n.1 = .overflowed).map Prod.snd

section Notes

variable (notes notes' : Notes) (fate : Fate)

@[simp] theorem Notes.of_append :
    Notes.of (notes ++ notes') fate = notes.of fate ++ notes'.of fate := by
  rw [of, List.filter_append, List.map_append]
  rfl

@[simp] theorem Notes.offered_append :
    Notes.offered (notes ++ notes') = notes.offered ++ notes'.offered := by
  rw [offered, List.filter_append, List.map_append]
  rfl

end Notes

/-- What a step does: either queue lets out in front what went in behind, and what
overflows is counted. -/
structure Accounts (t : Tunnel) (notes : Notes) (t' : Tunnel) : Prop where
  inbound : Fifo.Step t.device.inbound.items (notes.of .entered) (notes.of .received)
    t'.device.inbound.items
  outbound : Fifo.Step t.device.outbound.items (notes.of .written) (notes.of .taken)
    t'.device.outbound.items
  dropped : t'.dropped = t.dropped + .ofNat (notes.of .overflowed).length

namespace Accounts

variable {t t' t'' : Tunnel} {notes notes' : Notes}

theorem idle (t : Tunnel) : Accounts t [] t :=
  ⟨.idle _, .idle _, (UInt32.add_zero _).symm⟩

theorem trans (h : Accounts t notes t') (h' : Accounts t' notes' t'') :
    Accounts t (notes ++ notes') t'' := by
  refine ⟨?_, ?_, ?_⟩
  · rw [Notes.of_append, Notes.of_append]
    exact h.inbound.trans h'.inbound
  · rw [Notes.of_append, Notes.of_append]
    exact h.outbound.trans h'.outbound
  · rw [h'.dropped, h.dropped, Notes.of_append, List.length_append, UInt32.ofNat_add,
      UInt32.add_assoc]

end Accounts

/-! ### Steps -/

namespace Tunnel

theorem accounts_consume (t : Tunnel) (p : Packet) :
    Accounts t (t.device.consume p).2 { t with device := (t.device.consume p).1 } := by
  unfold TunnelDevice.consume
  split_ifs with h
  · refine ⟨.idle _, ?_, (UInt32.add_zero _).symm⟩
    show Fifo.Step _ [p] [] (t.device.outbound.trySend p).items
    rw [Channel.items_trySend h]
    exact .enter _ _
  · exact ⟨.idle _, .idle _, (UInt32.add_zero _).symm⟩

theorem accounts_call (t : Tunnel) (c : Call) :
    Accounts t (t.device.call c).2 { t with device := (t.device.call c).1 } := by
  cases c with
  | receive reply =>
    rcases t.device.inbound.tryReceive_cases with ⟨-, he⟩ | ⟨p, rest, hitems, he⟩
    · simp only [TunnelDevice.call, he]
      exact .idle t
    · have htake : Accounts t [(.received, p)]
          { t with device := { t.device with inbound := rest } } := by
        refine ⟨?_, .idle _, (UInt32.add_zero _).symm⟩
        show Fifo.Step t.device.inbound.items [] [p] rest.items
        rw [hitems]
        exact .leave (p :: rest.items) 1
      cases reply with
      | none =>
        simp only [TunnelDevice.call, he]
        exact htake
      | some r =>
        simp only [TunnelDevice.call, he]
        exact htake.trans
          (accounts_consume { t with device := { t.device with inbound := rest } } r)
  | transmit p =>
    simp only [TunnelDevice.call]
    split_ifs
    · exact accounts_consume t p
    · exact .idle t

theorem accounts_poll (t : Tunnel) (calls : List Call) :
    Accounts t (t.poll calls).2 (t.poll calls).1 := by
  induction calls generalizing t with
  | nil => exact .idle t
  | cons c calls ih => exact (accounts_call t c).trans (ih _)

theorem accounts_push (t : Tunnel) (packet : List UInt8) :
    Accounts t (t.push packet).2 (t.push packet).1 := by
  unfold push
  rcases Packet.new packet with - | p
  · exact .idle t
  · simp only
    split_ifs with h
    · refine ⟨?_, .idle _, (UInt32.add_zero _).symm⟩
      show Fifo.Step _ [p] [] (t.device.inbound.trySend p).items
      rw [Channel.items_trySend h]
      exact .enter _ _
    · exact ⟨.idle _, .idle _, rfl⟩

theorem accounts_takeOutbound (t : Tunnel) :
    Accounts t t.takeOutbound.2 t.takeOutbound.1 := by
  unfold takeOutbound
  rcases t.device.outbound.tryReceive_cases with ⟨-, he⟩ | ⟨p, rest, hitems, he⟩
  · rw [he]
    exact .idle t
  · rw [he]
    refine ⟨.idle _, ?_, (UInt32.add_zero _).symm⟩
    show Fifo.Step t.device.outbound.items [] [p] rest.items
    rw [hitems]
    exact .leave (p :: rest.items) 1

theorem accounts_step (t : Tunnel) (e : Event) : Accounts t (t.step e).2 (t.step e).1 := by
  cases e with
  | deliver packet calls => exact (accounts_push t packet).trans (accounts_poll _ calls)
  | poll calls => exact accounts_poll t calls
  | takeOutbound => exact accounts_takeOutbound t

theorem accounts_run (t : Tunnel) (events : List Event) :
    Accounts t (t.run events).2 (t.run events).1 := by
  induction events generalizing t with
  | nil => exact .idle t
  | cons e events ih => exact (accounts_step t e).trans (ih _)

/-! ### What was to enter -/

theorem offered_consume (d : TunnelDevice) (p : Packet) :
    (d.consume p).2.offered = [] ∧ (d.consume p).2.of .overflowed = [] := by
  unfold TunnelDevice.consume
  split_ifs
  · exact ⟨rfl, rfl⟩
  · exact ⟨rfl, rfl⟩

/-- The stack lets nothing in. -/
theorem offered_call (d : TunnelDevice) (c : Call) :
    (d.call c).2.offered = [] ∧ (d.call c).2.of .overflowed = [] := by
  cases c with
  | receive reply =>
    rcases d.inbound.tryReceive_cases with ⟨-, he⟩ | ⟨p, rest, -, he⟩
    · simp only [TunnelDevice.call, he]
      exact ⟨rfl, rfl⟩
    · cases reply with
      | none =>
        simp only [TunnelDevice.call, he]
        exact ⟨rfl, rfl⟩
      | some r =>
        simp only [TunnelDevice.call, he]
        exact offered_consume { d with inbound := rest } r
  | transmit p =>
    simp only [TunnelDevice.call]
    split_ifs
    · exact offered_consume d p
    · exact ⟨rfl, rfl⟩

theorem offered_poll (t : Tunnel) (calls : List Call) :
    (t.poll calls).2.offered = [] ∧ (t.poll calls).2.of .overflowed = [] := by
  induction calls generalizing t with
  | nil => exact ⟨rfl, rfl⟩
  | cons c calls ih =>
    obtain ⟨hcall, hcall'⟩ := offered_call t.device c
    obtain ⟨hpoll, hpoll'⟩ := ih { t with device := (t.device.call c).1 }
    exact ⟨(Notes.offered_append _ _).trans (congrArg₂ (· ++ ·) hcall hpoll),
      (Notes.of_append _ _ _).trans (congrArg₂ (· ++ ·) hcall' hpoll')⟩

theorem offered_push (t : Tunnel) (packet : List UInt8) :
    (t.push packet).2.offered = (Packet.new packet).toList ∧
      (t.device.inbound.items = [] → (t.push packet).2.of .overflowed = []) := by
  unfold push
  rcases Packet.new packet with - | p
  · exact ⟨rfl, fun _ => rfl⟩
  · simp only
    split_ifs with h
    · exact ⟨rfl, fun _ => rfl⟩
    · refine ⟨rfl, fun hnil => absurd ?_ h⟩
      rw [hnil]
      decide

end Tunnel

/-- The packet of a delivery, if it is one for the tunnel. -/
def Event.packet : Event → Option Packet
  | .deliver packet _ => Packet.new packet
  | _ => none

namespace Tunnel

theorem offered_step (t : Tunnel) (e : Event) :
    (t.step e).2.offered = e.packet.toList ∧
      (t.device.inbound.items = [] → (t.step e).2.of .overflowed = []) := by
  cases e with
  | deliver packet calls =>
    obtain ⟨hpush, hpush'⟩ := offered_push t packet
    obtain ⟨hpoll, hpoll'⟩ := offered_poll (t.push packet).1 calls
    refine ⟨(Notes.offered_append _ _).trans ?_, fun hnil => (Notes.of_append _ _ _).trans ?_⟩
    · exact (congrArg₂ (· ++ ·) hpush hpoll).trans (List.append_nil _)
    · exact congrArg₂ (· ++ ·) (hpush' hnil) hpoll'
  | poll calls => exact ⟨(offered_poll t calls).1, fun _ => (offered_poll t calls).2⟩
  | takeOutbound =>
    show t.takeOutbound.2.offered = [] ∧ (_ → t.takeOutbound.2.of .overflowed = [])
    unfold takeOutbound
    rcases t.device.outbound.tryReceive_cases with ⟨-, he⟩ | ⟨p, rest, -, he⟩
    · rw [he]
      exact ⟨rfl, fun _ => rfl⟩
    · rw [he]
      exact ⟨rfl, fun _ => rfl⟩

theorem offered_run (t : Tunnel) (events : List Event) :
    (t.run events).2.offered = events.filterMap Event.packet := by
  induction events generalizing t with
  | nil => rfl
  | cons e events ih =>
    refine (Notes.offered_append _ _).trans ?_
    refine (congrArg₂ (· ++ ·) (offered_step t e).1 (ih _)).trans ?_
    rw [List.filterMap_cons]
    cases e.packet with
    | none => rfl
    | some p => rfl

/-- When the stack has read what there was before each step, nothing overflows. -/
theorem overflowed_run (t : Tunnel) (events : List Event)
    (h : ∀ before after, events = before ++ after →
      (t.run before).1.device.inbound.items = []) :
    (t.run events).2.of .overflowed = [] := by
  induction events generalizing t with
  | nil => rfl
  | cons e events ih =>
    have hlater := ih (t.step e).1 fun before after he =>
      h (e :: before) after (congrArg (e :: ·) he)
    exact (Notes.of_append _ _ _).trans
      (congrArg₂ (· ++ ·) ((offered_step t e).2 (h [] (e :: events) rfl)) hlater)

end Tunnel

/-- What did not overflow has entered. -/
theorem Notes.offered_eq {notes : Notes} (h : notes.of .overflowed = []) :
    notes.offered = notes.of .entered := by
  rw [of, List.map_eq_nil_iff, List.filter_eq_nil_iff] at h
  rw [offered, of]
  congr 1
  refine List.filter_congr fun n hn => ?_
  have hne : n.1 ≠ .overflowed := fun he => h n hn (decide_eq_true he)
  rw [decide_eq_decide]
  exact or_iff_left hne

/-! ### What is lost on the way out -/

/-- The packet written with the token of another. -/
def Call.reply : Call → Option Packet
  | .receive reply => reply
  | .transmit _ => none

/-- The calls of smoltcp in the event. -/
def Event.calls : Event → List Call
  | .deliver _ calls => calls
  | .poll calls => calls
  | .takeOutbound => []

namespace Tunnel

/-- A token of its own is only handed out when there is room. -/
theorem lost_call (d : TunnelDevice) (c : Call) :
    ((d.call c).2.of .lost).Sublist c.reply.toList := by
  cases c with
  | receive reply =>
    rcases d.inbound.tryReceive_cases with ⟨-, he⟩ | ⟨p, rest, -, he⟩
    · simp only [TunnelDevice.call, he]
      exact List.nil_sublist _
    · cases reply with
      | none =>
        simp only [TunnelDevice.call, he]
        exact List.nil_sublist _
      | some r =>
        simp only [TunnelDevice.call, he, TunnelDevice.consume]
        split_ifs
        · exact List.nil_sublist _
        · exact List.Sublist.refl [r]
  | transmit p =>
    simp only [TunnelDevice.call, TunnelDevice.consume]
    split_ifs
    · exact List.nil_sublist _
    · exact List.nil_sublist _

theorem lost_poll (t : Tunnel) (calls : List Call) :
    ((t.poll calls).2.of .lost).Sublist (calls.filterMap Call.reply) := by
  induction calls generalizing t with
  | nil => exact List.nil_sublist _
  | cons c calls ih =>
    have hcons : (c :: calls).filterMap Call.reply =
        c.reply.toList ++ calls.filterMap Call.reply := by
      rw [List.filterMap_cons]
      cases c.reply with
      | none => rfl
      | some r => rfl
    rw [hcons]
    have happend := (lost_call t.device c).append (ih { t with device := (t.device.call c).1 })
    rwa [← Notes.of_append] at happend

theorem lost_step (t : Tunnel) (e : Event) :
    ((t.step e).2.of .lost).Sublist (e.calls.filterMap Call.reply) := by
  cases e with
  | deliver packet calls =>
    have hpush : (t.push packet).2.of .lost = [] := by
      unfold push
      rcases Packet.new packet with - | p
      · rfl
      · simp only
        split_ifs
        · rfl
        · rfl
    have hpoll := lost_poll (t.push packet).1 calls
    rw [← List.nil_append (Notes.of _ _), ← hpush, ← Notes.of_append] at hpoll
    exact hpoll
  | poll calls => exact lost_poll t calls
  | takeOutbound =>
    show (t.takeOutbound.2.of .lost).Sublist []
    unfold takeOutbound
    rcases t.device.outbound.tryReceive_cases with ⟨-, he⟩ | ⟨p, rest, -, he⟩
    · rw [he]
      exact List.nil_sublist _
    · rw [he]
      exact List.nil_sublist _

theorem lost_run (t : Tunnel) (events : List Event) :
    ((t.run events).2.of .lost).Sublist
      ((events.flatMap Event.calls).filterMap Call.reply) := by
  induction events generalizing t with
  | nil => exact List.nil_sublist _
  | cons e events ih =>
    have happend := (lost_step t e).append (ih (t.step e).1)
    rw [← Notes.of_append] at happend
    rw [List.flatMap_cons, List.filterMap_append]
    exact happend

end Tunnel

/-- **The queues of the tunnel.**  Whatever is delivered, taken and done by the stack
when it is polled:

* what fits into a packet enters or overflows; what enters is read by the stack in
  order, but for what waits; what the stack has written is taken in order, but for
  what waits;
* what overflows is counted, and nothing else is;
* of what the stack writes, it is replies to what it reads that may be lost, and no
  packet that it writes of its own accord;
* if in each poll the stack reads what there is, nothing overflows, and it reads every
  packet that fits, in order and once. -/
theorem queues_account (events : List Event) :
    let r := Tunnel.start.run events
    (r.2.offered = events.filterMap Event.packet ∧
      r.2.of .entered = r.2.of .received ++ r.1.device.inbound.items ∧
      r.2.of .written = r.2.of .taken ++ r.1.device.outbound.items) ∧
    r.1.dropped = .ofNat (r.2.of .overflowed).length ∧
    (r.2.of .lost).Sublist ((events.flatMap Event.calls).filterMap Call.reply) ∧
    ((∀ before after, events = before ++ after →
        (Tunnel.start.run before).1.device.inbound.items = []) →
      r.1.dropped = 0 ∧ r.2.of .received = events.filterMap Event.packet) := by
  intro r
  have h : Accounts .start r.2 r.1 := Tunnel.accounts_run .start events
  have hoffered : r.2.offered = events.filterMap Event.packet := Tunnel.offered_run .start events
  have hinbound : r.2.of .entered = r.2.of .received ++ r.1.device.inbound.items := h.inbound
  have hdropped : r.1.dropped = .ofNat (r.2.of .overflowed).length :=
    h.dropped.trans (UInt32.zero_add _)
  refine ⟨⟨hoffered, hinbound, h.outbound⟩, hdropped, Tunnel.lost_run .start events,
    fun hreads => ?_⟩
  have hnone : r.2.of .overflowed = [] := Tunnel.overflowed_run .start events hreads
  have hnil : r.1.device.inbound.items = [] := hreads events [] (List.append_nil _).symm
  refine ⟨by rw [hdropped, hnone]; rfl, ?_⟩
  rw [← hoffered, Notes.offered_eq hnone, hinbound, hnil, List.append_nil]

/-- Thirteen packets without a poll in between. -/
example : (Tunnel.start.run (List.replicate 13 (.deliver [0x45] []))).1.dropped = 1 := by
  decide +kernel

end Lando.Fw.Device
