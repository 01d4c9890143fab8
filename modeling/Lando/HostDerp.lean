/-
Lando/HostDerp.lean

The host's DERP client (`lando-host/src/derp.rs`): frames from a socket whose
reads can time out.

Between calls of `next_raw_frame` the client keeps the frame reader and the
bytes it has not consumed; the body being assembled is local to the call.  A
timeout ends the call with a tick.  If it falls inside a streamed body, what
was assembled of the body is gone, while the reader stays where it was, so
that the frame comes out later without its first bytes.

`DerpClient.assemble_spec` says what one call returns from behind the bytes `p` of an
unfinished frame: the payload without the part of it that earlier calls had
assembled.  Over a whole schedule the frames are therefore right exactly when
no timeout falls inside a streamed body (`rawFrames_spec`).
-/
import Lando.DerpFrame

namespace Lando.Derp

open Framing

/-! ### The client -/

/-- The parts of `DerpClient` that reading uses. -/
structure DerpClient where
  reader : FrameReader
  /-- Decrypted bytes read from TLS. -/
  pending : List UInt8
  /-- How many of them the framer has consumed. -/
  pos : ℕ

/-- The outcome of one `tls.read`. -/
inductive SocketEvent
  | data (first : UInt8) (rest : List UInt8)
  /-- `WouldBlock` or `TimedOut`. -/
  | timeout
  /-- A read of no bytes. -/
  | closed
  | failed (e : String)
  deriving DecidableEq

/-- How a call of `next_raw_frame` ends; `blocked` when it waits for a read
that the schedule does not have. -/
inductive Call
  | returned (res : Except String (Option Raw))
  | blocked
  | spins
  deriving DecidableEq

/-- `{e:?}`. -/
def DerpError.debug : DerpError → String
  | .frameTooLarge => "FrameTooLarge"
  | .badServerKey => "BadServerKey"
  | .crypto => "Crypto"
  | .shortBuffer => "ShortBuffer"

/-- How feeding the pending bytes ends: with a frame, out of bytes, with an
error, or not within the calls of `feed` allowed. -/
inductive Drained
  | frame (raw : Raw)
  | more (assembled : List UInt8)
  | error (e : DerpError)
  | spins
  deriving DecidableEq

namespace DerpClient

/-- The pending bytes not yet consumed. -/
def rest (c : DerpClient) : List UInt8 := c.pending.drop c.pos

/-- The loop of `next_raw_frame`, up to the next read. -/
def drainPending : ℕ → DerpClient → List UInt8 → DerpClient × Drained
  | k, c, assembled =>
      if c.pos = c.pending.length then (c, .more assembled)
      else
        match k with
        | 0 => (c, .spins)
        | k + 1 =>
            match c.reader.feed c.rest with
            | (reader, .error e) => ({ c with reader := reader }, .error e)
            | (reader, .ok (used, frame)) =>
                let c := { c with reader := reader, pos := c.pos + used }
                match frame with
                | none => drainPending k c assembled
                | some (.control kind payload) => (c, .frame (kind, payload))
                | some (.body kind _ chunk last) =>
                    let assembled := assembled ++ chunk
                    if last then (c, .frame (kind, assembled)) else drainPending k c assembled

/-- The rest of a call of `next_raw_frame`, with what it has assembled so far,
on the outcomes of the reads to come; returns those that it did not need. -/
def assemble (c : DerpClient) (assembled : List UInt8) (schedule : List SocketEvent) :
    DerpClient × Call × List SocketEvent :=
  match drainPending c.rest.length c assembled with
  | (c, .frame raw) => (c, .returned (.ok (some raw)), schedule)
  | (c, .error e) => (c, .returned (.error ("DERP framing: " ++ e.debug)), schedule)
  | (c, .spins) => (c, .spins, schedule)
  | (c, .more assembled) =>
      let c := { c with pending := [], pos := 0 }
      match schedule with
      | [] => (c, .blocked, [])
      | .data first rest :: schedule =>
          assemble { c with pending := first :: rest } assembled schedule
      -- a relay connection is idle most of the time: a tick, not a failure
      | .timeout :: schedule => (c, .returned (.ok none), schedule)
      | .closed :: schedule => (c, .returned (.error "relay closed the connection"), schedule)
      | .failed e :: schedule => (c, .returned (.error ("reading from relay: " ++ e)), schedule)

/-- Reads one complete frame, assembling streamed bodies. -/
def nextRawFrame (c : DerpClient) (schedule : List SocketEvent) :
    DerpClient × Call × List SocketEvent :=
  c.assemble [] schedule

/-- The frames that at most `n` successive calls return, and the call that
ended them, if one did. -/
def rawFrames : ℕ → DerpClient → List SocketEvent → List Raw × Option Call
  | 0, _, _ => ([], none)
  | n + 1, c, schedule =>
      match c.nextRawFrame schedule with
      | (c, .returned (.ok (some raw)), schedule) =>
          let (raws, ended) := rawFrames n c schedule
          (raw :: raws, ended)
      | (c, .returned (.ok none), schedule) => rawFrames n c schedule
      | (_, ended, _) => ([], some ended)

end DerpClient

/-! ### Schedules -/

/-- The bytes that the reads of a schedule deliver. -/
def delivered : List SocketEvent → List UInt8
  | [] => []
  | .data first rest :: schedule => first :: rest ++ delivered schedule
  | _ :: schedule => delivered schedule

/-- The connection is still open after the event. -/
def SocketEvent.isOpen : SocketEvent → Bool
  | .data .. => true
  | .timeout => true
  | .closed => false
  | .failed _ => false

/-- Reads that deliver bytes, and timeouts; the connection stays open. -/
def StaysOpen (schedule : List SocketEvent) : Prop := ∀ e ∈ schedule, e.isOpen = true

instance (schedule : List SocketEvent) : Decidable (StaysOpen schedule) :=
  inferInstanceAs (Decidable (∀ e ∈ schedule, e.isOpen = true))

/-- The bytes `q` of a stream end inside the body of a streamed frame. -/
def InsideBody (q : List UInt8) : Prop :=
  ∃ (frames : List RawFrame) (header seen : List UInt8),
    q = wires frames ++ (header ++ seen) ∧ header.length = headerLen ∧
      (parseHeader header).kind.isControl = false ∧ seen ≠ [] ∧
        seen.length < (parseHeader header).total

/-- No timeout of the schedule falls inside a streamed body; `q` is what was
received before. -/
def Quiet (q : List UInt8) : List SocketEvent → Prop
  | [] => True
  | .data first rest :: schedule => Quiet (q ++ first :: rest) schedule
  | .timeout :: schedule => ¬ InsideBody q ∧ Quiet q schedule
  | _ :: schedule => Quiet q schedule

/-! ### One call -/

/-- What a call returns for the frame `f` when earlier calls have assembled
the part `lost` of its payload. -/
def Yields (f : Wire format) (lost : List UInt8) (raw : Raw) : Prop :=
  raw.1 = f.header.kind ∧
    if format.whole f.header then lost = [] ∧ raw.2 = f.payload.take controlFrameMax
    else lost ++ raw.2 = f.payload

/-- What feeding the pending bytes does from behind the bytes `p`, when the
streamed bytes of `p` are `lost` and `assembled`. -/
inductive DrainSpec (p lost rest : List UInt8) : DerpClient × Drained → Prop
  | more {c : DerpClient} {assembled : List UInt8} (place : At format c.reader (p ++ rest))
      (streamed : format.streamed (p ++ rest) = lost ++ assembled) :
      DrainSpec p lost rest (c, .more assembled)
  | frame {c : DerpClient} {raw : Raw} (f : Wire format) (place : At format c.reader [])
      (pos_le : c.pos ≤ c.pending.length) (split : p ++ rest = f.bytes ++ c.rest)
      (shorter : c.rest.length < rest.length) (yields : Yields f lost raw) :
      DrainSpec p lost rest (c, .frame raw)
  | error {c : DerpClient} {e : DerpError} {hd tail : List UInt8}
      (split : p ++ rest = hd ++ tail) (len : hd.length = headerLen)
      (refused : format.refuse (format.decode hd) = some e) :
      DrainSpec p lost rest (c, .error e)

/-- All of `rest` was used, and then nothing more was found. -/
theorem DrainSpec.used {p lost rest : List UInt8} {res : DerpClient × Drained}
    (h : DrainSpec (p ++ rest) lost [] res) : DrainSpec p lost rest res := by
  cases h with
  | more place streamed =>
    rw [List.append_nil] at place streamed
    exact .more place streamed
  | frame f place pos_le split shorter yields => exact absurd shorter (Nat.not_lt_zero _)
  | error split len refused =>
    rw [List.append_nil] at split
    exact .error split len refused

namespace DerpClient

variable {c : DerpClient} {p lost assembled : List UInt8}

/-- A call of `feed` that used `n` of the pending bytes. -/
theorem rest_advance (c : DerpClient) (reader : FrameReader) (n : ℕ) :
    ({ c with reader := reader, pos := c.pos + n } : DerpClient).rest = c.rest.drop n := by
  rw [rest, rest, List.drop_drop]

theorem length_rest (c : DerpClient) : c.rest.length = c.pending.length - c.pos := by
  rw [rest, List.length_drop]

theorem drainPending_spec (k : ℕ) (h : At format c.reader p) (hpos : c.pos ≤ c.pending.length)
    (hk : c.rest.length ≤ k) (hs : format.streamed p = lost ++ assembled) :
    DrainSpec p lost c.rest (drainPending k c assembled) := by
  induction k generalizing c p assembled with
  | zero =>
    have hend : c.pos = c.pending.length := by
      rw [length_rest] at hk
      omega
    have hrest : c.rest = [] := List.drop_eq_nil_of_le (Nat.le_of_eq hend.symm)
    rw [drainPending, if_pos hend, hrest]
    exact .more (by rw [List.append_nil]; exact h) (by rw [List.append_nil]; exact hs)
  | succ k ih =>
    rw [drainPending]
    by_cases hend : c.pos = c.pending.length
    · have hrest : c.rest = [] := List.drop_eq_nil_of_le (Nat.le_of_eq hend.symm)
      rw [if_pos hend, hrest]
      exact .more (by rw [List.append_nil]; exact h) (by rw [List.append_nil]; exact hs)
    rw [if_neg hend]
    have hf := feed_spec h c.rest
    have hlen := c.length_rest
    unfold FrameReader.feed
    generalize format.feed c.reader c.rest = res at hf
    -- the rest of the call, when all pending bytes were used
    have again : ∀ {reader : FrameReader} {assembled : List UInt8},
        At format reader (p ++ c.rest) → format.streamed (p ++ c.rest) = lost ++ assembled →
        DrainSpec p lost c.rest (drainPending k
          { c with reader := reader, pos := c.pos + c.rest.length } assembled) := by
      intro reader assembled place streamed
      have hrest := c.rest_advance reader c.rest.length
      rw [List.drop_length] at hrest
      have hle : c.pos + c.rest.length ≤ c.pending.length := by omega
      have hspec := ih (c := { c with reader := reader, pos := c.pos + c.rest.length }) place hle
        (by rw [hrest]; exact Nat.zero_le k) streamed
      rw [hrest] at hspec
      exact hspec.used
    cases hf with
    | more place same => exact again place (by rw [same, hs])
    | @control r' n payload f place pos le bytes kind cut same =>
      have hnil : lost = [] := by
        rw [same] at hs
        exact (List.append_eq_nil_iff.mp hs.symm).1
      refine .frame f place ?_ ?_ ?_ ⟨rfl, ?_⟩
      · show c.pos + n ≤ c.pending.length
        omega
      · rw [rest_advance, bytes, List.append_assoc, List.take_append_drop]
      · rw [rest_advance, List.length_drop]
        omega
      · rw [if_pos kind]
        exact ⟨hnil, cut⟩
    | @last r' n chunk f place pos le bytes kind rest tail =>
      refine .frame f place ?_ ?_ ?_ ⟨rfl, ?_⟩
      · show c.pos + n ≤ c.pending.length
        omega
      · rw [rest_advance, bytes, List.append_assoc, List.take_append_drop]
      · rw [rest_advance, List.length_drop]
        omega
      · rw [if_neg (by rw [kind]; exact Bool.false_ne_true), ← rest, hs, List.append_assoc]
    | @chunk r' chunk place pos nonempty enough more =>
      exact again place (by rw [more, hs, List.append_assoc])
    | @refused r' n e place pos le len error same =>
      have hsplit : p ++ c.rest = p ++ c.rest.take n ++ c.rest.drop n := by
        rw [List.append_assoc, List.take_append_drop]
      exact .error hsplit len error

end DerpClient

/-- What a call does that has received the bytes `q`, of an unfinished frame
and behind it, when earlier calls have assembled the part `lost` of its
payload. -/
inductive CallSpec (q lost : List UInt8) (schedule : List SocketEvent) :
    DerpClient × Call × List SocketEvent → Prop
  | frame {c : DerpClient} {raw : Raw} {after : List SocketEvent} (f : Wire format)
      (place : At format c.reader []) (pos_le : c.pos ≤ c.pending.length)
      (split : q ++ delivered schedule = f.bytes ++ (c.rest ++ delivered after))
      (quiet : Quiet q schedule ↔ Quiet (f.bytes ++ c.rest) after)
      (stays : StaysOpen after) (le : after.length ≤ schedule.length)
      (yields : Yields f lost raw) :
      CallSpec q lost schedule (c, .returned (.ok (some raw)), after)
  | tick {c : DerpClient} {p : List UInt8} {after : List SocketEvent}
      (place : At format c.reader p) (pos_le : c.pos ≤ c.pending.length) (empty : c.rest = [])
      (split : q ++ delivered schedule = p ++ delivered after)
      (quiet : Quiet q schedule ↔ ¬ InsideBody p ∧ Quiet p after)
      (stays : StaysOpen after) (lt : after.length < schedule.length)
      (streamed : ∃ more, format.streamed p = lost ++ more) :
      CallSpec q lost schedule (c, .returned (.ok none), after)
  | blocked {c : DerpClient} (place : At format c.reader (q ++ delivered schedule))
      (quiet : Quiet q schedule) : CallSpec q lost schedule (c, .blocked, [])

theorem StaysOpen.tail {e : SocketEvent} {schedule : List SocketEvent}
    (h : StaysOpen (e :: schedule)) : StaysOpen schedule :=
  fun e' he => h e' (List.mem_cons_of_mem e he)

/-- A call that had received `q` before the next read. -/
theorem CallSpec.read {q lost rest : List UInt8} {first : UInt8} {schedule : List SocketEvent}
    {res : DerpClient × Call × List SocketEvent}
    (h : CallSpec (q ++ first :: rest) lost schedule res) :
    CallSpec q lost (.data first rest :: schedule) res := by
  have hsplit : q ++ delivered (.data first rest :: schedule) =
      q ++ first :: rest ++ delivered schedule := by
    rw [delivered, List.append_assoc]
  cases h with
  | frame f place pos_le split quiet stays le yields =>
    exact .frame f place pos_le (hsplit.trans split) quiet stays (Nat.le_succ_of_le le) yields
  | tick place pos_le empty split quiet stays lt streamed =>
    exact .tick place pos_le empty (hsplit.trans split) quiet stays (Nat.lt_succ_of_lt lt) streamed
  | blocked place quiet =>
    rw [← hsplit] at place
    exact .blocked place quiet

namespace DerpClient

theorem assemble_spec {c : DerpClient} {p lost assembled : List UInt8}
    {schedule : List SocketEvent} {fs : List (Wire format)} (h : At format c.reader p)
    (hpos : c.pos ≤ c.pending.length) (hs : format.streamed p = lost ++ assembled)
    (hopen : StaysOpen schedule)
    (hbytes : p ++ c.rest ++ delivered schedule = stream fs) :
    CallSpec (p ++ c.rest) lost schedule (c.assemble assembled schedule) := by
  induction hl : schedule.length using Nat.strong_induction_on
    generalizing c p assembled schedule with
  | _ l ih =>
    have hd := drainPending_spec c.rest.length h hpos (Nat.le_refl _) hs
    unfold DerpClient.assemble
    generalize drainPending c.rest.length c assembled = res at hd
    cases hd with
    | @frame c' raw f place pos_le split shorter yields =>
      refine .frame f place pos_le ?_ ?_ hopen (Nat.le_refl _) yields
      · rw [split, List.append_assoc]
      · rw [split]
    | @error c' e hd tail split len refused =>
      rw [split, List.append_assoc] at hbytes
      exact absurd hbytes (stream_ne_refused fs len (by rw [refused]; exact nofun) _)
    | @more c' assembled' place streamed =>
      -- all pending bytes are used, and the next read decides
      rcases schedule with - | ⟨⟨first, rest⟩ | - | - | e, schedule⟩
      · refine .blocked ?_ trivial
        rw [delivered, List.append_nil]
        exact place
      · have hbytes' : p ++ c.rest ++ (first :: rest) ++ delivered schedule = stream fs := by
          rw [← hbytes, delivered, List.append_assoc]
        have hlt : schedule.length < l := by
          rw [← hl, List.length_cons]
          exact Nat.lt_succ_self _
        exact (ih _ hlt (c := { c' with pending := first :: rest, pos := 0 }) place
          (Nat.zero_le _) streamed hopen.tail hbytes' rfl).read
      · refine .tick place (Nat.zero_le _) rfl rfl Iff.rfl hopen.tail (Nat.lt_succ_self _) ?_
        exact ⟨assembled', streamed⟩
      · exact absurd (hopen _ List.mem_cons_self) Bool.false_ne_true
      · exact absurd (hopen _ List.mem_cons_self) Bool.false_ne_true

end DerpClient

/-! ### Timeouts inside a body -/

theorem noFrame_insideBody {header seen : List UInt8} (hlen : header.length = headerLen)
    (hlt : seen.length < (parseHeader header).total) : NoFrame format (header ++ seen) := by
  intro f rest he
  have hhead : header = f.head := by
    rw [← f.take_bytes rest, ← he]
    exact (List.take_left' hlen).symm
  have hbytes := congrArg List.length he
  rw [List.length_append, List.length_append, f.length_bytes, hlen] at hbytes
  have htotal : format.length f.header = (parseHeader header).total := by
    rw [hhead]
    rfl
  rw [htotal] at hbytes
  change headerLen + seen.length = headerLen + _ + _ at hbytes
  omega

/-- Whole frames in front do not matter. -/
theorem insideBody_frame (f : Wire format) (q : List UInt8) :
    InsideBody (f.bytes ++ q) ↔ InsideBody q := by
  obtain ⟨raw, rfl⟩ := exists_toWire f
  constructor
  · rintro ⟨frames, header, seen, hq, hlen, hkind, hne, hlt⟩
    cases frames with
    | nil =>
      have hno := noFrame_insideBody hlen hlt
      exact absurd hq.symm (hno raw.toWire q)
    | cons g frames =>
      rw [wires_cons, List.append_assoc] at hq
      obtain ⟨-, hrest⟩ := Wire.append_inj (g := g.toWire) hq
      exact ⟨frames, header, seen, hrest, hlen, hkind, hne, hlt⟩
  · rintro ⟨frames, header, seen, rfl, hlen, hkind, hne, hlt⟩
    refine ⟨raw :: frames, header, seen, ?_, hlen, hkind, hne, hlt⟩
    rw [wires_cons, List.append_assoc]
    rfl

theorem quiet_frame (f : Wire format) (q : List UInt8) (schedule : List SocketEvent) :
    Quiet (f.bytes ++ q) schedule ↔ Quiet q schedule := by
  induction schedule generalizing q with
  | nil => exact Iff.rfl
  | cons e schedule ih =>
    rcases e with ⟨first, rest⟩ | - | - | e
    · rw [Quiet, Quiet, List.append_assoc, ih]
    · rw [Quiet, Quiet, insideBody_frame, ih]
    · exact ih q
    · exact ih q

/-- Behind an unfinished frame, the body is inside exactly when some of it was
passed on. -/
theorem insideBody_iff {r : FrameReader} {p : List UInt8} (h : At format r p) :
    InsideBody p ↔ format.streamed p ≠ [] := by
  constructor
  · rintro ⟨frames, header, seen, hp, hlen, hkind, hne, hlt⟩
    have hsplit : stream ([] : List (Wire format)) ++ p =
        stream (frames.map RawFrame.toWire) ++ (header ++ seen) := by
      rw [stream_toWire, stream_nil, List.nil_append, hp]
    obtain ⟨-, rfl⟩ := stream_inj h.noFrame (noFrame_insideBody hlen hlt) hsplit
    have hwhole : format.whole (format.decode header) = false := by
      show (if (parseHeader header).total = 0 then true else (parseHeader header).kind.isControl)
        = false
      rw [if_neg (by omega), hkind]
    rw [streamed_frame hlen, if_pos hwhole]
    exact hne
  · intro hs
    cases h with
    | header phase eq lt => exact absurd (streamed_of_short lt) hs
    | buffering inside phase kind => exact absurd (inside.streamed_control kind _) hs
    | draining inside phase kind => exact absurd (inside.streamed_control kind _) hs
    | @streaming hd seen inside phase kind =>
      rw [inside.streamed_body kind] at hs
      exact ⟨[], hd, seen, rfl, inside.head_length, kind, hs, inside.seen_lt⟩

/-! ### Successive calls -/

theorem Yields.eq_iff {f : Wire format} {lost : List UInt8} {raw : Raw} (h : Yields f lost raw) :
    raw = rawOf f ↔ lost = [] := by
  obtain ⟨hkind, hpayload⟩ := h
  unfold rawOf
  split_ifs at hpayload ⊢ with hw
  · exact ⟨fun _ => hpayload.1, fun _ => Prod.ext hkind hpayload.2⟩
  · constructor
    · rintro rfl
      exact List.append_left_eq_self.mp hpayload
    · rintro rfl
      exact Prod.ext hkind hpayload

/-- Successive calls, from behind the bytes `p` of an unfinished frame: they
wait for more in the end, and the frames are right exactly when nothing of the
first one is lost yet and no timeout falls inside a body. -/
theorem rawFrames_spec (n : ℕ) {c : DerpClient} {p : List UInt8} {schedule : List SocketEvent}
    {fs : List (Wire format)} (h : At format c.reader p) (hpos : c.pos ≤ c.pending.length)
    (hopen : StaysOpen schedule) (hbytes : p ++ c.rest ++ delivered schedule = stream fs)
    (hn : (stream fs).length + schedule.length < n) :
    ∃ raws, c.rawFrames n schedule = (raws, some .blocked) ∧
      (raws = fs.map rawOf ↔ format.streamed p = [] ∧ Quiet (p ++ c.rest) schedule) := by
  induction n generalizing c p schedule fs with
  | zero => exact absurd hn (Nat.not_lt_zero _)
  | succ n ih =>
    have hcall := DerpClient.assemble_spec h hpos (List.append_nil _).symm hopen hbytes
    unfold DerpClient.rawFrames DerpClient.nextRawFrame
    generalize c.assemble [] schedule = res at hcall
    cases hcall with
    | @frame c' raw after f place pos_le split quiet stays le yields =>
      -- the frame is the first one of the stream
      rw [hbytes] at split
      obtain ⟨fs', rfl, hrest⟩ := stream_eq_frame split
      have hlen : (stream fs').length + after.length < n := by
        rw [stream_cons, List.length_append, f.length_bytes] at hn
        have := format.headerLen_pos
        omega
      obtain ⟨raws, he, hraws⟩ := ih place pos_le stays hrest.symm hlen
      refine ⟨raw :: raws, ?_, ?_⟩
      · simp only [he]
      · rw [List.map_cons, List.cons.injEq, yields.eq_iff, hraws, quiet, quiet_frame]
        rw [List.nil_append, streamed_nil]
        exact ⟨fun ⟨h₁, _, h₂⟩ => ⟨h₁, h₂⟩, fun ⟨h₁, h₂⟩ => ⟨h₁, rfl, h₂⟩⟩
    | @tick c' p' after place pos_le empty split quiet stays lt streamed =>
      have hbytes' : p' ++ c'.rest ++ delivered after = stream fs := by
        rw [empty, List.append_nil, ← split, hbytes]
      obtain ⟨raws, he, hraws⟩ := ih place pos_le stays hbytes' (by omega)
      refine ⟨raws, he, ?_⟩
      rw [hraws, quiet, insideBody_iff place, not_not, empty, List.append_nil]
      obtain ⟨more, hmore⟩ := streamed
      refine ⟨fun ⟨h₁, h₂⟩ => ⟨?_, h₁, h₂⟩, fun ⟨_, h₂⟩ => h₂⟩
      rw [h₁] at hmore
      exact (List.append_eq_nil_iff.mp hmore.symm).1
    | @blocked c' place quiet =>
      rw [hbytes] at place
      have hsplit : stream fs ++ [] = stream ([] : List (Wire format)) ++ stream fs := by
        rw [stream_nil, List.nil_append, List.append_nil]
      obtain ⟨rfl, -⟩ := stream_inj (noFrame_nil format) place.noFrame hsplit
      refine ⟨[], rfl, fun _ => ⟨?_, quiet⟩, fun _ => rfl⟩
      have hp : p = [] := (List.append_eq_nil_iff.mp (List.append_eq_nil_iff.mp hbytes).1).1
      rw [hp, streamed_nil]

/-- **Frames and timeouts.**  Over every schedule of reads and timeouts that
delivers a stream of frames, successive calls of `next_raw_frame` return
exactly its frames if and only if no timeout falls inside the body of a
streamed frame. -/
theorem rawFrames_eq_iff_quiet (frames : List RawFrame) (pending : List UInt8)
    (schedule : List SocketEvent) (n : ℕ) (hopen : StaysOpen schedule)
    (hbytes : pending ++ delivered schedule = wires frames)
    (hn : (wires frames).length + schedule.length < n) :
    ∃ raws, DerpClient.rawFrames n ⟨.new, pending, 0⟩ schedule = (raws, some .blocked) ∧
      (raws = frames.map RawFrame.raw ↔ Quiet pending schedule) := by
  rw [← stream_toWire] at hbytes hn
  obtain ⟨raws, he, hraws⟩ := rawFrames_spec n (c := ⟨.new, pending, 0⟩)
    (At.start format ⟨.unknown, 0⟩) (Nat.zero_le _) hopen hbytes hn
  refine ⟨raws, he, ?_⟩
  rw [List.map_map] at hraws
  have hmap : frames.map (rawOf ∘ RawFrame.toWire) = frames.map RawFrame.raw :=
    List.map_congr_left fun f _ => rawOf_toWire f
  rw [hmap, streamed_nil] at hraws
  rw [hraws]
  exact ⟨fun h => h.2, fun h => ⟨rfl, h⟩⟩

/-- A packet relayed from a peer whose key is all ones. -/
def relayedPacket : RawFrame := ⟨0x05, List.replicate 32 1 ++ [2, 3], by decide⟩

/-- Header and first byte, a timeout, and the rest. -/
def interrupted : List SocketEvent :=
  [.data 0x05 [0, 0, 0, 34, 1], .timeout, .data 1 (List.replicate 30 1 ++ [2, 3])]

theorem rawFrames_eq_iff_quiet_interrupted :
    StaysOpen interrupted ∧ delivered interrupted = wires [relayedPacket] ∧
      ∃ raws, DerpClient.rawFrames 43 ⟨.new, [], 0⟩ interrupted = (raws, some .blocked) ∧
        (raws = [relayedPacket.raw] ↔ Quiet [] interrupted) :=
  ⟨by decide, by decide +kernel,
    rawFrames_eq_iff_quiet [relayedPacket] [] interrupted 43 (by decide) (by decide +kernel)
      (by decide +kernel)⟩

/-- The packet comes out one byte short, with another key in front. -/
theorem rawFrames_interrupted :
    StaysOpen interrupted ∧ delivered interrupted = wires [relayedPacket] ∧
      DerpClient.rawFrames 43 ⟨.new, [], 0⟩ interrupted =
        ([(.recvPacket, List.replicate 31 1 ++ [2, 3])], some .blocked) ∧
      [(FrameType.recvPacket, List.replicate 31 1 ++ [2, 3])] ≠ [relayedPacket].map RawFrame.raw :=
  ⟨by decide, by decide +kernel, by decide +kernel, by decide +kernel⟩

end Lando.Derp
