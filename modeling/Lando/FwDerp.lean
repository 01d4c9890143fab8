/-
Lando/FwDerp.lean

The firmware's DERP connection (`lando-fw/src/derp.rs`): the parsing side of
`pump`, and `next_frame`, which the handshake uses before it.

`pump` keeps all parser state across its loop: the frame reader, the staged
bytes and how far they were read, and the body being assembled.  Each turn
parses what is staged up to the next frame, moves the rest of the staging
buffer to its front, and either hands the frame to `handle_frame` or waits.
The wait is a race between the next read and the next outbound packet;
whichever loses is cancelled.  A cancelled read loses no bytes, so the packet
leaves the parser as it was.  Sending, which is all `pump` does with an
outbound packet, here and in the drain at the top of each turn, does not touch
the parser; it is the subject of `Lando.FwRelay`.

The invariant `Parser.Holds s p` says that the parser stands behind the bytes
`p` of an unfinished frame: the reader is there, and the assembled prefix is
the streamed part of `p`, cut at the size of the buffer.  One turn keeps it
(`turn_spec`), and at every wait nothing is staged, so a run takes exactly what
its reads return (`returned`) and hands over the frames that this completes, in
order and each once (`run_spec`).
-/
import Lando.DerpFrame

namespace Lando.Fw

open Framing Derp

/-! ### The parser -/

/-- The size of the staging buffer. -/
def stagedSize : ℕ := 1024

/-- Parser state: the reader, `staged[..staged_len]`, how far it was read, and
the buffer in which bodies are assembled, with how much of it is filled. -/
structure Parser where
  reader : FrameReader
  staged : List UInt8
  pos : ℕ
  assembled : List UInt8
  filled : ℕ

/-- How parsing the staged bytes ends. -/
inductive Parsed
  /-- A frame of this kind, in the first `len` bytes of `assembled`. -/
  | frame (kind : FrameType) (len : ℕ)
  | more
  | protocol
  | spins
  deriving DecidableEq

namespace Parser

/-- The staged bytes not yet read. -/
def rest (s : Parser) : List UInt8 := s.staged.drop s.pos

/-- The parse loop of `pump` and of `next_frame`: feeds the staged bytes until
a frame is complete or they are used up, with at most `k` calls of `feed`. -/
def parse : ℕ → Parser → Parser × Parsed
  | k, s =>
      if s.pos < s.staged.length then
        match k with
        | 0 => (s, .spins)
        | k + 1 =>
            match s.reader.feed s.rest with
            | (reader, .error _) => ({ s with reader := reader }, .protocol)
            | (reader, .ok (used, parsed)) =>
                let s := { s with reader := reader, pos := s.pos + used }
                match parsed with
                | none => if used = 0 then (s, .more) else parse k s
                | some (.control kind payload) =>
                    let take := min payload.length s.assembled.length
                    ({ s with assembled := Bytes.blit s.assembled 0 (payload.take take) },
                      .frame kind take)
                | some (.body kind _ chunk last) =>
                    let take := min chunk.length (s.assembled.length - s.filled)
                    let s := { s with
                      assembled := Bytes.blit s.assembled s.filled (chunk.take take)
                      filled := s.filled + take }
                    if last then ({ s with filled := 0 }, .frame kind s.filled) else parse k s
      else (s, .more)

/-- Reclaims the consumed prefix of the staging buffer. -/
def reclaim (s : Parser) : Parser := { s with staged := s.rest, pos := 0 }

/-- What a turn of `pump` comes to. -/
inductive Turn
  /-- The frame goes to `handle_frame`. -/
  | handle (raw : Raw)
  /-- The race between a read and an outbound packet. -/
  | wait
  /-- `Err(Protocol)`: the staging buffer is full. -/
  | full
  /-- `Err(Protocol)`: the reader failed. -/
  | protocol
  /-- `Err(Io)`: the connection failed or ended. -/
  | io
  | spins
  deriving DecidableEq

/-- One turn of `pump`, up to the frame or the wait. -/
def turn (s : Parser) : Parser × Turn :=
  match parse s.rest.length s with
  | (s, .protocol) => (s, .protocol)
  | (s, .spins) => (s, .spins)
  | (s, .frame kind len) => (s.reclaim, .handle (kind, s.assembled.take len))
  | (s, .more) =>
      let s := s.reclaim
      if s.staged.length = stagedSize then (s, .full) else (s, .wait)

/-- At most `k` turns, up to the first one that is not a frame, and the frames
handed over. -/
def turns : ℕ → Parser → Parser × List Raw × Turn
  | 0, s => (s, [], .spins)
  | k + 1, s =>
      match s.turn with
      | (s, .handle raw) =>
          let (s, raws, ended) := turns k s
          (s, raw :: raws, ended)
      | (s, ended) => (s, [], ended)

end Parser

/-- How the wait of `pump` ends. -/
inductive PumpEvent
  /-- The read returns up to `n + 1` bytes of what the relay has sent. -/
  | read (n : ℕ)
  /-- A packet arrives on `DERP_OUT`; the read is cancelled. -/
  | outbound (packet : List UInt8)
  /-- The read fails, or returns nothing. -/
  | closed
  deriving DecidableEq

/-- How many bytes the reads of `pump` ask for, up to the one that fails.
Nothing is staged while it waits, so each may fill the whole buffer. -/
def returned : List PumpEvent → ℕ
  | [] => 0
  | .read n :: events => min (n + 1) stagedSize + returned events
  | .outbound _ :: events => returned events
  | .closed :: _ => 0

namespace Parser

/-- The race: `wire` is what the relay has sent and TLS has not returned.  A
read fills at most what is left of the staging buffer; with nothing on the wire
it has not returned, and the wait goes on. -/
def await (s : Parser) (wire : List UInt8) : PumpEvent → Option (Parser × List UInt8)
  | .read n =>
      let m := min (n + 1) (stagedSize - s.staged.length)
      some ({ s with staged := s.staged ++ wire.take m }, wire.drop m)
  | .outbound _ => some (s, wire)
  | .closed => none

/-- `pump`, over the events that end its waits: the parser, the bytes not yet
read, the frames handed over, and what the last turn came to. -/
def run (s : Parser) (wire : List UInt8) :
    List PumpEvent → Parser × List UInt8 × List Raw × Turn
  | [] =>
      let (s, raws, ended) := s.turns (s.staged.length + 1)
      (s, wire, raws, ended)
  | e :: events =>
      match s.turns (s.staged.length + 1) with
      | (s, raws, .wait) =>
          match s.await wire e with
          | none => (s, wire, raws, .io)
          | some (s', wire') =>
              let (s, wire, raws', ended) := s'.run wire' events
              (s, wire, raws ++ raws', ended)
      | (s, raws, ended) => (s, wire, raws, ended)

end Parser

/-- The parser with which `pump` starts. -/
def Parser.start (reader : FrameReader) (staged : List UInt8) : Parser where
  reader := reader
  staged := staged
  pos := 0
  assembled := List.replicate 1600 0
  filled := 0

/-! ### The handshake -/

/-- How a call of `next_frame` ends. -/
inductive NextFrame
  /-- A frame, with the parser whose unread tail was carried forward and the
  reads that were not needed. -/
  | returned (s : Parser) (raw : Raw) (reads : List (List UInt8))
  | protocol
  | io
  | blocked
  | spins

/-- The loop of `next_frame`, on the bytes that the reads return. -/
def Parser.nextFrame (s : Parser) (reads : List (List UInt8)) : NextFrame :=
  match s.parse s.rest.length with
  | (s, .frame kind len) => .returned s.reclaim (kind, s.assembled.take len) reads
  | (_, .protocol) => .protocol
  | (_, .spins) => .spins
  | (s, .more) =>
      match reads with
      | [] => .blocked
      | [] :: _ => .io
      | bytes :: reads => Parser.nextFrame { s.reclaim with staged := s.rest ++ bytes } reads
termination_by reads.length

/-- Reads one complete DERP frame; the assembly buffer is its own. -/
def nextFrame (reader : FrameReader) (staged : List UInt8) (reads : List (List UInt8)) : NextFrame :=
  Parser.nextFrame ⟨reader, staged, 0, List.replicate 512 0, 0⟩ reads

/-- A reader and the staged bytes that the handshake can leave behind: it
stages what followed the upgrade response, and then calls `next_frame`. -/
inductive Handshaken : FrameReader → List UInt8 → Prop
  | upgrade (staged : List UInt8) : Handshaken .new staged
  | next {reader : FrameReader} {staged : List UInt8} {s : Parser} {raw : Raw}
      {reads reads' : List (List UInt8)} (before : Handshaken reader staged)
      (call : nextFrame reader staged reads = .returned s raw reads') :
      Handshaken s.reader s.staged

/-! ### One frame -/

/-- The parser stands behind the bytes `p` of an unfinished frame. -/
structure Parser.Holds (s : Parser) (p : List UInt8) : Prop where
  place : At format s.reader p
  filled_eq : s.filled = min (format.streamed p).length s.assembled.length
  kept : s.assembled.take s.filled = (format.streamed p).take s.assembled.length

/-- What parsing the bytes `rest` does from behind the bytes `p`, with an
assembly buffer of `size` bytes. -/
inductive ParseSpec (size : ℕ) (p rest : List UInt8) : Parser × Parsed → Prop
  | more {s : Parser} (holds : s.Holds (p ++ rest)) (length : s.assembled.length = size)
      (used : s.rest = []) : ParseSpec size p rest (s, .more)
  | frame {s : Parser} {len : ℕ} (f : Wire format) (holds : s.Holds [])
      (length : s.assembled.length = size) (split : p ++ rest = f.bytes ++ s.rest)
      (shorter : s.rest.length < rest.length)
      (payload : s.assembled.take len = (rawOf f).2.take size) :
      ParseSpec size p rest (s, .frame f.header.kind len)
  | protocol {s : Parser} {hd tail : List UInt8} {e : DerpError}
      (split : p ++ rest = hd ++ tail) (len : hd.length = headerLen)
      (refused : format.refuse (format.decode hd) = some e) :
      ParseSpec size p rest (s, .protocol)

/-- All of `rest` was used, and then nothing more was found. -/
theorem ParseSpec.used_up {size : ℕ} {p rest : List UInt8} {res : Parser × Parsed}
    (h : ParseSpec size (p ++ rest) [] res) : ParseSpec size p rest res := by
  cases h with
  | more holds length used =>
    rw [List.append_nil] at holds
    exact .more holds length used
  | frame f holds length split shorter payload => exact absurd shorter (Nat.not_lt_zero _)
  | protocol split len refused =>
    rw [List.append_nil] at split
    exact .protocol split len refused

/-- A chunk goes behind what is assembled, as far as there is room. -/
theorem assemble_chunk {buf body : List UInt8} {filled : ℕ} (chunk : List UInt8)
    (hf : filled = min body.length buf.length) (hk : buf.take filled = body.take buf.length) :
    let take := min chunk.length (buf.length - filled)
    (Bytes.blit buf filled (chunk.take take)).length = buf.length ∧
      filled + take = min (body ++ chunk).length buf.length ∧
      (Bytes.blit buf filled (chunk.take take)).take (filled + take) =
        (body ++ chunk).take buf.length := by
  intro take
  have ht : take = min chunk.length (buf.length - filled) := rfl
  have hlen : (chunk.take take).length = take := by
    rw [List.length_take]
    omega
  have hfront : (buf.take filled ++ chunk.take take).length = filled + take := by
    rw [List.length_append, hlen, List.length_take]
    omega
  refine ⟨Bytes.length_blit (by rw [hlen]; omega), ?_, ?_⟩
  · rw [List.length_append]
    omega
  · rw [Bytes.blit, List.take_left' hfront, hk, List.take_append]
    -- the room left in the buffer is what the body leaves of it
    congr 1
    rcases Nat.le_total chunk.length (buf.length - body.length) with hle | hle
    · rw [List.take_of_length_le hle, List.take_of_length_le (by omega)]
    · congr 1
      omega

namespace Parser

variable {s : Parser} {p : List UInt8}

theorem rest_advance (s : Parser) (reader : FrameReader) (n : ℕ) :
    ({ s with reader := reader, pos := s.pos + n } : Parser).rest = s.rest.drop n := by
  rw [rest, rest, List.drop_drop]

/-- Between frames nothing is assembled. -/
theorem Holds.nil {s : Parser} (place : At format s.reader []) (hf : s.filled = 0) : s.Holds [] where
  place := place
  filled_eq := by rw [hf, streamed_nil, List.length_nil, Nat.zero_min]
  kept := by rw [hf, streamed_nil, List.take_zero, List.take_nil]

/-- Nothing left to feed. -/
theorem ParseSpec.done (h : s.Holds p) (hend : ¬ s.pos < s.staged.length) :
    ParseSpec s.assembled.length p s.rest (s, .more) := by
  have hnil : s.rest = [] := List.drop_eq_nil_of_le (Nat.not_lt.mp hend)
  refine .more ?_ rfl hnil
  rw [hnil, List.append_nil]
  exact h

theorem parse_spec (k : ℕ) (h : s.Holds p) (hk : s.rest.length ≤ k) :
    ParseSpec s.assembled.length p s.rest (parse k s) := by
  induction k generalizing s p with
  | zero =>
    rw [rest, List.length_drop] at hk
    have hend : ¬ s.pos < s.staged.length := by omega
    rw [parse, if_neg hend]
    exact ParseSpec.done h hend
  | succ k ih =>
    rw [parse]
    by_cases hend : s.pos < s.staged.length
    swap
    · rw [if_neg hend]
      exact ParseSpec.done h hend
    rw [if_pos hend]
    have hpos : 0 < s.rest.length := by
      rw [rest, List.length_drop]
      omega
    have hf := feed_spec h.place s.rest
    unfold FrameReader.feed
    generalize format.feed s.reader s.rest = res at hf
    -- all staged bytes were used, and the loop looks once more
    have again : ∀ {s' : Parser}, s'.Holds (p ++ s.rest) → s'.rest = [] →
        s'.assembled.length = s.assembled.length →
        ParseSpec s.assembled.length p s.rest (parse k s') := by
      intro s' holds hnil hlen
      have hspec := ih holds (by rw [hnil]; exact Nat.zero_le k)
      rw [hnil, hlen] at hspec
      exact hspec.used_up
    have hused : ∀ reader : FrameReader,
        ({ s with reader := reader, pos := s.pos + s.rest.length } : Parser).rest = [] := by
      intro reader
      rw [rest_advance, List.drop_length]
    have split : ∀ {f : Wire format} (n : ℕ), f.bytes = p ++ s.rest.take n →
        p ++ s.rest = f.bytes ++ s.staged.drop (s.pos + n) := by
      intro f n hb
      rw [← List.drop_drop, ← rest, hb, List.append_assoc, List.take_append_drop]
    have shorter : ∀ n, 0 < n → (s.staged.drop (s.pos + n)).length < s.rest.length := by
      intro n hn
      rw [rest, List.length_drop, List.length_drop]
      omega
    cases hf with
    | @more r' place same =>
      simp only [Except.map, Option.map_none]
      rw [if_neg (by omega)]
      refine again ⟨place, ?_, ?_⟩ (hused r') rfl
      · rw [same]
        exact h.filled_eq
      · rw [same]
        exact h.kept
    | @control r' n payload f place pos le bytes kind cut same =>
      have hfilled : s.filled = 0 := by
        rw [h.filled_eq, same, List.length_nil, Nat.zero_min]
      have hraw : (rawOf f).2 = payload := by
        rw [rawOf, if_pos kind, cut]
        rfl
      have hf : 0 = min ([] : List UInt8).length s.assembled.length := by
        rw [List.length_nil, Nat.zero_min]
      obtain ⟨hlen, -, hpayload⟩ := assemble_chunk payload hf (by rw [List.take_zero, List.take_nil])
      rw [Nat.zero_add, Nat.sub_zero, List.nil_append, ← hraw] at hpayload
      refine .frame f (Holds.nil place hfilled) hlen (split n bytes) (shorter n pos) ?_
      rw [hraw] at hpayload ⊢
      exact hpayload
    | @last r' n chunk f place pos le bytes kind rest tail =>
      have hraw : (rawOf f).2 = f.payload := by
        rw [rawOf, if_neg (by rw [kind]; exact Bool.false_ne_true)]
      obtain ⟨hlen, -, hpayload⟩ := assemble_chunk chunk h.filled_eq h.kept
      refine .frame f (Holds.nil place rfl) hlen (split n bytes) (shorter n pos) ?_
      rw [rest, ← hraw] at hpayload
      exact hpayload
    | @chunk r' chunk place pos nonempty enough more =>
      obtain ⟨hlen, hfilled, hkept⟩ := assemble_chunk chunk h.filled_eq h.kept
      refine again ⟨place, ?_, ?_⟩ (hused r') hlen
      · rw [more, hlen]
        exact hfilled
      · rw [more, hlen]
        exact hkept
    | @refused r' n e place pos le len error same =>
      have hsplit : p ++ s.rest = p ++ s.rest.take n ++ s.rest.drop n := by
        rw [List.append_assoc, List.take_append_drop]
      exact .protocol hsplit len error

/-! ### Turns and runs -/

/-- The frame as `handle_frame` receives it from a buffer of `size` bytes. -/
def truncated (size : ℕ) (f : Wire format) : Raw := (f.header.kind, (rawOf f).2.take size)

/-- One turn: the next frame, or the wait with nothing staged. -/
theorem turn_spec {fs : List (Wire format)} {wire : List UInt8} (h : s.Holds p)
    (hbytes : p ++ s.rest ++ wire = stream fs) :
    (∃ s' f fs', s.turn = (s', .handle (truncated s.assembled.length f)) ∧ fs = f :: fs' ∧
      s'.Holds [] ∧ s'.assembled.length = s.assembled.length ∧ s'.pos = 0 ∧
      s'.staged.length < s.rest.length ∧ s'.staged ++ wire = stream fs') ∨
    (∃ s', s.turn = (s', .wait) ∧ s'.Holds (p ++ s.rest) ∧
      s'.assembled.length = s.assembled.length ∧ s'.pos = 0 ∧ s'.staged = []) := by
  have hspec := parse_spec s.rest.length h (Nat.le_refl _)
  unfold turn
  generalize parse s.rest.length s = res at hspec
  cases hspec with
  | @more s' holds length used =>
    right
    have hstaged : s'.reclaim.staged = [] := used
    refine ⟨s'.reclaim, ?_, ⟨holds.place, holds.filled_eq, holds.kept⟩, length, rfl, hstaged⟩
    simp only [hstaged]
    rfl
  | @frame s' len f holds length split shorter payload =>
    left
    rw [split, List.append_assoc] at hbytes
    obtain ⟨fs', rfl, hrest⟩ := stream_eq_frame hbytes.symm
    refine ⟨s'.reclaim, f, fs', ?_, rfl, ⟨holds.place, holds.filled_eq, holds.kept⟩, length, rfl,
      shorter, hrest.symm⟩
    rw [truncated, ← payload]
  | @protocol s' hd tail e split len refused =>
    rw [split, List.append_assoc] at hbytes
    exact absurd hbytes (stream_ne_refused fs len (by rw [refused]; exact nofun) _)

/-- Turns up to the wait: every frame that is complete. -/
theorem turns_spec (k : ℕ) {fs : List (Wire format)} {wire : List UInt8} (h : s.Holds p)
    (hpos : s.pos = 0) (hbytes : p ++ s.staged ++ wire = stream fs) (hk : s.staged.length < k) :
    ∃ s' done todo p', s.turns k = (s', done.map (truncated s.assembled.length), .wait) ∧
      fs = done ++ todo ∧ s'.Holds p' ∧ s'.assembled.length = s.assembled.length ∧ s'.pos = 0 ∧
      s'.staged = [] ∧ p' ++ wire = stream todo := by
  have hrest : s.rest = s.staged := by rw [rest, hpos, List.drop_zero]
  induction k generalizing s p fs with
  | zero => exact absurd hk (Nat.not_lt_zero _)
  | succ k ih =>
    rw [← hrest] at hbytes
    unfold turns
    rcases turn_spec h hbytes with ⟨s₁, f, fs', he, rfl, h₁, hsize, hpos₁, hlt, hbytes₁⟩ |
      ⟨s₁, he, h₁, hsize, hpos₁, hstaged⟩
    · have hrest₁ : s₁.rest = s₁.staged := by rw [rest, hpos₁, List.drop_zero]
      rw [hrest] at hlt
      obtain ⟨s₂, done, todo, p', he₂, rfl, h₂, hsize₂, hpos₂, hstaged₂, hbytes₂⟩ :=
        ih h₁ hpos₁ hbytes₁ (by omega) hrest₁
      refine ⟨s₂, f :: done, todo, p', ?_, rfl, h₂, hsize₂.trans hsize, hpos₂, hstaged₂, hbytes₂⟩
      rw [he]
      simp only [he₂, hsize, List.map_cons]
    · refine ⟨s₁, [], fs, _, ?_, rfl, h₁, hsize, hpos₁, hstaged, hbytes⟩
      rw [he]
      rfl

/-- **Runs.**  Whatever ends the waits: the bytes that the reads return are
taken, the frames that they complete are handed over, and what is left of them
is not yet a frame. -/
theorem run_spec {fs : List (Wire format)} {wire : List UInt8} (events : List PumpEvent)
    (h : s.Holds p) (hpos : s.pos = 0) (hbytes : p ++ s.staged ++ wire = stream fs) :
    ∃ s' done todo p',
      s.run wire events = (s', wire.drop (returned events),
        done.map (truncated s.assembled.length), if .closed ∈ events then .io else .wait) ∧
      fs = done ++ todo ∧ s'.Holds p' ∧ p' ++ wire.drop (returned events) = stream todo := by
  induction events generalizing s p fs wire with
  | nil =>
    obtain ⟨s₁, done, todo, p', he, rfl, h₁, -, -, -, hbytes₁⟩ :=
      turns_spec _ h hpos hbytes (Nat.lt_succ_self _)
    refine ⟨s₁, done, todo, p', ?_, rfl, h₁, hbytes₁⟩
    rw [run, he, if_neg List.not_mem_nil]
    rfl
  | cons e events ih =>
    obtain ⟨s₁, done, todo, p', he, rfl, h₁, hsize, hpos₁, hstaged, hbytes₁⟩ :=
      turns_spec _ h hpos hbytes (Nat.lt_succ_self _)
    rw [run, he]
    cases e with
    | read n =>
      -- the read stages the next bytes of the stream behind `p'`
      have hm : min (n + 1) (stagedSize - s₁.staged.length) = min (n + 1) stagedSize := by
        rw [hstaged, List.length_nil, Nat.sub_zero]
      have hbytes₂ : p' ++ (s₁.staged ++ wire.take (min (n + 1) stagedSize)) ++
          wire.drop (min (n + 1) stagedSize) = stream todo := by
        rw [hstaged, List.nil_append, List.append_assoc, List.take_append_drop, hbytes₁]
      obtain ⟨s₂, done₂, todo₂, p₂, he₂, rfl, h₂, hbytes₃⟩ :=
        ih (s := { s₁ with staged := s₁.staged ++ wire.take (min (n + 1) stagedSize) })
          ⟨h₁.place, h₁.filled_eq, h₁.kept⟩ hpos₁ hbytes₂
      rw [List.drop_drop] at he₂ hbytes₃
      refine ⟨s₂, done ++ done₂, todo₂, p₂, ?_, (List.append_assoc ..).symm, h₂, hbytes₃⟩
      simp only [await, hm, he₂, hsize, returned, List.map_append, List.mem_cons, reduceCtorEq,
        false_or]
    | outbound packet =>
      -- the packet cancels the read, and the parser stays as it is
      rw [← List.append_nil p', ← hstaged] at hbytes₁
      obtain ⟨s₂, done₂, todo₂, p₂, he₂, rfl, h₂, hbytes₂⟩ := ih h₁ hpos₁ hbytes₁
      refine ⟨s₂, done ++ done₂, todo₂, p₂, ?_, (List.append_assoc ..).symm, h₂, hbytes₂⟩
      simp only [await, he₂, hsize, returned, List.map_append, List.mem_cons, reduceCtorEq,
        false_or]
    | closed => exact ⟨s₁, done, todo, p', rfl, rfl, h₁, hbytes₁⟩

/-! ### From the handshake on -/

theorem nextFrame_spec {reads : List (List UInt8)} {s' : Parser} {raw : Raw}
    {reads' : List (List UInt8)} (h : s.Holds p)
    (he : s.nextFrame reads = .returned s' raw reads') : At format s'.reader [] := by
  induction hl : reads.length using Nat.strong_induction_on generalizing s p reads with
  | _ l ih =>
    have hspec := parse_spec s.rest.length h (Nat.le_refl _)
    unfold nextFrame at he
    generalize parse s.rest.length s = res at hspec he
    cases hspec with
    | @frame s₁ len f holds length split shorter payload =>
      obtain ⟨rfl, -, -⟩ := NextFrame.returned.inj he
      exact holds.place
    | protocol => cases he
    | @more s₁ holds length used =>
      rcases reads with - | ⟨- | ⟨b, bs⟩, reads⟩
      · cases he
      · cases he
      · have hholds : ({ s₁.reclaim with staged := s₁.rest ++ b :: bs } : Parser).Holds
            (p ++ s.rest) := ⟨holds.place, holds.filled_eq, holds.kept⟩
        exact ih reads.length (by rw [← hl]; exact Nat.lt_succ_self _) hholds he rfl

end Parser

/-- The handshake ends between frames. -/
theorem Handshaken.place {reader : FrameReader} {staged : List UInt8}
    (h : Handshaken reader staged) : At format reader [] := by
  induction h with
  | upgrade staged => exact At.start format ⟨.unknown, 0⟩
  | next before call ih => exact Parser.nextFrame_spec (Parser.Holds.nil ih rfl) call

/-- The frame as `handle_frame` should receive it: 1600 bytes of its payload,
or 512 of a control frame. -/
def handed (f : RawFrame) : Raw :=
  (f.type, f.payload.take (if f.whole then controlFrameMax else 1600))

theorem truncated_toWire (f : RawFrame) : Parser.truncated 1600 f.toWire = handed f := by
  rw [Parser.truncated, rawOf_toWire, RawFrame.raw, handed, f.header_toWire]
  split_ifs
  · rw [List.take_take]
    rfl
  · rfl

/-- `pump` from between two frames on: the frames that the staged bytes and the
reads complete are handed over, and no frame waits behind them. -/
theorem Parser.run_start {reader : FrameReader} {staged wire : List UInt8}
    {frames : List RawFrame} (events : List PumpEvent) (hplace : At format reader [])
    (hbytes : staged ++ wire = wires frames) :
    ∃ s done todo unfinished,
      (Parser.start reader staged).run wire events = (s, wire.drop (returned events),
        done.map handed, if .closed ∈ events then .io else .wait) ∧
      frames = done ++ todo ∧ staged ++ wire.take (returned events) = wires done ++ unfinished ∧
      unfinished ++ wire.drop (returned events) = wires todo ∧
      (∀ f ∈ todo.head?, unfinished.length < f.wire.length) ∧
      (wire.length ≤ returned events → done = frames) := by
  have hholds : (Parser.start reader staged).Holds [] := .nil hplace rfl
  have hsplit := hbytes
  rw [← stream_toWire] at hbytes
  obtain ⟨s, done, todo, p', he, hfs, hs, hbytes'⟩ := Parser.run_spec events hholds rfl hbytes
  obtain ⟨rdone, rtodo, rfl, rfl, rfl⟩ := List.map_eq_append_iff.mp hfs
  have hsize : (Parser.start reader staged).assembled.length = 1600 := List.length_replicate
  have hmap : rdone.map (Parser.truncated 1600 ∘ RawFrame.toWire) = rdone.map handed :=
    List.map_congr_left fun f _ => truncated_toWire f
  rw [hsize, List.map_map, hmap] at he
  rw [stream_toWire] at hbytes'
  refine ⟨s, rdone, rtodo, p', he, rfl, ?_, hbytes', ?_, ?_⟩
  · suffices h : staged ++ wire.take (returned events) ++ wire.drop (returned events) =
        wires rdone ++ p' ++ wire.drop (returned events) from List.append_cancel_right h
    rw [List.append_assoc, List.take_append_drop, hsplit, wires_append, List.append_assoc,
      hbytes']
  · intro f hf
    obtain ⟨todo', rfl⟩ := List.head?_eq_some_iff.mp hf
    refine Nat.not_le.mp fun hle => ?_
    -- a complete frame would have been handed over
    have hp : p' = f.toWire.bytes ++ (wires todo').take (p'.length - f.wire.length) := by
      have htake := congrArg (List.take p'.length) hbytes'
      rw [List.take_left, wires_cons, List.take_append, List.take_of_length_le hle] at htake
      exact htake
    exact hs.place.noFrame _ _ hp
  · intro hall
    rw [List.drop_eq_nil_of_le hall, ← stream_toWire, List.append_nil] at hbytes'
    have hstream : stream ([] : List (Wire format)) ++ p' =
        stream (rtodo.map RawFrame.toWire) ++ [] := by
      rw [stream_nil, List.nil_append, List.append_nil, hbytes']
    obtain ⟨hnil, -⟩ := stream_inj hs.place.noFrame (noFrame_nil format) hstream
    rw [List.map_eq_nil_iff.mp hnil.symm, List.append_nil]

/-- **The pump hands over the frames of the stream.**  From wherever the
handshake left the reader, for every stream of frames that starts with the
staged bytes, and whatever the reads return and however outbound packets
cancel them: the pump takes the bytes that the reads return and no others, and
the frames handed over are those that are complete in them, in order, each once
and cut at the buffer.  When the reads have returned the whole stream these are
all its frames.  The pump waits, or its connection ended; its staging buffer is
never full. -/
theorem pump_hands_over_frames (reader : FrameReader) (staged wire : List UInt8)
    (frames : List RawFrame) (events : List PumpEvent) (hhandshake : Handshaken reader staged)
    (hbytes : staged ++ wire = wires frames) :
    ∃ s done todo unfinished,
      (Parser.start reader staged).run wire events = (s, wire.drop (returned events),
        done.map handed, if .closed ∈ events then .io else .wait) ∧
      frames = done ++ todo ∧ staged ++ wire.take (returned events) = wires done ++ unfinished ∧
      unfinished ++ wire.drop (returned events) = wires todo ∧
      (∀ f ∈ todo.head?, unfinished.length < f.wire.length) ∧
      (wire.length ≤ returned events → done = frames) :=
  Parser.run_start events hhandshake.place hbytes

/-- A keep-alive in two reads, with an outbound packet in between: it is handed
over, and nothing else. -/
theorem pump_hands_over_frames_keepAlive :
    ∃ s, (Parser.start .new [6, 0]).run [0, 0, 0] [.read 0, .outbound [1], .read 1] =
      (s, [], [(.keepAlive, [])], .wait) := by
  obtain ⟨s, done, todo, unfinished, he, -, -, -, -, hall⟩ :=
    pump_hands_over_frames .new [6, 0] [0, 0, 0] [⟨6, [], by decide⟩]
      [.read 0, .outbound [1], .read 1] (.upgrade _) (by decide +kernel)
  rw [hall (by decide)] at he
  exact ⟨s, he⟩

end Lando.Fw
