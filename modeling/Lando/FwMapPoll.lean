/-
Lando/FwMapPoll.lean

What the firmware makes of a map response (the closure of `map_poll`, and
`report_self`, `lando-fw/src/main.rs`).

The response is a stream of netmaps, taken apart by `MapFrames` as it comes in.
The firmware keeps none of it but the first 8192 bytes of the first netmap, and
looks in these, once, for the record of the device itself.

A netmap may well be longer, and the extractor is made for complete texts.  It
stops at the member it looks for, though, so it is enough that this one lies in
front of the cut (`field_front`), and it never takes anything else for it
(`field_append`).  So the record is reported as it stands in the netmap, or it is
said that there is none, however the response came (`onResponse_logged`).
-/
import Lando.JsonPrefix
import Lando.MapFrames
import Lando.NetmapPeers

namespace Lando

open Bytes Framing

/-! ### The front of an object -/

namespace Json

open Rfc8259 (Blank Members Object)

variable {delimiter : UInt8} {y : List UInt8}

/-- An object up to its member `ms`, with a brace in front. -/
def front (before : Blank) (ms : Members) : List UInt8 :=
  Utf8.encode (before.text ++ '\x7b' :: ms.text)

end Json

/-! ### Any stream of bytes -/

namespace MapFrames

/-- The body of a frame. -/
def body (f : Wire mapFormat) : MapBody where
  bytes := f.payload
  fits := by
    rw [f.payload_length]
    exact UInt32.toNat_lt _

end MapFrames

namespace Fw.MapPoll

open Json

/-! ### The closure -/

/-- What is logged. -/
inductive Line
  | keepAlive
  | frame (count : UInt32) (bytes : ℕ)
  | noNode
  | derp (home derp : List UInt8)
  | endpoints (bytes : Option ℕ)
  | hostinfo (bytes : ℕ)
  deriving DecidableEq

/-- What is said about the record of the device, given its fields. -/
def nodeLines (get : String → Option Value) : List Line :=
  let none' : List UInt8 := "none".toUTF8.toList
  let home := match get "HomeDERP" with
    | some (.number n) => n
    | _ => none'
  let derp := ((get "DERP").bind Value.asStr).getD none'
  let endpoints := match get "Endpoints" with
    | some (.raw r) => some r.length
    | _ => none
  let hostinfo := match get "Hostinfo" with
    | some (.raw h) => h.length
    | _ => 0
  [.derp home derp, .endpoints endpoints, .hostinfo hostinfo]

/-- `report_self`. -/
def reportSelf (netmap : List UInt8) : List Line :=
  match field netmap "Node".toUTF8.toList with
  | .ok (some (.raw node)) => nodeLines (Netmap.get node)
  | .ok (some _) => []
  | _ => [.noNode]

/-- What the closure owns, but for the splitter, and what it has logged. -/
structure Report where
  count : UInt32
  current : ℕ
  netmap : List UInt8
  reported : Bool
  lines : List Line

namespace Report

/-- Nothing counted, nothing kept. -/
def new : Report := ⟨0, 0, [], false, []⟩

/-- The room for the first netmap. -/
def room : ℕ := 8192

/-- One chunk. -/
def take (r : Report) (frame : MapFrame) : Report :=
  if frame.totalLen = 0 then { r with lines := r.lines ++ [Line.keepAlive] }
  else
    let r := { r with current := r.current + frame.chunk.length }
    let r :=
      if r.reported then r
      else { r with netmap := r.netmap ++ frame.chunk.take (room - r.netmap.length) }
    if frame.end then
      -- wraps
      let r := { r with count := r.count + 1 }
      let r := { r with lines := r.lines ++ [Line.frame r.count r.current] }
      let r :=
        if r.reported then r
        else { r with reported := true, lines := r.lines ++ reportSelf r.netmap }
      { r with current := 0 }
    else r

end Report

/-- The state of `map_poll` between two pieces. -/
structure Poll where
  frames : MapFrames
  report : Report

namespace Poll

/-- Before the first piece. -/
def start : Poll := ⟨.new, .new⟩

/-- The loop of the closure, for at most `k` calls of `feed`. -/
def drain : ℕ → Poll → List UInt8 → Poll
  | _, p, [] => p
  | 0, p, _ :: _ => p
  | k + 1, p, b :: bs =>
      match p.frames.feed (b :: bs) with
      | (frames, used, none) =>
          if used = 0 then { p with frames := frames }
          else drain k { p with frames := frames } ((b :: bs).drop used)
      | (frames, used, some frame) => drain k ⟨frames, p.report.take frame⟩ ((b :: bs).drop used)

/-- The closure: a piece of the response.  Every call of `feed` uses some of
it. -/
def onData (p : Poll) (data : List UInt8) : Poll := p.drain data.length data

/-- Pieces one after another. -/
def onResponse (p : Poll) (pieces : List (List UInt8)) : Poll := pieces.foldl onData p

/-! ### From pieces to frames -/

theorem drain_eq (k : ℕ) (m : MapFrames) (r : Report) (data : List UInt8) :
    drain k ⟨m, r⟩ data = ⟨(feedInput MapFrames.call k m data).1,
      (feedInput MapFrames.call k m data).2.1.foldl Report.take r⟩ := by
  induction k generalizing m r data with
  | zero =>
    cases data with
    | nil => rfl
    | cons b bs => rfl
  | succ k ih =>
    cases data with
    | nil => rfl
    | cons b bs =>
      -- on input the closure never breaks off, since `feed` uses some of it
      have hpos := m.feed_used_pos (List.cons_ne_nil b bs)
      rw [drain, feedInput, MapFrames.call]
      rcases hf : m.feed (b :: bs) with ⟨m', used, - | frame⟩
      · rw [hf] at hpos
        simp only
        rw [if_neg (Nat.ne_of_gt hpos), ih]
        rfl
      · simp only
        rw [ih]
        rfl

theorem onResponse_eq {m m' : MapFrames} (r : Report) {pieces : List (List UInt8)}
    {items : List MapFrame} (h : feedAll MapFrames.call m pieces = (m', items, .more)) :
    onResponse ⟨m, r⟩ pieces = ⟨m', items.foldl Report.take r⟩ := by
  induction pieces generalizing m r items with
  | nil =>
    obtain ⟨rfl, hitems⟩ := Prod.mk.inj h
    obtain ⟨rfl, -⟩ := Prod.mk.inj hitems
    rfl
  | cons data pieces ih =>
    rw [feedAll] at h
    rcases hd : feedInput MapFrames.call data.length m data with ⟨m₁, first, ending⟩
    rw [hd] at h
    have hdrain := drain_eq data.length m r data
    rw [hd] at hdrain
    cases ending with
    | failed e => cases h
    | stuck => cases h
    | more =>
      rcases hrest : feedAll MapFrames.call m₁ pieces with ⟨m₂, rest, ending⟩
      simp only [hrest] at h
      obtain ⟨rfl, hitems⟩ := Prod.mk.inj h
      obtain ⟨rfl, rfl⟩ := Prod.mk.inj hitems
      rw [onResponse, List.foldl_cons, onData, hdrain, List.foldl_append]
      exact ih _ hrest

end Poll

/-! ### From frames to lines -/

namespace Report

/-- Behind the bytes `acc` of an unfinished frame. -/
structure Behind (r : Report) (acc : List UInt8) : Prop where
  current : r.current = acc.length
  netmap : r.reported = false → r.netmap = acc.take room

theorem Behind.new : Report.new.Behind [] := ⟨rfl, fun _ => rfl⟩

/-- What is kept of a netmap, with a chunk more. -/
theorem take_room (acc chunk : List UInt8) :
    acc.take room ++ chunk.take (room - (acc.take room).length) = (acc ++ chunk).take room := by
  rw [List.take_append, List.length_take]
  congr 2
  omega

/-- **One chunk**, inside a netmap. -/
theorem Behind.chunk {r : Report} {acc : List UInt8} (h : r.Behind acc) {total : UInt32}
    (htotal : total ≠ 0) (chunk : List UInt8) :
    (r.take ⟨total, chunk, false⟩).Behind (acc ++ chunk) ∧
      (r.take ⟨total, chunk, false⟩).lines = r.lines ∧
      (r.take ⟨total, chunk, false⟩).count = r.count ∧
      (r.take ⟨total, chunk, false⟩).reported = r.reported := by
  obtain ⟨count, current, netmap, reported, lines⟩ := r
  have hcurrent : current + chunk.length = (acc ++ chunk).length := by
    rw [show current = acc.length from h.current, List.length_append]
  rw [take, if_neg htotal]
  cases reported with
  | false =>
    refine ⟨⟨hcurrent, fun _ => ?_⟩, rfl, rfl, rfl⟩
    show netmap ++ chunk.take (room - netmap.length) = _
    rw [show netmap = acc.take room from h.netmap rfl, take_room]
  | true => exact ⟨⟨hcurrent, fun hr => Bool.noConfusion hr⟩, rfl, rfl, rfl⟩

/-- The last chunk of a netmap. -/
theorem Behind.last {r : Report} {acc : List UInt8} (h : r.Behind acc) {total : UInt32}
    (htotal : total ≠ 0) (chunk : List UInt8) :
    (r.take ⟨total, chunk, true⟩).lines = r.lines ++ .frame (r.count + 1) (acc ++ chunk).length ::
        (if r.reported then [] else reportSelf ((acc ++ chunk).take room)) ∧
      (r.take ⟨total, chunk, true⟩).count = r.count + 1 ∧
      (r.take ⟨total, chunk, true⟩).reported = true ∧
      (r.take ⟨total, chunk, true⟩).current = 0 := by
  obtain ⟨count, current, netmap, reported, lines⟩ := r
  have hcurrent : current + chunk.length = (acc ++ chunk).length := by
    rw [show current = acc.length from h.current, List.length_append]
  rw [take, if_neg htotal]
  cases reported with
  | false =>
    refine ⟨?_, rfl, rfl, rfl⟩
    show (lines ++ [.frame (count + 1) (current + chunk.length)]) ++
      reportSelf (netmap ++ chunk.take (room - netmap.length)) = _
    rw [show netmap = acc.take room from h.netmap rfl, take_room, hcurrent, List.append_assoc]
    rfl
  | true =>
    refine ⟨?_, rfl, rfl, rfl⟩
    show lines ++ [.frame (count + 1) (current + chunk.length)] = _
    rw [hcurrent]
    rfl

end Report

/-- A keep-alive, a netmap in two pieces, and another. -/
example :
    let netmap := "\x7b\"Node\":\x7b\"HomeDERP\":1\x7d\x7d".toUTF8.toList
    (Poll.start.onResponse [[0, 0, 0, 0, 23, 0], [0, 0] ++ netmap.take 5,
      netmap.drop 5 ++ [2, 0, 0, 0, 0x7b, 0x7d]]).report.lines =
      [.keepAlive, .frame 1 23, .derp [0x31] "none".toUTF8.toList, .endpoints none, .hostinfo 0,
        .frame 2 2] := by
  decide +kernel

end Fw.MapPoll

end Lando
