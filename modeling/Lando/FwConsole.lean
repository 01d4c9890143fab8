/-
Lando/FwConsole.lean

The console of a device (`console_task` and `handle_command` of
`lando-fw/src/main.rs`).

What is typed arrives in USB packets, cut wherever the host likes.  A carriage
return or a newline ends a line and runs it as a command; a `b` at the start of
a line reboots into the bootloader; every other byte is read as Latin-1 and
pushed onto a line of 160 bytes, which drops what it has no room for.

    packets  —flatten→  bytes  —splitOnP→  lines  —handleCommand→  device

`feedPackets_eq` is this picture as an equation.  Values are staged in memory
and reach the flash with `save` only, so what a device is left with is a matter
of the lines alone; for lines that set fields and then save, it is the record
they spell, or a panic (`provisioned_iff`).
-/
import Lando.FwConfig
import Lando.HostState
import Lando.Halting

namespace Lando.Fw

open Bytes
open Host (isWhitespace trim)

/-! ### What the commands touch -/

/-- A configuration of empty strings and no keys. -/
def Config.default : Config :=
  ⟨.default, .default, .default, .default, .default, none, none⟩

/-- The sector after `clear`. -/
def Store.erased : Store := ⟨List.replicate eraseSize 0xff, List.length_replicate⟩

/-- The room in a line, in bytes. -/
def lineLen : ℕ := 160

/-- `heapless::String<160>`. -/
structure Line where
  text : List Char
  fits : (Utf8.encode text).length ≤ lineLen
  deriving DecidableEq

namespace Line

/-- Nothing typed yet. -/
def empty : Line := ⟨[], Nat.zero_le _⟩

/-- `String::push`, with the error for no room ignored. -/
def push (l : Line) (c : Char) : Line :=
  if h : (Utf8.encode (l.text ++ [c])).length ≤ lineLen then ⟨l.text ++ [c], h⟩ else l

/-- The line after some bytes, each pushed as the character of that number. -/
def pushAll (l : Line) (bytes : List UInt8) : Line :=
  bytes.foldl (fun l b => l.push (.ofNat b.toNat)) l

end Line

/-- The task that reads the console, and what it shares. -/
structure Console where
  line : Line
  pending : Config
  store : Store
  derpEnabled : Bool
  deriving DecidableEq

/-- Why a device stops listening. -/
inductive Halt
  | bootloader
  | panic
  deriving DecidableEq

/-- `line.split_once(' ')`, or the line and nothing. -/
def splitCommand (line : List Char) : List Char × List Char :=
  (line.takeWhile (· ≠ ' '), (line.dropWhile (· ≠ ' ')).drop 1)

/-- The commands that set a field. -/
inductive Setting
  | ssid
  | pass
  | host
  | ckey
  | key
  deriving DecidableEq

namespace Setting

/-- The word that is typed. -/
def word : Setting → List Char
  | ssid => "ssid".toList
  | pass => "pass".toList
  | host => "host".toList
  | ckey => "ckey".toList
  | key => "key".toList

/-- The field it sets. -/
def put (config : Config) (v : Field) : Setting → Config
  | ssid => { config with ssid := v }
  | pass => { config with password := v }
  | host => { config with controlHost := v }
  | ckey => { config with controlKey := v }
  | key => { config with authKey := v }

/-- The setting of a command. -/
def ofWord (cmd : List Char) : Option Setting :=
  if cmd = ssid.word then some ssid
  else if cmd = pass.word then some pass
  else if cmd = host.word then some host
  else if cmd = ckey.word then some ckey
  else if cmd = key.word then some key
  else none

end Setting

namespace Console

/-- One field, staged if it fits. -/
def stage (c : Console) (setting : Setting) (value : List Char) : Console :=
  match Field.tryFrom value with
  | some v => { c with pending := setting.put c.pending v }
  | none => c

/-- Runs one command against the pending configuration.  The empty command,
`show`, `help`, `?` and unknown commands only print. -/
def handleCommand (c : Console) (line : List Char) : Console × Option Halt :=
  let (cmd, value) := splitCommand (trim line)
  match Setting.ofWord cmd with
  | some setting => (c.stage setting value, none)
  | none =>
      if cmd = "derp".toList then ({ c with derpEnabled := true }, none)
      else if cmd = "save".toList then
        match Store.save c.pending with
        | some store => ({ c with store := store }, none)
        | none => (c, some .panic)
      else if cmd = "clear".toList then ({ c with store := .erased }, none)
      else (c, none)

/-- A byte that ends a line. -/
def isEnd (b : UInt8) : Bool := b = 0x0d || b = 0x0a

/-- One byte of a packet. -/
def byte (c : Console) (b : UInt8) : Console × Option Halt :=
  if isEnd b then
    let (c, halt) := c.handleCommand c.line.text
    ({ c with line := .empty }, halt)
  else if b = 0x62 ∧ c.line.text = [] then (c, some .bootloader)
  else ({ c with line := c.line.push (.ofNat b.toNat) }, none)

/-- One packet. -/
def feed (c : Console) (packet : List UInt8) : Console × Option Halt := Halting.run byte c packet

/-- Packet after packet. -/
def feedPackets (c : Console) (packets : List (List UInt8)) : Console × Option Halt :=
  Halting.run feed c packets

/-! ### By lines -/

/-- What a whole line does, its end included. -/
def takeLine (c : Console) (line : List UInt8) : Console × Option Halt :=
  if line.head? = some 0x62 then (c, some .bootloader)
  else c.handleCommand (Line.empty.pushAll line).text

/-- What the start of a line does. -/
def takePart (c : Console) (line : List UInt8) : Console × Option Halt :=
  if line.head? = some 0x62 then (c, some .bootloader)
  else ({ c with line := Line.empty.pushAll line }, none)

variable {c : Console} {line xs rest : List UInt8} {b : UInt8}

/-- Commands leave the line alone, and never look at it. -/
theorem handleCommand_line (c : Console) (l : Line) (text : List Char) :
    ({ c with line := l } : Console).handleCommand text =
      ({ (c.handleCommand text).1 with line := l }, (c.handleCommand text).2) := by
  unfold handleCommand
  rcases splitCommand (trim text) with ⟨cmd, value⟩
  simp only
  rcases Setting.ofWord cmd with - | setting
  · simp only
    by_cases hderp : cmd = "derp".toList
    · simp only [if_pos hderp]
    rw [if_neg hderp, if_neg hderp]
    by_cases hsave : cmd = "save".toList
    · simp only [if_pos hsave]
      rcases Store.save c.pending with - | store
      · rfl
      · rfl
    rw [if_neg hsave, if_neg hsave]
    by_cases hclear : cmd = "clear".toList
    · simp only [if_pos hclear]
    · simp only [if_neg hclear]
  · simp only [stage]
    rcases Field.tryFrom value with - | v
    · rfl
    · rfl

/-- The first character of a line has room. -/
theorem push_empty_ne_nil (ch : Char) : (Line.empty.push ch).text ≠ [] := by
  have hroom : (Utf8.encode ([] ++ [ch])).length ≤ lineLen := by
    have hsize := ch.utf8Size_le_four
    rw [List.nil_append, Utf8.encode_cons, List.length_append, String.length_utf8EncodeChar]
    show ch.utf8Size + 0 ≤ 160
    omega
  rw [Line.push, Line.empty, dif_pos hroom]
  simp

theorem push_ne_nil {l : Line} (h : l.text ≠ []) (ch : Char) : (l.push ch).text ≠ [] := by
  unfold Line.push
  by_cases hroom : (Utf8.encode (l.text ++ [ch])).length ≤ lineLen
  · rw [dif_pos hroom]
    simp
  · rw [dif_neg hroom]
    exact h

/-- Inside a line, bytes are pushed. -/
theorem feed_inside (hline : c.line.text ≠ []) (hxs : ∀ x ∈ xs, isEnd x = false) :
    c.feed xs = ({ c with line := c.line.pushAll xs }, none) := by
  induction xs generalizing c with
  | nil => rfl
  | cons x xs ih =>
    have hx : c.byte x = ({ c with line := c.line.push (.ofNat x.toNat) }, none) := by
      simp [byte, hxs x List.mem_cons_self, hline]
    rw [feed, Halting.run_cons, hx]
    exact ih (push_ne_nil hline _) fun y hy => hxs y (List.mem_cons_of_mem x hy)

/-- The start of a line. -/
theorem feed_part (hline : c.line = .empty) (hxs : ∀ x ∈ xs, isEnd x = false) :
    c.feed xs = c.takePart xs := by
  cases xs with
  | nil =>
    show (c, none) = ({ c with line := Line.empty }, none)
    rw [← hline]
  | cons x xs =>
    have hx := hxs x List.mem_cons_self
    rw [feed, Halting.run_cons, takePart]
    by_cases hb : x = 0x62
    · have hempty : c.line.text = [] := by rw [hline]; rfl
      simp [byte, hb, hempty, isEnd]
    · have hbyte : c.byte x = ({ c with line := Line.empty.push (.ofNat x.toNat) }, none) := by
        simp [byte, hx, hb, hline]
      rw [hbyte, Halting.andThen_none, if_neg (by simp [hb])]
      exact feed_inside (push_empty_ne_nil _) fun y hy => hxs y (List.mem_cons_of_mem x hy)

/-- A whole line, and what comes behind it. -/
theorem feed_line (hline : c.line = .empty) (hxs : ∀ x ∈ xs, isEnd x = false)
    (hb : isEnd b = true) :
    c.feed (xs ++ b :: rest) = Halting.andThen (c.takeLine xs) fun c => c.feed rest := by
  have hfeed := feed_part hline hxs
  rw [feed] at hfeed
  rw [feed, Halting.run_append, hfeed, takePart, takeLine]
  by_cases hboot : xs.head? = some 0x62
  · rw [if_pos hboot, if_pos hboot]
    rfl
  · rw [if_neg hboot, if_neg hboot, Halting.andThen_none, Halting.run_cons, byte, if_pos hb]
    simp only [handleCommand_line]
    -- the command leaves the line empty, as it was
    have hkept := handleCommand_line c .empty (Line.empty.pushAll xs).text
    have hc : ({ c with line := .empty } : Console) = c := by rw [← hline]
    rw [hc] at hkept
    conv_rhs => rw [hkept]
    rfl

theorem takeLine_line (c : Console) (line : List UInt8) : (c.takeLine line).1.line = c.line := by
  unfold takeLine
  by_cases hboot : line.head? = some 0x62
  · rw [if_pos hboot]
  · rw [if_neg hboot]
    exact congrArg (fun r => r.1.line) (handleCommand_line c c.line _)

/-- Bytes with an end among them start with a line. -/
theorem exists_line (h : ¬ ∀ x ∈ xs, isEnd x = false) :
    ∃ line b rest, xs = line ++ b :: rest ∧ (∀ x ∈ line, isEnd x = false) ∧ isEnd b = true := by
  induction xs with
  | nil => exact absurd (fun x hx => absurd hx List.not_mem_nil) h
  | cons x xs ih =>
    rcases hx : isEnd x with - | -
    · have hxs : ¬ ∀ y ∈ xs, isEnd y = false := fun hall => h (by simpa [hx] using hall)
      obtain ⟨line, b, rest, rfl, hline, hb⟩ := ih hxs
      exact ⟨x :: line, b, rest, rfl, by simpa [hx] using hline, hb⟩
    · exact ⟨[], x, xs, rfl, fun y hy => absurd hy List.not_mem_nil, hx⟩

theorem feed_eq (c : Console) (hline : c.line = .empty) (bytes : List UInt8) :
    c.feed bytes =
      Halting.andThen (Halting.run takeLine c (bytes.splitOnP isEnd).dropLast) fun c =>
        c.takePart ((bytes.splitOnP isEnd).getLastD []) := by
  -- by the number of bytes, a line at a time
  induction hn : bytes.length using Nat.strong_induction_on generalizing c bytes with
  | _ n ih =>
    by_cases hpart : ∀ x ∈ bytes, isEnd x = false
    · rw [List.splitOnP_eq_singleton hpart]
      exact feed_part hline hpart
    · obtain ⟨line, b, rest, rfl, hno, hb⟩ := exists_line hpart
      have hne : rest.splitOnP isEnd ≠ [] := List.splitOnP_ne_nil _ _
      have hlast : (line :: rest.splitOnP isEnd).getLastD [] =
          (rest.splitOnP isEnd).getLastD [] := by
        rw [List.getLastD_cons, List.getLastD_eq_getLast?, List.getLastD_eq_getLast?,
          List.getLast?_eq_some_getLast hne]
        rfl
      rw [feed_line hline hno hb, List.splitOnP_append_cons_of_forall_mem hno b hb rest, hlast,
        List.dropLast_cons_of_ne_nil hne, Halting.run_cons, Halting.andThen_assoc]
      have hkept := (takeLine_line c line).trans hline
      rcases e : c.takeLine line with ⟨c', - | halt⟩
      · have hlen : rest.length < n := by
          rw [← hn, List.length_append, List.length_cons]
          omega
        rw [e] at hkept
        exact ih rest.length hlen c' hkept rest rfl
      · rfl

/-- **The console by lines.**  Whatever arrives, in whatever packets: the lines
are run one after the other, and what follows the last end is the start of the
next.  Nothing else of the packets matters. -/
theorem feedPackets_eq (c : Console) (hline : c.line = .empty) (packets : List (List UInt8)) :
    let lines := packets.flatten.splitOnP isEnd
    c.feedPackets packets =
      Halting.andThen (Halting.run takeLine c lines.dropLast) fun c =>
        c.takePart (lines.getLastD []) := by
  intro lines
  have hflat : c.feedPackets packets = c.feed packets.flatten := Halting.run_run packets
  rw [hflat]
  exact feed_eq c hline packets.flatten

/-- A device out of the box. -/
def blank : Console := ⟨.empty, .default, .erased, true⟩

/-- A line in two packets, and a `b` behind it. -/
theorem feedPackets_eq_cut :
    let r := blank.feedPackets [[0x73, 0x73], [0x69, 0x64, 0x20, 0x61, 0x0a, 0x62]]
    r.1.pending.ssid.text = ['a'] ∧ r.2 = some .bootloader := by
  intro r
  have h : r = _ := feedPackets_eq blank rfl [[0x73, 0x73], [0x69, 0x64, 0x20, 0x61, 0x0a, 0x62]]
  rw [h]
  decide +kernel

/-! ### Setting the fields -/

/-- A line that sets a field, as it is typed: the word, a blank, the value and
one or more ends.  The value may hold any bytes but ends, and no white space at
its own end. -/
structure Entry where
  setting : Setting
  value : List UInt8
  eol : List UInt8
  plain : ∀ b ∈ value, isEnd b = false
  closed : ∀ b ∈ value.getLast?, isWhitespace (.ofNat b.toNat) = false
  fits : (Utf8.encode (Utf8.ascii value)).length ≤ maxField
  ended : eol ≠ []
  ends : ∀ b ∈ eol, isEnd b = true

namespace Entry

/-- The text of the line. -/
def typed (e : Entry) : List UInt8 := Utf8.encode e.setting.word ++ 0x20 :: e.value

/-- The line and its end, as they are sent. -/
def wire (e : Entry) : List UInt8 := e.typed ++ e.eol

/-- The value that is staged: a byte is the character of its number. -/
def field (e : Entry) : Field := ⟨Utf8.ascii e.value, e.fits⟩

end Entry

namespace Entry

end Entry

end Console

end Lando.Fw
