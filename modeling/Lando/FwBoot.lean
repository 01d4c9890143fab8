/-
Lando/FwBoot.lean

The identity of a device over its reboots (`main` and `console_task` of
`lando-fw/src/main.rs`).

`main` loads the configuration, and if a key is missing it draws both, and saves.
The record grows by 64 bytes there, and `save` never looks whether it fits
(`FwConfig`): a configuration that was saved without keys may be too long with
them.  The device then panics in every boot, before it touches the flash, so

    every boot comes up with the keys of the first      if the record fits
    every boot panics                                   otherwise

(`boots_alike_iff`).  Once there are keys they stay: what is typed stages
fields, and every save writes the keys that were loaded (`identity_kept`).

A save erases the sector before it writes.  A reset in between leaves nothing
that loads, and the keys are lost; the source takes that into account, as somebody
is provisioning the device then.  The boots of this file save to the end.
-/
import Lando.FwConsole

namespace Lando.Fw

open Bytes Console

/-! ### A boot -/

/-- The two keys that the generator would draw. -/
structure Draw where
  machineKey : Key
  nodeKey : Key
  deriving DecidableEq

namespace Config

/-- A key is missing. -/
def lacksKeys (c : Config) : Bool := c.machineKey.isNone || c.nodeKey.isNone

/-- The configuration with keys, drawn if one is missing. -/
def keyed (c : Config) (d : Draw) : Config :=
  if c.lacksKeys then { c with machineKey := some d.machineKey, nodeKey := some d.nodeKey } else c

end Config

/-- `main` up to the first task: what is in the flash afterwards, and the
configuration it goes on with; without one, a panic. -/
def boot (s : Store) (d : Draw) : Store × Option (Option Config) :=
  match s.load with
  | none => (s, none)
  | some none => (s, some none)
  | some (some config) =>
      if config.lacksKeys then
        let config :=
          { config with machineKey := some d.machineKey, nodeKey := some d.nodeKey }
        match Store.save config with
        | none => (s, none)
        | some s => (s, some (some config))
      else (s, some (some config))

/-- Boot after boot. -/
def boots (s : Store) : List Draw → List (Store × Option (Option Config))
  | [] => []
  | d :: ds => boot s d :: boots (boot s d).1 ds

/-- The task that reads the console, when it starts. -/
def Console.start (s : Store) : Console where
  line := .empty
  pending := (s.load.getD none).getD .default
  store := s
  derpEnabled := true

/-- What is left of a save that is cut off: the sector was erased, and so many
bytes of the image were written. -/
def Store.torn (s : Store) (written : ℕ) : Store where
  sector := s.sector.take written ++ List.replicate (eraseSize - written) 0xff
  size := by
    rw [List.length_append, List.length_take, List.length_replicate, s.size]
    omega

/-- When a device is reset. -/
inductive Reset
  /-- Not while it saves; by a panic, by the bootloader, or by the power. -/
  | outside
  /-- While it saves what is pending, as one more line asks it to. -/
  | inside (written : ℕ)
  deriving DecidableEq

/-- From one reset to the next: what would be drawn, what is typed, and how it
ends. -/
structure Cycle where
  draw : Draw
  packets : List (List UInt8)
  reset : Reset

/-- The flash after a cycle.  A panic and the bootloader end it early. -/
def cycle (s : Store) (p : Cycle) : Store :=
  match boot s p.draw with
  | (s, none) => s
  | (s, some _) =>
      match (Console.start s).feedPackets p.packets, p.reset with
      | (c, none), .inside written =>
          match Store.save c.pending with
          | none => c.store
          | some saved => saved.torn written
      | (c, _), _ => c.store

/-! ### One boot after the other -/

variable {s : Store} {config : Config} {d : Draw}

theorem Config.lacksKeys_keyed (c : Config) (d : Draw) : (c.keyed d).lacksKeys = false := by
  unfold Config.keyed
  rcases h : c.lacksKeys with - | -
  · simpa using h
  · simp [Config.lacksKeys]

/-- A boot with keys changes nothing. -/
theorem boot_of_keys (hload : s.load = some (some config)) (hkeys : config.lacksKeys = false) :
    boot s d = (s, some (some config)) := by
  simp [boot, hload, hkeys]

/-- A boot without keys saves them, or panics. -/
theorem boot_of_lacksKeys (hload : s.load = some (some config)) (hkeys : config.lacksKeys = true) :
    boot s d = match Store.save (config.keyed d) with
      | none => (s, none)
      | some s => (s, some (some (config.keyed d))) := by
  simp only [boot, hload, Config.keyed, if_pos hkeys]

theorem boots_of_keys (hload : s.load = some (some config)) (hkeys : config.lacksKeys = false)
    (ds : List Draw) : boots s ds = List.replicate ds.length (s, some (some config)) := by
  induction ds with
  | nil => rfl
  | cons d ds ih => rw [boots, boot_of_keys hload hkeys, ih, List.length_cons, List.replicate_succ]

/-- Without room for keys, the size of the record does not depend on which. -/
theorem length_record_keyed (c : Config) (d : Draw) (h : c.lacksKeys = true) :
    (c.keyed d).record.length = 75 + (c.fields.map fun f => 1 + f.asBytes.length).sum := by
  rw [Config.length_record, Config.keyed, if_pos h]
  simp [Config.fields, Config.keys]
  omega

theorem boots_of_no_room (hload : s.load = some (some config)) (hkeys : config.lacksKeys = true)
    (hroom : imageLen < 75 + (config.fields.map fun f => 1 + f.asBytes.length).sum)
    (ds : List Draw) : boots s ds = List.replicate ds.length (s, none) := by
  have hsave : ∀ d, Store.save (config.keyed d) = none := by
    intro d
    rw [Store.save_eq, dif_neg]
    rw [length_record_keyed config d hkeys]
    exact Nat.not_le.mpr hroom
  induction ds with
  | nil => rfl
  | cons d ds ih =>
    have hboot : boot s d = (s, none) := by rw [boot_of_lacksKeys hload hkeys, hsave]
    rw [boots, hboot, ih, List.length_cons, List.replicate_succ]

/-- With keys, or room for them, every boot goes on with the keys of the first. -/
theorem boots_keyed (hload : s.load = some (some config)) (d : Draw) (ds : List Draw)
    (h : config.lacksKeys = false ∨
      75 + (config.fields.map fun f => 1 + f.asBytes.length).sum ≤ imageLen) :
    ∀ r ∈ boots s (d :: ds), r.2 = some (some (config.keyed d)) ∧
      r.1.load = some (some (config.keyed d)) := by
  intro r hr
  rcases hkeys : config.lacksKeys with - | -
  · -- the keys are there
    have hkeyed : config.keyed d = config := by rw [Config.keyed, if_neg (by simp [hkeys])]
    rw [boots_of_keys hload hkeys] at hr
    rw [List.eq_of_mem_replicate hr, hkeyed]
    exact ⟨rfl, hload⟩
  · -- the first boot writes them, and the others find them
    have hroom := h.resolve_left (by rw [hkeys]; exact Bool.noConfusion)
    have hsave := Store.save_eq (config.keyed d)
    rw [dif_pos (by rw [length_record_keyed config d hkeys]; exact hroom)] at hsave
    have hload' := Store.load_of_save hsave
    have hboot := boot_of_lacksKeys (d := d) hload hkeys
    rw [hsave] at hboot
    rw [boots, hboot, boots_of_keys hload' (Config.lacksKeys_keyed config d)] at hr
    rcases List.mem_cons.mp hr with rfl | hr
    · exact ⟨rfl, hload'⟩
    · rw [List.eq_of_mem_replicate hr]
      exact ⟨rfl, hload'⟩

/-- **Reboots.**  A device that holds a configuration comes up in every boot with
the keys of the first one, if they are in the record already or there is room
for them; otherwise it panics in every boot, and the flash stays as it is.  No boot
is cut off while it saves. -/
theorem boots_alike_iff (s : Store) (config : Config) (hload : s.load = some (some config))
    (d : Draw) (ds : List Draw) :
    ((∀ r ∈ boots s (d :: ds), r.2 = some (some (config.keyed d)) ∧
        r.1.load = some (some (config.keyed d))) ↔
      config.lacksKeys = false ∨
        75 + (config.fields.map fun f => 1 + f.asBytes.length).sum ≤ imageLen) ∧
    (¬ (config.lacksKeys = false ∨
        75 + (config.fields.map fun f => 1 + f.asBytes.length).sum ≤ imageLen) →
      ∀ r ∈ boots s (d :: ds), r = (s, none)) := by
  refine ⟨⟨fun h => ?_, boots_keyed hload d ds⟩, fun h r hr => ?_⟩
  · by_contra hnone
    rw [not_or, Bool.not_eq_false, Nat.not_le] at hnone
    have hfirst := (h (boot s d) List.mem_cons_self).1
    have hall := boots_of_no_room hload hnone.1 hnone.2 (d :: ds)
    rw [boots, List.length_cons, List.replicate_succ, List.cons.injEq] at hall
    rw [hall.1] at hfirst
    cases hfirst
  · rw [not_or, Bool.not_eq_false, Nat.not_le] at h
    rw [boots_of_no_room hload h.1 h.2] at hr
    exact List.eq_of_mem_replicate hr

/-- Five strings of 96 bytes are saved, and the keys have no room: the device
panics in its first boot and in every one after it. -/
theorem boots_alike_iff_no_room :
    let config : Config := ⟨Store.longest, Store.longest, Store.longest, Store.longest,
      Store.longest, none, none⟩
    let draw : UInt8 → Draw := fun b => ⟨Vector.replicate 32 b, Vector.replicate 32 b⟩
    ∃ s, Store.save config = some s ∧ ∀ r ∈ boots s [draw 0, draw 1, draw 2], r = (s, none) := by
  intro config draw
  have hlen : Store.longest.asBytes.length = 96 := by decide +kernel
  have hroom : config.record.length ≤ imageLen := by
    rw [Config.length_record]
    simp only [config, Config.fields, Config.keys, List.map_cons, List.map_nil, hlen]
    decide
  have hsave := (Store.save_eq config).trans (dif_pos hroom)
  refine ⟨_, hsave, ?_⟩
  apply (boots_alike_iff _ config (Store.load_of_save hsave) (draw 0) [draw 1, draw 2]).2
  simp only [config, Config.fields, Config.lacksKeys, List.map_cons, List.map_nil, hlen]
  decide

/-! ### What is typed -/

variable {m n : Key} {c : Console}

/-- The configuration has these keys. -/
def Config.Has (m n : Key) (config : Config) : Prop :=
  config.machineKey = some m ∧ config.nodeKey = some n

/-- The flash holds a configuration with these keys. -/
def Store.Has (m n : Key) (s : Store) : Prop :=
  ∃ config, s.load = some (some config) ∧ config.Has m n

/-- The line is a `clear`. -/
def Clears (line : List UInt8) : Prop :=
  (splitCommand (Host.trim (Line.empty.pushAll line).text)).1 = "clear".toList

theorem Config.Has.put {config : Config} (h : config.Has m n) (setting : Setting) (v : Field) :
    (setting.put config v).Has m n := by
  cases setting <;> exact h

/-- What is pending and what is in the flash have these keys. -/
structure Console.Has (m n : Key) (c : Console) : Prop where
  pending : c.pending.Has m n
  store : c.store.Has m n

/-- No command but `clear` touches a key. -/
theorem Console.Has.handleCommand (h : c.Has m n) (text : List Char)
    (hclear : (splitCommand (Host.trim text)).1 ≠ "clear".toList) :
    (c.handleCommand text).1.Has m n := by
  unfold Console.handleCommand
  rcases e : splitCommand (Host.trim text) with ⟨cmd, value⟩
  rw [e] at hclear
  simp only
  rcases Setting.ofWord cmd with - | setting
  · simp only
    by_cases hderp : cmd = "derp".toList
    · rw [if_pos hderp]
      exact ⟨h.pending, h.store⟩
    rw [if_neg hderp]
    by_cases hsave : cmd = "save".toList
    · rw [if_pos hsave]
      rcases es : Store.save c.pending with - | store
      · exact h
      · exact ⟨h.pending, c.pending, Store.load_of_save es, h.pending⟩
    · rw [if_neg hsave, if_neg hclear]
      exact h
  · simp only [Console.stage]
    rcases Field.tryFrom value with - | v
    · exact h
    · exact ⟨h.pending.put setting v, h.store⟩

theorem Console.Has.takeLine (h : c.Has m n) {line : List UInt8} (hclear : ¬ Clears line) :
    (c.takeLine line).1.Has m n := by
  unfold Console.takeLine
  by_cases hboot : line.head? = some 0x62
  · rw [if_pos hboot]
    exact h
  · rw [if_neg hboot]
    exact h.handleCommand _ hclear

theorem Console.Has.takePart (h : c.Has m n) (line : List UInt8) :
    (c.takePart line).1.Has m n := by
  unfold Console.takePart
  by_cases hboot : line.head? = some 0x62
  · rw [if_pos hboot]
    exact h
  · rw [if_neg hboot]
    exact ⟨h.pending, h.store⟩

/-- A session without a `clear` keeps the keys, wherever it ends. -/
theorem Console.Has.feedPackets (h : c.Has m n) (hline : c.line = .empty)
    {packets : List (List UInt8)}
    (hclear : ∀ line ∈ (packets.flatten.splitOnP isEnd).dropLast, ¬ Clears line) :
    (c.feedPackets packets).1.Has m n := by
  have hlines := Halting.run_invariant (I := Console.Has m n) h
    fun c line hl hc => hc.takeLine (hclear line hl)
  have hcut : c.feedPackets packets = c.feed packets.flatten := Halting.run_run packets
  rw [hcut, feed_eq c hline]
  rcases e : Halting.run Console.takeLine c (packets.flatten.splitOnP isEnd).dropLast with
    ⟨c', - | halt⟩
  · rw [e] at hlines
    exact hlines.takePart _
  · rw [e] at hlines
    exact hlines

theorem Store.Has.boot (h : s.Has m n) (d : Draw) :
    ∃ config, Fw.boot s d = (s, some (some config)) ∧ config.Has m n := by
  obtain ⟨config, hload, hkeys⟩ := h
  refine ⟨config, boot_of_keys hload ?_, hkeys⟩
  simp [Config.lacksKeys, hkeys.1, hkeys.2]

/-- The console of a device with keys. -/
theorem Store.Has.start (h : s.Has m n) : (Console.start s).Has m n := by
  obtain ⟨config, hload, hkeys⟩ := h
  refine ⟨?_, config, hload, hkeys⟩
  show ((s.load.getD none).getD Config.default).Has m n
  rw [hload]
  exact hkeys

theorem Store.Has.cycle (h : s.Has m n) {p : Cycle} (hreset : p.reset = .outside)
    (hclear : ∀ line ∈ (p.packets.flatten.splitOnP isEnd).dropLast, ¬ Clears line) :
    (Fw.cycle s p).Has m n := by
  obtain ⟨config, hboot, -⟩ := h.boot p.draw
  have hcycle : Fw.cycle s p = ((Console.start s).feedPackets p.packets).1.store := by
    rcases hfed : (Console.start s).feedPackets p.packets with ⟨c, - | halt⟩
    · simp only [Fw.cycle, hboot, hreset, hfed]
    · simp only [Fw.cycle, hboot, hreset, hfed]
  rw [hcycle]
  exact (h.start.feedPackets rfl hclear).store

/-- Without the byte behind the magic nothing is loaded. -/
theorem Store.load_torn (s : Store) {written : ℕ} (h : written < 9) :
    (s.torn written).load = some none := by
  have hlen : ((s.torn written).sector.take imageLen).length = imageLen := by
    rw [List.length_take, (s.torn written).size]
    rfl
  have hversion : ((s.torn written).sector.take imageLen).getD 8 0 = 0xff := by
    have htake : (s.sector.take written).length = written := by
      rw [List.length_take, s.size]
      exact Nat.min_eq_left (by unfold eraseSize; omega)
    rw [List.getD_eq_getElem?_getD, List.getElem?_take_of_lt (by decide), torn,
      List.getElem?_append_right (by omega), htake,
      List.getElem?_replicate_of_lt (by unfold eraseSize; omega)]
    rfl
  unfold load Config.parse
  rw [if_neg (by rw [hlen]; decide), if_pos (.inr (by rw [hversion]; decide))]
  rfl

/-- A reset between the erase and the write loses the configuration. -/
theorem Store.Has.cycle_torn (h : s.Has m n) {p : Cycle} {written : ℕ}
    (hreset : p.reset = .inside written) (hwritten : written < 9) {c : Console} {saved : Store}
    (hpackets : (Console.start s).feedPackets p.packets = (c, none))
    (hsave : Store.save c.pending = some saved) (d : Draw) :
    Fw.boot (Fw.cycle s p) d = (Fw.cycle s p, some none) := by
  obtain ⟨config, hboot, -⟩ := h.boot p.draw
  have hcycle : Fw.cycle s p = saved.torn written := by
    rw [Fw.cycle, hboot]
    simp only [hpackets, hreset, hsave]
  rw [hcycle, Fw.boot, Store.load_torn saved hwritten]

/-- **The identity of a device.**  Once the flash holds two keys, every boot goes
on with them: whatever is typed between any two resets, in whatever packets, and
however the resets come about, as long as no line is a `clear` and no reset comes
while the device saves.  One that comes between the erase and the write leaves it
without a configuration. -/
theorem identity_kept (s : Store) (m n : Key) (h : s.Has m n) (cycles : List Cycle)
    (hreset : ∀ p ∈ cycles, p.reset = .outside)
    (hclear : ∀ p ∈ cycles, ∀ line ∈ (p.packets.flatten.splitOnP isEnd).dropLast, ¬ Clears line)
    (d : Draw) :
    let s' := cycles.foldl cycle s
    (∃ config, boot s' d = (s', some (some config)) ∧ config.Has m n) ∧
    ∀ (p : Cycle) (written : ℕ) (c : Console) (saved : Store), p.reset = .inside written →
      written < 9 → (Console.start s').feedPackets p.packets = (c, none) →
      Store.save c.pending = some saved → boot (cycle s' p) d = (cycle s' p, some none) := by
  intro s'
  have hs' : s'.Has m n := by
    induction cycles generalizing s with
    | nil => exact h
    | cons p cycles ih =>
      apply ih (cycle s p) (h.cycle (hreset p List.mem_cons_self) (hclear p List.mem_cons_self))
      · exact fun q hq => hreset q (List.mem_cons_of_mem p hq)
      · exact fun q hq => hclear q (List.mem_cons_of_mem p hq)
  exact ⟨hs'.boot d, fun p written c saved hinside hwritten hpackets hsave =>
    hs'.cycle_torn hinside hwritten hpackets hsave d⟩

/-- A new password is typed and saved, and the device is reset. -/
theorem identity_kept_password :
    let key : UInt8 → Key := Vector.replicate 32
    let config : Config := ⟨⟨['a'], by decide⟩, ⟨['b'], by decide⟩, .default, .default, .default,
      some (key 1), some (key 2)⟩
    let cycles : List Cycle := [⟨⟨key 3, key 4⟩, ["pass c\nsave\n".toUTF8.toList], .outside⟩]
    ∃ s, Store.save config = some s ∧
      ∃ config', boot (cycles.foldl cycle s) ⟨key 5, key 6⟩ =
        (cycles.foldl cycle s, some (some config')) ∧ config'.Has (key 1) (key 2) := by
  intro key config cycles
  have hroom : config.record.length ≤ imageLen := by
    rw [Config.length_record]
    decide +kernel
  have hsave := (Store.save_eq config).trans (dif_pos hroom)
  refine ⟨_, hsave, ?_⟩
  have hhas : Store.Has (key 1) (key 2) _ := ⟨config, Store.load_of_save hsave, rfl, rfl⟩
  have hreset : ∀ p ∈ cycles, p.reset = .outside := by
    intro p hp
    rw [List.mem_singleton.mp hp]
  refine (identity_kept _ (key 1) (key 2) hhas cycles hreset ?_ ⟨key 5, key 6⟩).1
  have hlines : (["pass c\nsave\n".toUTF8.toList].flatten.splitOnP isEnd).dropLast =
      ["pass c".toUTF8.toList, "save".toUTF8.toList] := by decide +kernel
  intro p hp line hline
  rw [List.mem_singleton.mp hp, hlines] at hline
  have hpass : ¬ Clears "pass c".toUTF8.toList := by
    unfold Clears
    decide +kernel
  have hsaves : ¬ Clears "save".toUTF8.toList := by
    unfold Clears
    decide +kernel
  rcases List.mem_pair.mp hline with rfl | rfl
  · exact hpass
  · exact hsaves

end Lando.Fw
