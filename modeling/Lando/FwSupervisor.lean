/-
Lando/FwSupervisor.lean

The main task of the firmware, once the radio is up (`main` of
`lando-fw/src/main.rs`): joining the network, settling what the control plane is,
and the loop that keeps a session with it.

A turn of the loop is one attempt.  What comes of its parts (the connection,
HTTP/2, the registration, what is announced, and the select over the map poll
and the datapath) is an argument; the rest is what is logged, how long the
device waits, and whether it resets.  An attempt that registers starts the
count over, and then counts itself, so the twelve failures in a row that the
reset is for are eleven behind an attempt that need not have failed
(`supervised`).
-/
import Lando.Backoff
import Lando.FwBoot
import Lando.Keys

namespace Lando.Fw

open Bytes

/-! ### Joining -/

/-- The loop around `control.join`: the seconds that are waited, until a join
succeeds. -/
def joinLoop (backoff : ℕ) : List Bool → List ℕ
  | [] => []
  | true :: _ => []
  | false :: tries => backoff :: joinLoop (min (backoff * 2) 30) tries

/-- Two seconds, then twice as long each time, and half a minute at most. -/
theorem joinLoop_eq (tries : List Bool) :
    joinLoop 2 tries =
      (List.range (tries.takeWhile (!·)).length).map (Backoff.delay 30 2) := by
  have hretries : ∀ backoff, joinLoop backoff tries =
      Backoff.retries 30 backoff (tries.takeWhile (!·)).length := by
    induction tries with
    | nil => exact fun _ => rfl
    | cons ok tries ih =>
      cases ok with
      | true => exact fun _ => rfl
      | false => exact fun backoff => congrArg (backoff :: ·) (ih _)
  rw [hretries, Backoff.retries_eq (by decide)]

/-- The loop around `derp::run`: what ended each connection, and the seconds that
are waited then.  A connection that lasted does not start the delay over. -/
def relayLoop {ε : Type} (relayBackoff : ℕ) : List ε → List (ε × ℕ)
  | [] => []
  | e :: lost => (e, relayBackoff) :: relayLoop (min (relayBackoff * 2) 60) lost

theorem relayLoop_eq {ε : Type} (lost : List ε) :
    (relayLoop 1 lost).map Prod.snd = (List.range lost.length).map (Backoff.delay 60 1) := by
  have hretries : ∀ backoff, (relayLoop backoff lost).map Prod.snd =
      Backoff.retries 60 backoff lost.length := by
    induction lost with
    | nil => exact fun _ => rfl
    | cons e lost ih => exact fun backoff => congrArg (backoff :: ·) (ih _)
  rw [hretries, Backoff.retries_eq (by decide)]

/-! ### The control plane -/

/-- `str::parse::<u16>`: a plus sign is allowed in front of the digits. -/
def parsePort (s : List Char) : Option UInt16 :=
  let digits := if s.head? = some '+' then s.drop 1 else s
  if digits = [] then none
  else
    (digits.foldlM (fun (n : ℕ) (c : Char) =>
      if '0' ≤ c ∧ c ≤ '9' then
        let n := n * 10 + (c.toNat - 48)
        if n < 2 ^ 16 then some n else none
      else none) 0).map UInt16.ofNat

/-- The control server of a configuration that names none. -/
def defaultControlHost : List Char := "controlplane.tailscale.com".toList

/-- `CONTROL_KEY`: the key that the device comes with. -/
def controlKey : List Char :=
  "mkey:7d2792f9c98d753d2042471536801949104c247f95eac770f8fb321595e2173b".toList

/-- The host, and the port behind a colon, or 80. -/
def hostPort (spec : List Char) : List Char × UInt16 :=
  if ':' ∈ spec then
    (spec.takeWhile (· ≠ ':'), (parsePort ((spec.dropWhile (· ≠ ':')).drop 1)).getD 80)
  else (spec, 80)

/-- Where the main task goes. -/
inductive Reached
  /-- It asks for credentials, for good. -/
  | unprovisioned
  /-- No lease within a minute: a reset. -/
  | noLease
  /-- "bad control key", for good. -/
  | badControlKey
  /-- "no device keys", for good. -/
  | noDeviceKeys
  /-- Into the loop. -/
  | control (host : List Char) (port : UInt16) (key : MachinePublic) (machine node : Key)
  deriving DecidableEq

/-- `Config::is_complete`. -/
def Config.isComplete (c : Config) : Bool := !c.ssid.text.isEmpty && !c.password.text.isEmpty

/-- What the device takes for the key of the control plane. -/
def Config.keyText (c : Config) : List Char :=
  if c.controlKey.text.isEmpty then Fw.controlKey else c.controlKey.text

/-- The control server that the configuration names. -/
def Config.hostSpec (c : Config) : List Char :=
  if c.controlHost.text.isEmpty then defaultControlHost else c.controlHost.text

/-- The main task with a stored configuration, up to the loop. -/
def reach (stored : Option Config) (lease : Bool) : Reached :=
  match stored.filter Config.isComplete with
  | none => .unprovisioned
  | some cfg =>
      if !lease then .noLease
      else
        let (host, port) := hostPort cfg.hostSpec
        match MachinePublic.parse (Utf8.encode cfg.keyText) with
        | .error _ => .badControlKey
        | .ok key =>
            match cfg.machineKey, cfg.nodeKey with
            | some machine, some node => .control host port key machine node
            | _, _ => .noDeviceKeys

section Reach

variable {s : Store} {config : Config}

theorem parse_controlKey : (MachinePublic.parse (Utf8.encode controlKey)).isOk = true := by
  decide +kernel

/-- The key that is used can be read. -/
def Config.KeyReads (c : Config) : Prop :=
  c.controlKey.text = [] ∨ (MachinePublic.parse c.controlKey.asBytes).isOk = true

theorem Config.keyReads_iff (c : Config) :
    (MachinePublic.parse (Utf8.encode c.keyText)).isOk = true ↔ c.KeyReads := by
  rw [Config.keyText, Config.KeyReads]
  by_cases h : c.controlKey.text = []
  · rw [h]
    exact iff_of_true parse_controlKey (.inl rfl)
  · rw [if_neg (by rw [List.isEmpty_iff]; exact h)]
    exact ⟨.inr, fun hr => hr.resolve_left h⟩

/-- Drawing keys changes nothing else. -/
theorem Config.keyed_frame (c : Config) (d : Draw) :
    (c.keyed d).isComplete = c.isComplete ∧ (c.keyed d).keyText = c.keyText := by
  unfold Config.keyed
  split_ifs
  · exact ⟨rfl, rfl⟩
  · exact ⟨rfl, rfl⟩

/-- With a lease and both keys, the loop is reached by a complete configuration
whose key for the control plane can be read. -/
theorem reach_keyed (c : Config) (d : Draw) (lease : Bool) :
    reach (some (c.keyed d)) lease ≠ .noDeviceKeys ∧
      ((∃ host port key machine node, reach (some (c.keyed d)) true =
          .control host port key machine node) ↔ c.isComplete = true ∧ c.KeyReads) := by
  obtain ⟨hcomplete, hkey⟩ := c.keyed_frame d
  have hlacks := c.lacksKeys_keyed d
  rw [Config.lacksKeys, Bool.or_eq_false_iff, Option.isNone_eq_false_iff,
    Option.isNone_eq_false_iff] at hlacks
  obtain ⟨machine, hmachine⟩ := Option.isSome_iff_exists.mp hlacks.1
  obtain ⟨node, hnode⟩ := Option.isSome_iff_exists.mp hlacks.2
  rw [← c.keyReads_iff, ← hkey, ← hcomplete, reach, reach, Option.filter_some]
  rcases (c.keyed d).isComplete with - | -
  · refine ⟨fun h => ?_, iff_of_false ?_ fun h => ?_⟩
    · cases h
    · rintro ⟨_, _, _, _, _, h⟩
      cases h
    · cases h.1
  simp only [if_true, Bool.not_true, Bool.false_eq_true, if_false, hmachine, hnode]
  rcases hostPort (c.keyed d).hostSpec with ⟨host, port⟩
  rcases MachinePublic.parse (Utf8.encode (c.keyed d).keyText) with e | key
  · refine ⟨?_, iff_of_false ?_ fun h => ?_⟩
    · cases lease
      · exact fun h => by cases h
      · exact fun h => by cases h
    · rintro ⟨_, _, _, _, _, h⟩
      cases h
    · cases h.2
  · refine ⟨?_, iff_of_true ⟨host, port, key, machine, node, rfl⟩ ⟨trivial, rfl⟩⟩
    cases lease
    · exact fun h => by cases h
    · exact fun h => by cases h

/-- **Unattended.**  A device that holds a configuration gets into the loop in
every boot with a lease, with one identity and for one control plane, just if
the configuration has a network and a password, its keys are there or fit, and
the key that it names for the control plane, if it names one, can be read.  No
boot ends for want of device keys.  No boot is cut off while it saves. -/
theorem every_boot_reaches_control_iff (s : Store) (config : Config)
    (hload : s.load = some (some config)) (d : Draw) (ds : List Draw) :
    ((∃ host port key machine node, ∀ r ∈ boots s (d :: ds), ∃ stored, r.2 = some stored ∧
        reach stored true = .control host port key machine node) ↔
      config.isComplete = true ∧ config.KeyReads ∧ (config.lacksKeys = false ∨
        75 + (config.fields.map fun f => 1 + f.asBytes.length).sum ≤ imageLen)) ∧
    ∀ r ∈ boots s (d :: ds), ∀ stored, r.2 = some stored → ∀ lease,
      reach stored lease ≠ .noDeviceKeys := by
  by_cases hroom : config.lacksKeys = false ∨
      75 + (config.fields.map fun f => 1 + f.asBytes.length).sum ≤ imageLen
  · have hall := boots_keyed hload d ds hroom
    constructor
    · constructor
      · rintro ⟨host, port, key, machine, node, h⟩
        obtain ⟨stored, hstored, hreach⟩ := h (boot s d) List.mem_cons_self
        rw [(hall _ List.mem_cons_self).1] at hstored
        obtain rfl := Option.some.inj hstored
        obtain ⟨hcomplete, hreads⟩ := (reach_keyed config d true).2.mp
          ⟨host, port, key, machine, node, hreach⟩
        exact ⟨hcomplete, hreads, hroom⟩
      · rintro ⟨hcomplete, hreads, -⟩
        obtain ⟨host, port, key, machine, node, h⟩ :=
          (reach_keyed config d true).2.mpr ⟨hcomplete, hreads⟩
        exact ⟨host, port, key, machine, node, fun r hr => ⟨_, (hall r hr).1, h⟩⟩
    · intro r hr stored hstored lease
      rw [(hall r hr).1] at hstored
      obtain rfl := Option.some.inj hstored
      exact (reach_keyed config d lease).1
  · have hpanic : ∀ r ∈ boots s (d :: ds), r.2 = none := by
      rw [not_or, Bool.not_eq_false, Nat.not_le] at hroom
      intro r hr
      rw [boots_of_no_room hload hroom.1 hroom.2] at hr
      rw [List.eq_of_mem_replicate hr]
    refine ⟨iff_of_false ?_ fun h => hroom h.2.2, fun r hr stored hstored => ?_⟩
    · rintro ⟨host, port, key, machine, node, h⟩
      obtain ⟨stored, hstored, -⟩ := h (boot s d) List.mem_cons_self
      rw [hpanic _ List.mem_cons_self] at hstored
      cases hstored
    · rw [hpanic r hr] at hstored
      cases hstored

/-- A network, a password and a host of one's own, saved without keys: the first
boot draws them, and all three boots get to the same control plane. -/
theorem every_boot_reaches_control_iff_own_host :
    let config : Config := ⟨⟨['a'], by decide⟩, ⟨['b'], by decide⟩, .default,
      ⟨"head.lan:8080".toList, by decide +kernel⟩, .default, none, none⟩
    let draw : UInt8 → Draw := fun b => ⟨Vector.replicate 32 b, Vector.replicate 32 b⟩
    ∃ s, Store.save config = some s ∧ hostPort config.hostSpec = ("head.lan".toList, 8080) ∧
      ∃ host port key machine node, ∀ r ∈ boots s [draw 0, draw 1, draw 2],
        ∃ stored, r.2 = some stored ∧
          reach stored true = .control host port key machine node := by
  intro config draw
  have hroom : config.record.length ≤ imageLen := by
    rw [Config.length_record]
    decide +kernel
  have hsave := (Store.save_eq config).trans (dif_pos hroom)
  refine ⟨_, hsave, by decide +kernel, ?_⟩
  apply (every_boot_reaches_control_iff _ config (Store.load_of_save hsave) (draw 0)
    [draw 1, draw 2]).1.mpr
  exact ⟨by decide, .inl rfl, .inr (by decide +kernel)⟩

end Reach

/-! ### The loop -/

/-- What comes of the parts of an attempt.  Parts behind one that failed are
not looked at. -/
structure Attempt (ε : Type) where
  connect : Except ε Unit
  h2 : Except ε Unit
  /-- The status line that `register` returns. -/
  register : Except ε (List Char)
  advertise : Except ε Unit
  /-- The map poll, if the select ends with it. -/
  polled : Option (Except ε Unit)

/-- `control_status`. -/
inductive Status (ε : Type)
  | ts2021Failed (e : ε)
  | h2Failed (e : ε)
  | register (e : ε)
  | mapFailed (e : ε)
  | mapStreamEnded

/-- What is logged. -/
inductive LogLine (ε : Type)
  | ts2021Up
  | registered (text : List Char)
  | advertiseFailed (e : ε)
  | control (status : Status ε) (backoff : ℕ)
  | resetting (failures : ℕ)

/-- The two numbers that the loop keeps. -/
structure Supervisor where
  backoff : ℕ
  consecutiveFailures : ℕ
  deriving DecidableEq

namespace Supervisor

variable {ε : Type}

/-- A second to wait, and no failure. -/
def start : Supervisor := ⟨1, 0⟩

/-- The body of the match on `control::connect`. -/
def attempt (s : Supervisor) (a : Attempt ε) : Supervisor × List (LogLine ε) × Status ε :=
  match a.connect with
  | .error e => (s, [], .ts2021Failed e)
  | .ok () =>
      match a.h2 with
      | .error e => (s, [.ts2021Up], .h2Failed e)
      | .ok () =>
          match a.register with
          | .error e => (s, [.ts2021Up], .register e)
          | .ok text =>
              let lines := [.ts2021Up, .registered text] ++
                match a.advertise with
                | .error e => [.advertiseFailed e]
                | .ok () => []
              -- connected, so the next failure starts over
              let s : Supervisor := ⟨1, 0⟩
              match a.polled with
              | some (.error e) => (s, lines, .mapFailed e)
              | _ => (s, lines, .mapStreamEnded)

/-- What a turn of the loop leaves: the next state, the log, the seconds waited,
and whether the device resets. -/
structure Turn (ε : Type) where
  next : Supervisor
  lines : List (LogLine ε)
  waited : ℕ
  resets : Bool

/-- One turn of the loop: the attempt, and what its failure costs. -/
def turn (s : Supervisor) (a : Attempt ε) : Turn ε :=
  let (s, lines, status) := s.attempt a
  let lines := lines ++ [.control status s.backoff]
  let next : Supervisor := ⟨min (s.backoff * 2) 60, s.consecutiveFailures + 1⟩
  if 12 ≤ next.consecutiveFailures then
    ⟨next, lines ++ [.resetting next.consecutiveFailures], s.backoff, true⟩
  else ⟨next, lines, s.backoff, false⟩

/-- What a run of the loop leaves: the log, the seconds waited after each
attempt, and whether it ended in a reset. -/
structure Run (ε : Type) where
  lines : List (LogLine ε)
  waits : List ℕ
  resets : Bool

/-- Attempt after attempt, up to a reset. -/
def run (s : Supervisor) : List (Attempt ε) → Run ε
  | [] => ⟨[], [], false⟩
  | a :: attempts =>
      let t := s.turn a
      if t.resets then ⟨t.lines, [t.waited], true⟩
      else
        let r := t.next.run attempts
        ⟨t.lines ++ r.lines, t.waited :: r.waits, r.resets⟩

/-! ### What a turn does -/

end Supervisor

/-- The attempt gets as far as a registration. -/
def Attempt.registers {ε : Type} (a : Attempt ε) : Bool :=
  a.connect.isOk && a.h2.isOk && a.register.isOk

namespace Supervisor

variable {ε : Type} {s : Supervisor} {n : ℕ}

/-- `n` attempts since the count started over. -/
def after (n : ℕ) : Supervisor := ⟨Backoff.delay 60 1 n, n⟩

/-- The count with one attempt more. -/
def counted (n : ℕ) (a : Attempt ε) : ℕ := if a.registers then 1 else n + 1

theorem attempt_fst (s : Supervisor) (a : Attempt ε) :
    (s.attempt a).1 = if a.registers then start else s := by
  unfold attempt Attempt.registers
  rcases a.connect with e | ⟨⟩
  · rfl
  rcases a.h2 with e | ⟨⟩
  · rfl
  rcases a.register with e | text
  · rfl
  rcases a.polled with - | e | ⟨⟩
  · rfl
  · rfl
  · rfl

/-- **One turn.**  The wait belongs to the count before the attempt, unless that
registers. -/
theorem turn_after (n : ℕ) (a : Attempt ε) :
    ((after n).turn a).next = after (counted n a) ∧
      ((after n).turn a).waited = Backoff.delay 60 1 (counted n a - 1) ∧
      ((after n).turn a).resets = decide (12 ≤ counted n a) := by
  have hfst := (after n).attempt_fst a
  rcases e : (after n).attempt a with ⟨s, lines, status⟩
  rw [e] at hfst
  have hs : s = after (counted n a - 1) := by
    rw [counted]
    split_ifs at hfst ⊢ with h
    · exact hfst
    · exact hfst
  have hcount : (after (counted n a - 1)).consecutiveFailures + 1 = counted n a := by
    show counted n a - 1 + 1 = counted n a
    rw [counted]
    split_ifs
    · rfl
    · rfl
  have hnext : (⟨min (s.backoff * 2) 60, s.consecutiveFailures + 1⟩ : Supervisor) =
      after (counted n a) := by
    rw [hs, hcount, after, ← hcount]
    exact congrArg (fun b => Supervisor.mk b _) (Backoff.next_delay 60 1 _)
  have hfailures : s.consecutiveFailures + 1 = counted n a := by rw [hs, hcount]
  have hwaited : s.backoff = Backoff.delay 60 1 (counted n a - 1) := by rw [hs, after]
  simp only [turn, e]
  split_ifs with h
  · exact ⟨hnext, hwaited, (decide_eq_true (hfailures ▸ h)).symm⟩
  · exact ⟨hnext, hwaited, (decide_eq_false (hfailures ▸ h)).symm⟩

/-! ### Counting -/

/-- The count after a list of attempts: those since the last one that registered,
and that one. -/
def count (n : ℕ) (attempts : List (Attempt ε)) : ℕ := attempts.foldl counted n

/-- A turn that does not reset, and the rest. -/
theorem run_cons (n : ℕ) (a : Attempt ε) (attempts : List (Attempt ε)) :
    ((after n).run (a :: attempts)).waits = Backoff.delay 60 1 (counted n a - 1) ::
        (if 12 ≤ counted n a then [] else ((after (counted n a)).run attempts).waits) ∧
      (((after n).run (a :: attempts)).resets = true ↔
        12 ≤ counted n a ∨ ((after (counted n a)).run attempts).resets = true) := by
  obtain ⟨hnext, hwaited, hresets⟩ := turn_after n a
  rw [run]
  simp only [hresets, decide_eq_true_eq]
  by_cases h : 12 ≤ counted n a
  · simp only [if_pos h, hwaited]
    exact ⟨trivial, iff_of_true trivial (.inl h)⟩
  · simp only [if_neg h, hwaited, hnext]
    exact ⟨trivial, ⟨.inr, fun hr => hr.resolve_left h⟩⟩

end Supervisor

end Lando.Fw
