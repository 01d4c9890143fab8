/-
Lando/DerpLatency.lean

The latency of the home relay, as `Hostinfo::write` reports it (`control.rs`).

`write_seconds` has one digit for the whole seconds, so the number that stands
in the text is

    (ms mod 10000) / 1000

for every `ms`: the measured latency below ten seconds, and only there.
-/
import Lando.Login
import Mathlib.Tactic.NormNum

namespace Lando.Control

open Bytes Json Json.Writer

/-! ### Members by what they denote -/

/-- The first member of this name. -/
def treeMember (name : List Char) : Rfc8259.Tree → Option Rfc8259.Tree
  | .object ts => (ts.find? fun t => t.1 = name).map Prod.snd
  | _ => none

/-- What is said about the latency of the home relay in the text of a `Hostinfo`. -/
def derpLatency (json : List UInt8) : Option Rfc8259.Tree := do
  let hostinfo ← Rfc8259.decode json
  let netInfo ← treeMember "NetInfo".toList hostinfo
  treeMember "DERPLatency".toList netInfo

/-- **An object denotes its members**, under their names. -/
theorem treeMember_objectOf {ms : Named} (h : AllMeant ms) :
    ∃ ts, (Rfc8259.Value.object (objectOf ms)).tree = some (.object ts) ∧
      ∀ name, treeMember name (.object ts) =
        (ms.find? fun m => m.1 = name).bind fun m => m.2.tree := by
  have hmembers : ∃ ts, (ms.map fun m => (Rfc8259.Str.ofChars m.1, m.2)).mapM
      (fun m => do return (← m.1.decode, ← m.2.tree)) = some ts ∧
      ∀ name, treeMember name (.object ts) =
        (ms.find? fun m => m.1 = name).bind fun m => m.2.tree := by
    induction ms with
    | nil => exact ⟨[], rfl, fun _ => rfl⟩
    | cons m ms ih =>
      obtain ⟨t, ht⟩ := h m List.mem_cons_self
      obtain ⟨ts, hts, hfind⟩ := ih fun m hm => h m (List.mem_cons_of_mem _ hm)
      refine ⟨(m.1, t) :: ts, ?_, fun name => ?_⟩
      · rw [List.map_cons, List.mapM_cons, hts, Rfc8259.Str.decode_ofChars, ht]
        rfl
      · -- the first member of a name counts, in both
        by_cases hname : m.1 = name
        · simp [treeMember, hname, ht]
        · have hrest := hfind name
          simpa [treeMember, hname] using hrest
  obtain ⟨ts, hts, hfind⟩ := hmembers
  refine ⟨ts, ?_, hfind⟩
  rw [Rfc8259.Value.tree, objectOf, Rfc8259.Object.trees_compact, hts]
  rfl

/-! ### The number -/

/-- **What `write_seconds` writes**: the last four digits of the milliseconds, as
thousandths. -/
theorem value_seconds (ms : UInt32) :
    (seconds ms).value = ((ms.toNat % 10000 : ℕ) : ℚ) / 1000 := by
  have hwhole : (seconds ms).int.value = ms.toNat / 1000 % 10 := by
    simp [seconds, Rfc8259.Digits.value, Rfc8259.Digit.ofNat]
  -- three digits behind the point, whatever they are
  have hfrac : ∃ ds, (seconds ms).frac = some ds ∧ ds.list.length = 3 ∧
      ds.value = ms.toNat % 1000 := by
    refine ⟨_, rfl, rfl, ?_⟩
    simp [Rfc8259.Digits.value, Rfc8259.Digit.ofNat]
    omega
  obtain ⟨ds, hds, hlen, hval⟩ := hfrac
  have hsplit : ms.toNat % 10000 = ms.toNat / 1000 % 10 * 1000 + ms.toNat % 1000 := by omega
  have hminus : (seconds ms).minus = false := rfl
  have hexp : (seconds ms).exp = none := rfl
  rw [Rfc8259.Number.value, hds, hexp, hminus, hwhole]
  simp only [hlen, hval, hsplit]
  push_cast
  ring

/-- A latency below ten seconds is written, and no other one. -/
theorem value_seconds_eq_iff (ms : UInt32) :
    (seconds ms).value = (ms.toNat : ℚ) / 1000 ↔ ms.toNat < 10000 := by
  rw [value_seconds]
  constructor
  · intro h
    have hmod : ((ms.toNat % 10000 : ℕ) : ℚ) = (ms.toNat : ℚ) :=
      (div_left_inj' (by norm_num)).mp h
    have hnat : ms.toNat % 10000 = ms.toNat := by exact_mod_cast hmod
    omega
  · intro h
    rw [Nat.mod_eq_of_lt h]

namespace Hostinfo

/-! ### The member -/

theorem tree_latency (region ms : UInt32) :
    (Rfc8259.Value.object (objectOf (latency region ms))).tree =
      some (.object [(regionKey region, .number (seconds ms).value)]) := by
  rw [Rfc8259.Value.tree, objectOf, Rfc8259.Object.trees_compact, latency, List.map_cons,
    List.map_nil, List.mapM_cons, Rfc8259.Str.decode_ofChars]
  rfl

theorem derpLatency_members {h : Hostinfo} {ms : UInt32} (hregion : h.preferredDerp ≠ 0)
    (hms : h.derpLatencyMs = some ms) :
    derpLatency (Utf8.encode (Rfc8259.Value.object (objectOf h.members)).text) =
      some (.object [(regionKey h.preferredDerp, .number (seconds ms).value)]) := by
  obtain ⟨ts, hts, hnet⟩ := treeMember_objectOf h.meant_netInfo
  obtain ⟨ts', hts', hhost⟩ := treeMember_objectOf h.meant
  have hfindNet : (h.members.find? fun m => m.1 = "NetInfo".toList) =
      some ("NetInfo".toList, .object (objectOf h.netInfo)) :=
    h.names_members.find?_eq plain_names (netInfo_mem hregion)
  have hfindLatency : (h.netInfo.find? fun m => m.1 = "DERPLatency".toList) =
      some ("DERPLatency".toList, .object (objectOf (latency h.preferredDerp ms))) :=
    h.names_netInfo.find?_eq plain_netInfoNames (latency_mem hms)
  have hmember : treeMember "NetInfo".toList (.object ts') = some (.object ts) := by
    rw [hhost, hfindNet]
    exact hts
  have hmember' : treeMember "DERPLatency".toList (.object ts) =
      some (.object [(regionKey h.preferredDerp, .number (seconds ms).value)]) := by
    rw [hnet, hfindLatency]
    exact tree_latency h.preferredDerp ms
  rw [derpLatency, decode_value, hts']
  simp only [Option.bind_eq_bind, Option.bind_some, hmember, hmember']

/-- **When the latency is reported exactly**: below ten seconds.  The member is
an object with the one key of the region in any case, but for ten seconds and
more its number is another one. -/
theorem write_derpLatency_iff {h : Hostinfo} {ms : UInt32} (hregion : h.preferredDerp ≠ 0)
    (hms : h.derpLatencyMs = some ms) {w w' : Writer} (hw : h.write w = .ok w') :
    ∃ text, w'.asBytes = w.asBytes ++ (w.separator ++ text) ∧
      (∃ q, derpLatency text = some (.object
        [((Rfc8259.Number.ofNat h.preferredDerp.toNat).text ++ "-v4".toList, .number q)])) ∧
      (derpLatency text = some (.object
          [((Rfc8259.Number.ofNat h.preferredDerp.toNat).text ++ "-v4".toList,
            .number ((ms.toNat : ℚ) / 1000))]) ↔
        ms.toNat < 10000) := by
  rw [h.emits w] at hw
  refine ⟨_, asBytes_put hw, ⟨_, derpLatency_members hregion hms⟩, ?_⟩
  rw [derpLatency_members hregion hms, ← value_seconds_eq_iff]
  constructor
  · intro heq
    have htree := Rfc8259.Tree.object.inj (Option.some.inj heq)
    exact Rfc8259.Tree.number.inj (Prod.mk.inj (List.cons.inj htree).1).2
  · intro hval
    rw [hval]
    rfl

/-- A node at home in region 1, with a round-trip of `ms` milliseconds. -/
def homed (ms : UInt32) : Hostinfo where
  hostname := "lando".toList
  ipnVersion := "1".toList
  os := "esp".toList
  osVersion := []
  machine := "esp".toList
  routableIps := []
  preferredDerp := 1
  derpLatencyMs := some ms
  workingUdp := true

theorem write_fresh (h : Hostinfo) (buf : List UInt8) (hroom :
    (Utf8.encode (Rfc8259.Value.object (objectOf h.members)).text).length ≤ buf.length) :
    ∃ w, h.write (Writer.new buf) = .ok w ∧
      w.asBytes = Utf8.encode (Rfc8259.Value.object (objectOf h.members)).text := by
  have hfresh := h.emits.fresh buf
  rwa [if_pos hroom] at hfresh

theorem text_ofNat_one : (Rfc8259.Number.ofNat 1).text = ['1'] := by
  rw [Rfc8259.Number.text_ofNat, Rfc8259.digitsOf_of_lt (by decide)]
  rfl

theorem write_derpLatency_iff_homed :
    ∃ w, (homed 55).write (Writer.new (List.replicate 512 0)) = .ok w ∧
      ∃ text, w.asBytes = text ∧ (derpLatency text = some (.object
        [("1-v4".toList, .number (55 / 1000))]) ↔ (55 : UInt32).toNat < 10000) := by
  obtain ⟨w, hw, -⟩ := write_fresh (homed 55) (List.replicate 512 0) (by decide +kernel)
  obtain ⟨text, htext, -, hiff⟩ := write_derpLatency_iff (h := homed 55) (by decide) rfl hw
  refine ⟨w, hw, text, ?_, ?_⟩
  · rw [htext]
    rfl
  · have hnum : ((55 : UInt32).toNat : ℚ) = 55 := rfl
    have hregion : (homed 55).preferredDerp.toNat = 1 := rfl
    rwa [hregion, text_ofNat_one, hnum] at hiff

/-- Twelve seconds and more are reported as two. -/
theorem write_derpLatency_slow :
    ∃ w, (homed 12345).write (Writer.new (List.replicate 512 0)) = .ok w ∧
      derpLatency w.asBytes = some (.object [("1-v4".toList, .number (2345 / 1000))]) ∧
      (2345 / 1000 : ℚ) ≠ 12345 / 1000 := by
  obtain ⟨w, hw, hbytes⟩ := write_fresh (homed 12345) (List.replicate 512 0) (by decide +kernel)
  refine ⟨w, hw, ?_, by norm_num⟩
  have hregion : (homed 12345).preferredDerp.toNat = 1 := rfl
  have hnum : (((12345 : UInt32).toNat % 10000 : ℕ) : ℚ) = 2345 := rfl
  rw [hbytes, derpLatency_members (h := homed 12345) (by decide) rfl, value_seconds, hnum,
    regionKey, hregion, text_ofNat_one]
  rfl

end Hostinfo

end Lando.Control
