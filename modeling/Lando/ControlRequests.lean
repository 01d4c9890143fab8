/-
Lando/ControlRequests.lean

The requests to the control plane (`control.rs`): `RegisterRequest` and
`MapRequest`, written into a buffer of the caller.

Every part is written by calls that are each one write (`EmitsValue`,
`EmitsMembers`), so a request is the text of one object, whose members are
listed here as the source writes them (`members`).  The extractor then reads the
text back, member by member,

    field out want   =   the member named want, or nothing,

for every name: the strings of the caller are inside their quotes, whatever they
contain.
-/
import Mathlib.Data.List.Find
import Mathlib.Data.List.Nodup
import Lando.JsonField
import Lando.JsonWriter
import Lando.Keys

namespace Lando.Control

open Bytes Json

/-! ### The requests -/

/-- What the device tells the control plane about itself. -/
structure Hostinfo where
  hostname : List Char
  ipnVersion : List Char
  os : List Char
  osVersion : List Char
  machine : List Char
  routableIps : List (List Char)
  /-- Relay region we are homed on. -/
  preferredDerp : UInt32
  /-- Measured round-trip to the home relay, in milliseconds. -/
  derpLatencyMs : Option UInt32
  workingUdp : Bool

/-- A registration attempt. -/
structure Register where
  capabilityVersion : UInt16
  nodeKey : NodePublic
  authKey : Option (List Char)
  followup : Option (List Char)
  hostinfo : Hostinfo
  ephemeral : Bool

/-- A netmap request. -/
structure MapRequest where
  capabilityVersion : UInt16
  nodeKey : NodePublic
  discoKey : DiscoPublic
  hostinfo : Hostinfo
  stream : Bool
  keepAlive : Bool
  omitPeers : Bool
  endpoints : List (List Char)
  /-- Parallel to `endpoints`. -/
  endpointTypes : List UInt8

/-! ### Rendering -/

/-- The digits of a region, at the end of a buffer, and where they start. -/
def regionDigits (region : UInt32) (digits : List UInt8) : List UInt8 × ℕ :=
  if region = 0 then Decimal.fill (digits.set 9 0x30) 9 region.toNat
  else Decimal.fill digits 10 region.toNat

/-- Renders `"<region>-v4"` into a buffer of 16 bytes. -/
def writeRegionKey (region : UInt32) (out : List UInt8) : List UInt8 :=
  let (digits, i) := regionDigits region (List.replicate 10 0)
  let len := 10 - i
  let out := blit out 0 (slice digits i 10)
  let out := blit out len "-v4".toUTF8.toList
  out.take (len + 3)

/-- Renders milliseconds as a decimal number of seconds, into a buffer of 12 bytes. -/
def writeSeconds (ms : UInt32) (out : List UInt8) : List UInt8 :=
  let whole := ms / 1000
  let frac := ms % 1000
  let out := out.set 0 (0x30 + (whole % 10).toUInt8)
  let out := out.set 1 0x2e
  let out := out.set 2 (0x30 + (frac / 100).toUInt8)
  let out := out.set 3 (0x30 + (frac / 10 % 10).toUInt8)
  let out := out.set 4 (0x30 + (frac % 10).toUInt8)
  out.take 5

/-- `core::str::from_utf8`. -/
def fromUtf8 (bytes : List UInt8) : Except JsonError (List Char) :=
  match Utf8.decode bytes with
  | some text => .ok text
  | none => .error .malformed

/-- A key as a string, by way of a buffer of 80 bytes. -/
def keyStr (write : List UInt8 → Except KeyError (ℕ × List UInt8)) :
    Except JsonError (List Char) :=
  match write (List.replicate 80 0) with
  | .error _ => .error .shortBuffer
  | .ok (n, buf) => fromUtf8 (buf.take n)

namespace Hostinfo

/-- `DERPLatency`, with the one region that was measured. -/
def writeLatency (region ms : UInt32) (w : Writer) : Except JsonError Writer := do
  let w ← w.beginObject
  let k ← fromUtf8 (writeRegionKey region (List.replicate 16 0))
  let w ← w.key k >>= fun w => w.rawValue (writeSeconds ms (List.replicate 12 0))
  w.endObject

/-- `NetInfo`: what the device found out about its network. -/
def writeNetInfo (h : Hostinfo) (w : Writer) : Except JsonError Writer := do
  let w ← w.beginObject
  let w ← w.fieldBool "MappingVariesByDestIP".toList false
  let w ← w.fieldBool "WorkingIPv6".toList false
  let w ← w.fieldBool "OSHasIPv6".toList false
  let w ← w.fieldBool "WorkingUDP".toList h.workingUdp
  let w ← w.fieldBool "HavePortMap".toList false
  let w ← w.fieldBool "UPnP".toList false
  let w ← w.fieldBool "PMP".toList false
  let w ← w.fieldBool "PCP".toList false
  let w ← w.fieldU64 "PreferredDERP".toList h.preferredDerp.toUInt64
  let w ← (match h.derpLatencyMs with
    | some ms => w.key "DERPLatency".toList >>= writeLatency h.preferredDerp ms
    | none => .ok w)
  let w ← w.fieldStr "LinkType".toList "wifi".toList
  w.endObject

/-- The strings of an array. -/
def writeStrings (ss : List (List Char)) (w : Writer) : Except JsonError Writer := do
  let w ← w.beginArray
  let w ← ss.foldlM Writer.strValue w
  w.endArray

/-- `Hostinfo`; what is empty is left out. -/
def write (h : Hostinfo) (w : Writer) : Except JsonError Writer := do
  let w ← w.beginObject
  let w ← w.fieldStr "IPNVersion".toList h.ipnVersion
  let w ← w.fieldStr "OS".toList h.os
  let w ← (if h.osVersion ≠ [] then w.fieldStr "OSVersion".toList h.osVersion else .ok w)
  let w ← w.fieldStr "Hostname".toList h.hostname
  let w ← w.fieldStr "Machine".toList h.machine
  let w ← (if h.preferredDerp ≠ 0 then w.key "NetInfo".toList >>= h.writeNetInfo else .ok w)
  let w ← (if h.routableIps ≠ [] then
      w.key "RoutableIPs".toList >>= writeStrings h.routableIps
    else .ok w)
  w.endObject

end Hostinfo

/-- `Auth`, with the key of the configuration. -/
def writeAuth (authKey : List Char) (w : Writer) : Except JsonError Writer := do
  let w ← w.beginObject
  let w ← w.fieldStr "AuthKey".toList authKey
  w.endObject

/-- The object of a registration. -/
def Register.write (req : Register) (nodeKey : List Char) (w : Writer) :
    Except JsonError Writer := do
  let w ← w.beginObject
  let w ← w.fieldU64 "Version".toList req.capabilityVersion.toUInt64
  let w ← w.fieldStr "NodeKey".toList nodeKey
  let w ← (match req.authKey with
    | some authKey => w.key "Auth".toList >>= writeAuth authKey
    | none => .ok w)
  let w ← (match req.followup with
    | some url => w.fieldStr "Followup".toList url
    | none => .ok w)
  let w ← w.key "Hostinfo".toList >>= req.hostinfo.write
  let w ← (if req.ephemeral then w.fieldBool "Ephemeral".toList true else .ok w)
  w.endObject

/-- Serializes a `RegisterRequest` into `out`: its length, and the buffer then. -/
def writeRegisterRequest (out : List UInt8) (req : Register) :
    Except JsonError (ℕ × List UInt8) := do
  let nodeKey ← keyStr req.nodeKey.write
  let w ← req.write nodeKey (Writer.new out)
  return (w.len, w.buf)

/-- The numbers of `EndpointTypes`. -/
def writeTypes (types : List UInt8) (w : Writer) : Except JsonError Writer := do
  let w ← w.beginArray
  let w ← types.foldlM (fun w t => w.u64Value t.toUInt64) w
  w.endArray

/-- `Endpoints`, and their types if there are any. -/
def writeEndpoints (req : MapRequest) (w : Writer) : Except JsonError Writer := do
  let w ← w.key "Endpoints".toList >>= Hostinfo.writeStrings req.endpoints
  if req.endpointTypes ≠ [] then w.key "EndpointTypes".toList >>= writeTypes req.endpointTypes
  else .ok w

/-- The object of a map request. -/
def MapRequest.write (req : MapRequest) (nodeKey discoKey : List Char) (w : Writer) :
    Except JsonError Writer := do
  let w ← w.beginObject
  let w ← w.fieldU64 "Version".toList req.capabilityVersion.toUInt64
  let w ← w.fieldStr "Compress".toList []
  let w ← w.fieldBool "KeepAlive".toList req.keepAlive
  let w ← w.fieldStr "NodeKey".toList nodeKey
  let w ← w.fieldStr "DiscoKey".toList discoKey
  let w ← (if req.stream then w.fieldBool "Stream".toList true else .ok w)
  let w ← (if req.omitPeers then w.fieldBool "OmitPeers".toList true else .ok w)
  let w ← (if req.endpoints ≠ [] then writeEndpoints req w else .ok w)
  let w ← w.key "Hostinfo".toList >>= req.hostinfo.write
  w.endObject

/-- Serializes a `MapRequest` into `out`: its length, and the buffer then. -/
def writeMapRequest (out : List UInt8) (req : MapRequest) :
    Except JsonError (ℕ × List UInt8) := do
  let nodeKey ← keyStr req.nodeKey.write
  let discoKey ← keyStr req.discoKey.write
  let w ← req.write nodeKey discoKey (Writer.new out)
  return (w.len, w.buf)

/-! ### What is written -/

open Writer

/-- A string as a value. -/
def str (s : List Char) : Rfc8259.Value := .string (.ofChars s)

/-- Strings as an array. -/
def strings (ss : List (List Char)) : Rfc8259.Value := .array (.compact (ss.map str))

/-- The prefixed wire form of a key. -/
def keyText (tag : List Char) (k : Key) : List Char := tag ++ Utf8.ascii (Hex.encode k.toList)

/-- The member under which a region's latency stands. -/
def regionKey (region : UInt32) : List Char :=
  (Rfc8259.Number.ofNat region.toNat).text ++ "-v4".toList

/-- The decimal number that `write_seconds` writes: of the seconds, the last digit. -/
def seconds (ms : UInt32) : Rfc8259.Number where
  minus := false
  int := ⟨[.ofNat (ms.toNat / 1000)], List.cons_ne_nil _ _⟩
  proper := fun _ => rfl
  frac := some ⟨[.ofNat (ms.toNat / 100), .ofNat (ms.toNat / 10), .ofNat ms.toNat],
    List.cons_ne_nil _ _⟩
  exp := none

namespace Hostinfo

/-- What `writeLatency` should write. -/
def latency (region ms : UInt32) : Named := [(regionKey region, .number (seconds ms))]

/-- What `writeNetInfo` should write. -/
def netInfo (h : Hostinfo) : Named := List.flatten [
  [("MappingVariesByDestIP".toList, .bool false)],
  [("WorkingIPv6".toList, .bool false)],
  [("OSHasIPv6".toList, .bool false)],
  [("WorkingUDP".toList, .bool h.workingUdp)],
  [("HavePortMap".toList, .bool false)],
  [("UPnP".toList, .bool false)],
  [("PMP".toList, .bool false)],
  [("PCP".toList, .bool false)],
  [("PreferredDERP".toList, .number (.ofNat h.preferredDerp.toNat))],
  match h.derpLatencyMs with
    | some ms => [("DERPLatency".toList, .object (objectOf (latency h.preferredDerp ms)))]
    | none => [],
  [("LinkType".toList, str "wifi".toList)]]

/-- What `Hostinfo.write` should write. -/
def members (h : Hostinfo) : Named := List.flatten [
  [("IPNVersion".toList, str h.ipnVersion)],
  [("OS".toList, str h.os)],
  if h.osVersion ≠ [] then [("OSVersion".toList, str h.osVersion)] else [],
  [("Hostname".toList, str h.hostname)],
  [("Machine".toList, str h.machine)],
  if h.preferredDerp ≠ 0 then [("NetInfo".toList, .object (objectOf h.netInfo))] else [],
  if h.routableIps ≠ [] then [("RoutableIPs".toList, strings h.routableIps)] else []]

end Hostinfo

/-- The members of `Auth`. -/
def auth (authKey : List Char) : Named := [("AuthKey".toList, str authKey)]

/-- What `Register.write` should write. -/
def Register.members (req : Register) : Named := List.flatten [
  [("Version".toList, .number (.ofNat req.capabilityVersion.toNat))],
  [("NodeKey".toList, str (keyText "nodekey:".toList req.nodeKey.bytes))],
  match req.authKey with
    | some authKey => [("Auth".toList, .object (objectOf (auth authKey)))]
    | none => [],
  match req.followup with
    | some url => [("Followup".toList, str url)]
    | none => [],
  [("Hostinfo".toList, .object (objectOf req.hostinfo.members))],
  if req.ephemeral then [("Ephemeral".toList, .bool true)] else []]

/-- What `MapRequest.write` should write. -/
def MapRequest.members (req : MapRequest) : Named := List.flatten [
  [("Version".toList, .number (.ofNat req.capabilityVersion.toNat))],
  [("Compress".toList, str [])],
  [("KeepAlive".toList, .bool req.keepAlive)],
  [("NodeKey".toList, str (keyText "nodekey:".toList req.nodeKey.bytes))],
  [("DiscoKey".toList, str (keyText "discokey:".toList req.discoKey.bytes))],
  if req.stream then [("Stream".toList, .bool true)] else [],
  if req.omitPeers then [("OmitPeers".toList, .bool true)] else [],
  if req.endpoints ≠ [] then
    ("Endpoints".toList, strings req.endpoints) ::
      if req.endpointTypes ≠ [] then
        [("EndpointTypes".toList,
          .array (.compact (req.endpointTypes.map fun t => .number (.ofNat t.toNat))))]
      else []
  else [],
  [("Hostinfo".toList, .object (objectOf req.hostinfo.members))]]

/-! ### The calls -/

/-- A loop over the values of an array. -/
theorem emits_foldlM {α : Type} {g : Writer → α → Except JsonError Writer}
    {v : α → Rfc8259.Value} (h : ∀ x, EmitsValue (fun w => g w x) (v x)) (xs : List α) :
    EmitsItems (fun w => xs.foldlM g w) ((xs.map v).map Rfc8259.Value.text) := by
  induction xs with
  | nil => exact .nil
  | cons x xs ih =>
    have hhead : EmitsItems (fun w => g w x) [(v x).text] := .value (h x)
    simp only [List.foldlM_cons]
    exact hhead.append ih

namespace Hostinfo

theorem emits_strings (ss : List (List Char)) : EmitsValue (writeStrings ss) (strings ss) := by
  have hitems := emits_foldlM (v := str) (fun s w => w.strValue_eq s) ss
  exact .array (.of_items hitems endArray_eq)

theorem fromUtf8_encode (cs : List Char) : fromUtf8 (Utf8.encode cs) = .ok cs := by
  rw [fromUtf8, Utf8.decode_encode]

theorem regionDigits_eq (region : UInt32) {digits : List UInt8} (hlen : digits.length = 10) :
    regionDigits region digits =
      (blit digits (10 - (Decimal.ascii region.toNat).length) (Decimal.ascii region.toNat),
        10 - (Decimal.ascii region.toNat).length) := by
  unfold regionDigits
  by_cases h : region = 0
  · subst h
    rw [if_pos rfl]
    show Decimal.fill _ _ 0 = (blit digits (10 - (Decimal.ascii 0).length) (Decimal.ascii 0), _)
    rw [Decimal.fill, if_pos rfl, Decimal.ascii_of_lt (by decide), set_eq_blit (by omega)]
    rfl
  · have hpos : 0 < region.toNat := by
      have hne : region.toNat ≠ 0 := fun hz => h (UInt32.toNat_inj.mp hz)
      omega
    have hten : (Decimal.ascii region.toNat).length ≤ 10 :=
      Decimal.length_ascii_le (by decide) (Nat.lt_trans region.toNat_lt (by decide))
    rw [if_neg h]
    exact Decimal.fill_eq hpos hten (Nat.le_of_eq hlen.symm)

theorem writeRegionKey_eq (region : UInt32) :
    writeRegionKey region (List.replicate 16 0) = Utf8.encode (regionKey region) := by
  have hlen : (List.replicate 10 (0 : UInt8)).length = 10 := List.length_replicate
  have hten : (Decimal.ascii region.toNat).length ≤ 10 :=
    Decimal.length_ascii_le (by decide) (Nat.lt_trans region.toNat_lt (by decide))
  have hout : (List.replicate 16 (0 : UInt8)).length = 16 := List.length_replicate
  have hsuffix : ("-v4".toUTF8.toList).length = 3 := by
    rw [Utf8.toList_toUTF8]
    rfl
  have hend : 10 = 10 - (Decimal.ascii region.toNat).length + (Decimal.ascii region.toNat).length :=
    by omega
  unfold writeRegionKey
  rw [regionDigits_eq region hlen]
  simp only
  rw [slice_blit_self hend (Nat.le_of_eq hlen.symm), Nat.sub_sub_self hten,
    take_blit (by rw [hsuffix]) (by rw [length_blit (by omega)]; omega),
    take_blit (Nat.zero_add _).symm (Nat.zero_le _), List.take_zero, List.nil_append, regionKey,
    Utf8.encode_append, encode_ofNat, Utf8.toList_toUTF8]

theorem toUInt8_eq {n : UInt32} {k : ℕ} (h : n.toNat = k) : n.toUInt8 = .ofNat k :=
  congrArg UInt8.ofNat h

theorem writeSeconds_eq (ms : UInt32) :
    writeSeconds ms (List.replicate 12 0) = Utf8.encode (seconds ms).text := by
  have htext : Utf8.encode (seconds ms).text =
      [48 + .ofNat (ms.toNat / 1000 % 10), 0x2e, 48 + .ofNat (ms.toNat / 100 % 10),
        48 + .ofNat (ms.toNat / 10 % 10), 48 + .ofNat (ms.toNat % 10)] := by
    show Utf8.encode ([_].map Rfc8259.Digit.char ++ (['.'] ++ [_, _, _].map Rfc8259.Digit.char)) = _
    rw [Utf8.encode_append, Utf8.encode_append, Rfc8259.encode_digits, Rfc8259.encode_digits]
    rfl
  have hwhole : (ms / 1000 % 10).toUInt8 = .ofNat (ms.toNat / 1000 % 10) := by
    apply toUInt8_eq
    simp
  have htenths : (ms % 1000 / 100).toUInt8 = .ofNat (ms.toNat / 100 % 10) := by
    apply toUInt8_eq
    simp only [UInt32.toNat_div, UInt32.toNat_mod, UInt32.reduceToNat]
    omega
  have hhundredths : (ms % 1000 / 10 % 10).toUInt8 = .ofNat (ms.toNat / 10 % 10) := by
    apply toUInt8_eq
    simp only [UInt32.toNat_div, UInt32.toNat_mod, UInt32.reduceToNat]
    omega
  have hthousandths : (ms % 1000 % 10).toUInt8 = .ofNat (ms.toNat % 10) := by
    apply toUInt8_eq
    simp only [UInt32.toNat_mod, UInt32.reduceToNat]
    omega
  unfold writeSeconds
  simp only
  rw [htext, hwhole, htenths, hhundredths, hthousandths]
  rfl

theorem emits_latency (region ms : UInt32) :
    EmitsValue (writeLatency region ms) (.object (objectOf (latency region ms))) := by
  intro w
  unfold writeLatency
  rw [writeRegionKey_eq, fromUtf8_encode, writeSeconds_eq]
  exact EmitsValue.objectOf (.one (.one (v := .number (seconds ms)) (regionKey region)
    fun w => w.rawValue_eq _)) w

theorem emits_netInfo (h : Hostinfo) :
    EmitsValue h.writeNetInfo (.object (objectOf h.netInfo)) := by
  refine .objectOf ?_
  refine .cons (.bool _ _) ?_
  refine .cons (.bool _ _) ?_
  refine .cons (.bool _ _) ?_
  refine .cons (.bool _ _) ?_
  refine .cons (.bool _ _) ?_
  refine .cons (.bool _ _) ?_
  refine .cons (.bool _ _) ?_
  refine .cons (.bool _ _) ?_
  refine .cons (.u64 _ _) ?_
  refine .cons ?_ ?_
  · cases h.derpLatencyMs with
    | none => exact EmitsItems.nil
    | some ms => exact .one _ (emits_latency h.preferredDerp ms)
  exact .cons (.str _ _) .nil

theorem emits (h : Hostinfo) : EmitsValue h.write (.object (objectOf h.members)) := by
  refine .objectOf ?_
  refine .cons (.str _ _) ?_
  refine .cons (.str _ _) ?_
  refine .cons (.ite (.str _ _)) ?_
  refine .cons (.str _ _) ?_
  refine .cons (.str _ _) ?_
  refine .cons (.ite (.one _ h.emits_netInfo)) ?_
  exact .cons (.ite (.one _ (emits_strings h.routableIps))) .nil

end Hostinfo

/-- A key as a string is its wire form. -/
theorem keyStr_writeKey {tag : String} (k : Key) (htag : tag.toUTF8.toList.length ≤ 16) :
    keyStr (writeKey tag.toUTF8.toList k) = .ok (keyText tag.toList k) := by
  have hroom : tag.toUTF8.toList.length + 64 ≤ (List.replicate 80 (0 : UInt8)).length := by
    rw [List.length_replicate]
    omega
  obtain ⟨buf, hbuf, htake⟩ := writeKey_eq k hroom
  have hdigits : ∀ c ∈ Hex.digits, c < 0x80 := Utf8.forall_table (by decide +kernel)
  have htext : tag.toUTF8.toList ++ Hex.encode k.toList = Utf8.encode (keyText tag.toList k) := by
    rw [keyText, Utf8.encode_append, Utf8.encode_ascii fun c hc => hdigits c (Hex.mem_encode hc),
      Utf8.toList_toUTF8]
  unfold keyStr
  rw [hbuf]
  simp only
  rw [htake, htext, Hostinfo.fromUtf8_encode]

theorem keyStr_node (k : NodePublic) :
    keyStr k.write = .ok (keyText "nodekey:".toList k.bytes) :=
  keyStr_writeKey k.bytes (by decide +kernel)

theorem keyStr_disco (k : DiscoPublic) :
    keyStr k.write = .ok (keyText "discokey:".toList k.bytes) :=
  keyStr_writeKey k.bytes (by decide +kernel)

theorem emits_auth (authKey : List Char) :
    EmitsValue (writeAuth authKey) (.object (objectOf (auth authKey))) :=
  .objectOf (.one (.str "AuthKey".toList authKey))

theorem Register.emits (req : Register) :
    EmitsValue (req.write (keyText "nodekey:".toList req.nodeKey.bytes))
      (.object (objectOf req.members)) := by
  refine .objectOf ?_
  refine .cons (.u64 _ _) ?_
  refine .cons (.str _ _) ?_
  refine .cons ?_ (.cons ?_ ?_)
  · cases req.authKey with
    | none => exact EmitsItems.nil
    | some authKey => exact .one _ (emits_auth authKey)
  · cases req.followup with
    | none => exact EmitsItems.nil
    | some url => exact .str _ url
  refine .cons (.one _ req.hostinfo.emits) ?_
  exact .cons (.ite (.bool _ _)) .nil

theorem emits_types (types : List UInt8) :
    EmitsValue (writeTypes types)
      (.array (.compact (types.map fun t => .number (.ofNat t.toNat)))) := by
  have hvalue : ∀ t : UInt8, EmitsValue (fun w => w.u64Value t.toUInt64) (.number (.ofNat t.toNat)) :=
    fun t w => w.u64Value_eq t.toUInt64
  exact .array (.of_items (emits_foldlM hvalue types) endArray_eq)

theorem emits_endpoints (req : MapRequest) :
    EmitsMembers (writeEndpoints req) (("Endpoints".toList, strings req.endpoints) ::
      if req.endpointTypes ≠ [] then
        [("EndpointTypes".toList,
          .array (.compact (req.endpointTypes.map fun t => .number (.ofNat t.toNat))))]
      else []) := by
  have hendpoints : EmitsMembers _ [("Endpoints".toList, strings req.endpoints)] :=
    .one _ (Hostinfo.emits_strings req.endpoints)
  have htypes := EmitsMembers.ite (c := req.endpointTypes ≠ [])
    (.one "EndpointTypes".toList (emits_types req.endpointTypes))
  exact EmitsItems.append hendpoints htypes

theorem MapRequest.emits (req : MapRequest) :
    EmitsValue (req.write (keyText "nodekey:".toList req.nodeKey.bytes)
      (keyText "discokey:".toList req.discoKey.bytes)) (.object (objectOf req.members)) := by
  refine .objectOf ?_
  refine .cons (.u64 _ _) ?_
  refine .cons (.str _ _) ?_
  refine .cons (.bool _ _) ?_
  refine .cons (.str _ _) ?_
  refine .cons (.str _ _) ?_
  refine .cons (.ite (.bool _ _)) ?_
  refine .cons (.ite (.bool _ _)) ?_
  refine .cons (.ite (emits_endpoints req)) ?_
  exact .cons (.one _ req.hostinfo.emits) .nil

/-! ### What is read back -/

/-- The extractor finds these members, and no other name. -/
structure Reads (json : List UInt8) (ms : Named) : Prop where
  found : ∀ m ∈ ms, field json (Utf8.encode m.1) = .ok (some (located m.2))
  absent : ∀ want ∉ ms.map Prod.fst, field json (Utf8.encode want) = .ok none

theorem field_objectOf (ms : Named) (want : List Char)
    (hplain : ∀ m ∈ ms, (Rfc8259.Str.ofChars m.1).raw = m.1) :
    field (Utf8.encode (objectOf ms).text) (Utf8.encode want) =
      .ok ((ms.find? fun m => m.1 = want).map fun m => located m.2) := by
  have hfield := field_object [] [] (objectOf ms) want
  have hblanks : Rfc8259.Blank.text [] ++ ((objectOf ms).text ++ Rfc8259.Blank.text []) =
      (objectOf ms).text := List.append_nil _
  rw [hblanks] at hfield
  rw [hfield, objectOf, Rfc8259.Object.toList_compact, List.find?_map, Option.map_map]
  have hsame : ms.find? ((fun m : Rfc8259.Str × Rfc8259.Value => decide (m.1.raw = want)) ∘
      fun m => (.ofChars m.1, m.2)) = ms.find? fun m => m.1 = want := by
    apply List.find?_congr
    intro m hm
    show decide ((Rfc8259.Str.ofChars m.1).raw = want) = decide (m.1 = want)
    rw [hplain m hm]
  rw [hsame]
  rfl

/-- The names are among these, in this order. -/
def Names (ms : Named) (names : List (List Char)) : Prop := (ms.map Prod.fst).Sublist names

theorem Names.one (k : List Char) (v : Rfc8259.Value) : Names [(k, v)] [k] := .refl _

theorem Names.nil (names : List (List Char)) : Names [] names := List.nil_sublist names

theorem Names.ite {ms : Named} {names : List (List Char)} {c : Prop} [Decidable c]
    (h : Names ms names) : Names (if c then ms else []) names := by
  by_cases hc : c
  · rwa [if_pos hc]
  · rw [if_neg hc]
    exact .nil names

theorem Names.append {ms ms' : Named} {names names' : List (List Char)} (h : Names ms names)
    (h' : Names ms' names') : Names (ms ++ ms') (names ++ names') := by
  unfold Names
  rw [List.map_append]
  exact List.Sublist.append h h'

theorem Names.cons {ms : Named} {parts : List Named} {names : List (List Char)}
    {rest : List (List (List Char))} (h : Names ms names) (h' : Names parts.flatten rest.flatten) :
    Names (ms :: parts).flatten (names :: rest).flatten := h.append h'

theorem raw_ofChars {cs : List Char} (h : ∀ c ∈ cs, (Rfc8259.Piece.ofChar c).text = [c]) :
    (Rfc8259.Str.ofChars cs).raw = cs := by
  induction cs with
  | nil => rfl
  | cons c cs ih =>
    show (Rfc8259.Piece.ofChar c).text ++ (Rfc8259.Str.ofChars cs).raw = c :: cs
    rw [h c List.mem_cons_self, ih fun c hc => h c (List.mem_cons_of_mem _ hc),
      List.singleton_append]

/-- Names that are written as they are, and none twice. -/
def Plain (names : List (List Char)) : Prop :=
  names.Nodup ∧ ∀ k ∈ names, (Rfc8259.Str.ofChars k).raw = k

instance (names : List (List Char)) : Decidable (Plain names) := inferInstanceAs (Decidable (_ ∧ _))

/-- A member is the first one of its name. -/
theorem Names.find?_eq {ms : Named} {names : List (List Char)} (h : Names ms names)
    (hplain : Plain names) {m : List Char × Rfc8259.Value} (hm : m ∈ ms) :
    ms.find? (fun x => x.1 = m.1) = some m := by
  have hnodup : (ms.map Prod.fst).Nodup := hplain.1.sublist h
  obtain ⟨m', hm'⟩ := Option.isSome_iff_exists.mp
    (List.find?_isSome.mpr ⟨m, hm, decide_eq_true rfl⟩ :
      (ms.find? fun x => x.1 = m.1).isSome = true)
  have hname : m'.1 = m.1 := by simpa using List.find?_some hm'
  have hsame : m' = m := List.inj_on_of_nodup_map hnodup (List.mem_of_find?_eq_some hm') hm hname
  rw [hm', hsame]

/-- **An object is read back.** -/
theorem Names.reads {ms : Named} {names : List (List Char)} (h : Names ms names)
    (hplain : Plain names) : Reads (Utf8.encode (objectOf ms).text) ms := by
  have hraw : ∀ m ∈ ms, (Rfc8259.Str.ofChars m.1).raw = m.1 := fun m hm =>
    hplain.2 m.1 (h.subset (List.mem_map_of_mem hm))
  constructor
  · intro m hm
    rw [field_objectOf ms m.1 hraw, h.find?_eq hplain hm]
    rfl
  · intro want hwant
    have hnone : ms.find? (fun m => m.1 = want) = none :=
      List.find?_eq_none.mpr fun m hm hk =>
        hwant (of_decide_eq_true hk ▸ List.mem_map_of_mem hm)
    rw [field_objectOf ms want hraw, hnone]
    rfl

namespace Hostinfo

theorem reads_latency (region ms : UInt32) :
    Reads (Utf8.encode (objectOf (latency region ms)).text) (latency region ms) := by
  have hdigit : ∀ d : Rfc8259.Digit, (Rfc8259.Piece.ofChar d.char).text = [d.char] := by
    decide +kernel
  have hsuffix : ∀ c ∈ "-v4".toList, (Rfc8259.Piece.ofChar c).text = [c] :=
    Utf8.forall_table (by decide +kernel)
  have hkey : (Rfc8259.Str.ofChars (regionKey region)).raw = regionKey region := by
    apply raw_ofChars
    intro c hc
    rcases List.mem_append.mp hc with hc | hc
    · rw [Rfc8259.Number.text_ofNat] at hc
      obtain ⟨d, -, rfl⟩ := List.mem_map.mp hc
      exact hdigit d
    · exact hsuffix c hc
  refine Names.reads (.one _ _) ⟨List.nodup_singleton _, ?_⟩
  intro k hk
  rw [List.mem_singleton.mp hk, hkey]

/-- The names in `NetInfo`. -/
def netInfoNames : List (List Char) := List.flatten [["MappingVariesByDestIP".toList],
  ["WorkingIPv6".toList], ["OSHasIPv6".toList], ["WorkingUDP".toList], ["HavePortMap".toList],
  ["UPnP".toList], ["PMP".toList], ["PCP".toList], ["PreferredDERP".toList],
  ["DERPLatency".toList], ["LinkType".toList]]

theorem names_netInfo (h : Hostinfo) : Names h.netInfo netInfoNames := by
  refine .cons (.one _ _) (.cons (.one _ _) (.cons (.one _ _) (.cons (.one _ _) ?_)))
  refine .cons (.one _ _) (.cons (.one _ _) (.cons (.one _ _) (.cons (.one _ _) ?_)))
  refine .cons (.one _ _) (.cons ?_ (.cons (.one _ _) (.nil _)))
  cases h.derpLatencyMs with
  | none => exact .nil _
  | some ms => exact .one _ _

theorem plain_netInfoNames : Plain netInfoNames := by decide +kernel

theorem reads_netInfo (h : Hostinfo) :
    Reads (Utf8.encode (objectOf h.netInfo).text) h.netInfo :=
  h.names_netInfo.reads plain_netInfoNames

/-- The names in a `Hostinfo`. -/
def names : List (List Char) := List.flatten [["IPNVersion".toList], ["OS".toList],
  ["OSVersion".toList], ["Hostname".toList], ["Machine".toList], ["NetInfo".toList],
  ["RoutableIPs".toList]]

theorem names_members (h : Hostinfo) : Names h.members names := by
  refine .cons (.one _ _) (.cons (.one _ _) (.cons (.ite (.one _ _)) (.cons (.one _ _) ?_)))
  exact .cons (.one _ _) (.cons (.ite (.one _ _)) (.cons (.ite (.one _ _)) (.nil _)))

theorem plain_names : Plain names := by decide +kernel

theorem reads (h : Hostinfo) : Reads (Utf8.encode (objectOf h.members).text) h.members :=
  h.names_members.reads plain_names

end Hostinfo

theorem reads_auth (authKey : List Char) :
    Reads (Utf8.encode (objectOf (auth authKey)).text) (auth authKey) :=
  (Names.one _ _).reads (by decide +kernel)

/-- The names in a `RegisterRequest`. -/
def Register.names : List (List Char) := List.flatten [["Version".toList], ["NodeKey".toList],
  ["Auth".toList], ["Followup".toList], ["Hostinfo".toList], ["Ephemeral".toList]]

theorem Register.names_members (req : Register) : Names req.members Register.names := by
  refine .cons (.one _ _) (.cons (.one _ _) (.cons ?_ (.cons ?_ ?_)))
  · cases req.authKey with
    | none => exact .nil _
    | some authKey => exact .one _ _
  · cases req.followup with
    | none => exact .nil _
    | some url => exact .one _ _
  exact .cons (.one _ _) (.cons (.ite (.one _ _)) (.nil _))

theorem Register.plain_names : Plain Register.names := by decide +kernel

theorem Register.reads (req : Register) :
    Reads (Utf8.encode (objectOf req.members).text) req.members :=
  req.names_members.reads Register.plain_names

theorem MapRequest.reads (req : MapRequest) :
    Reads (Utf8.encode (objectOf req.members).text) req.members := by
  have hnames : Names req.members (List.flatten [["Version".toList], ["Compress".toList],
      ["KeepAlive".toList], ["NodeKey".toList], ["DiscoKey".toList], ["Stream".toList],
      ["OmitPeers".toList], ["Endpoints".toList, "EndpointTypes".toList],
      ["Hostinfo".toList]]) := by
    refine .cons (.one _ _) (.cons (.one _ _) (.cons (.one _ _) (.cons (.one _ _) ?_)))
    refine .cons (.one _ _) (.cons (.ite (.one _ _)) (.cons (.ite (.one _ _)) (.cons ?_ ?_)))
    · exact .ite (Names.append (.one _ _) (.ite (.one _ _)))
    · exact .cons (.one _ _) (.nil _)
  exact hnames.reads (by decide +kernel)

/-! ### The requests are read back -/

/-- The member is a slice of the text, and the slice is read like this. -/
def Within (json : List UInt8) (name : List Char) (P : List UInt8 → Prop) : Prop :=
  ∃ raw, field json (Utf8.encode name) = .ok (some (.raw raw)) ∧ P raw

theorem Reads.object {json : List UInt8} {ms : Named} {name : List Char} {o : Rfc8259.Object}
    {P : List UInt8 → Prop} (h : Reads json ms) (hm : (name, .object o) ∈ ms)
    (hP : P (Utf8.encode o.text)) : Within json name P :=
  ⟨Utf8.encode o.text, h.found (name, .object o) hm, hP⟩

/-- An array is read as its elements. -/
theorem Reads.array {json : List UInt8} {ms : Named} {name : List Char} {vs : List Rfc8259.Value}
    (h : Reads json ms) (hm : (name, .array (.compact vs)) ∈ ms) :
    Within json name fun raw => elements raw = vs.map located := by
  refine ⟨Utf8.encode (Rfc8259.Array.compact vs).text, h.found (name, .array (.compact vs)) hm, ?_⟩
  show elements (Utf8.encode (Rfc8259.Array.compact vs).text) = vs.map located
  rw [elements_array, Rfc8259.Array.toList_compact]

theorem mem_parts {parts : List Named} {part : Named} {m : List Char × Rfc8259.Value} (i : ℕ)
    (hpart : parts[i]? = some part) (hm : m ∈ part) : m ∈ parts.flatten :=
  List.mem_flatten_of_mem (List.mem_of_getElem? hpart) hm

theorem mem_ite {ms : Named} {m : List Char × Rfc8259.Value} {c : Prop} [Decidable c] (hc : c)
    (hm : m ∈ ms) : m ∈ if c then ms else [] := by
  rwa [if_pos hc]

/-- What the extractor makes of a `Hostinfo`. -/
structure Hostinfo.ReadBack (h : Hostinfo) (json : List UInt8) : Prop where
  members : Reads json h.members
  netInfo : h.preferredDerp ≠ 0 → Within json "NetInfo".toList fun raw =>
    Reads raw h.netInfo ∧ ∀ ms, h.derpLatencyMs = some ms →
      Within raw "DERPLatency".toList fun raw => Reads raw (latency h.preferredDerp ms)
  routableIps : h.routableIps ≠ [] → Within json "RoutableIPs".toList fun raw =>
    elements raw = (h.routableIps.map str).map located

/-- What the extractor makes of a `RegisterRequest`. -/
structure Register.ReadBack (req : Register) (json : List UInt8) : Prop where
  members : Reads json req.members
  hostinfo : Within json "Hostinfo".toList req.hostinfo.ReadBack
  auth : ∀ authKey, req.authKey = some authKey →
    Within json "Auth".toList fun raw => Reads raw (auth authKey)

/-- What the extractor makes of a `MapRequest`. -/
structure MapRequest.ReadBack (req : MapRequest) (json : List UInt8) : Prop where
  members : Reads json req.members
  hostinfo : Within json "Hostinfo".toList req.hostinfo.ReadBack
  endpoints : req.endpoints ≠ [] → Within json "Endpoints".toList fun raw =>
    elements raw = (req.endpoints.map str).map located
  endpointTypes : req.endpoints ≠ [] → req.endpointTypes ≠ [] →
    Within json "EndpointTypes".toList fun raw =>
      elements raw = (req.endpointTypes.map fun t => .number (.ofNat t.toNat)).map located

theorem Hostinfo.netInfo_mem {h : Hostinfo} (hregion : h.preferredDerp ≠ 0) :
    ("NetInfo".toList, .object (objectOf h.netInfo)) ∈ h.members :=
  mem_parts 5 rfl (mem_ite hregion List.mem_cons_self)

theorem Hostinfo.latency_mem {h : Hostinfo} {ms : UInt32} (hms : h.derpLatencyMs = some ms) :
    ("DERPLatency".toList, .object (objectOf (latency h.preferredDerp ms))) ∈ h.netInfo := by
  refine mem_parts 9 rfl ?_
  rw [hms]
  exact List.mem_cons_self

theorem Hostinfo.readBack (h : Hostinfo) :
    h.ReadBack (Utf8.encode (objectOf h.members).text) where
  members := h.reads
  netInfo hregion := h.reads.object (netInfo_mem hregion) ⟨h.reads_netInfo, fun ms hms =>
    h.reads_netInfo.object (latency_mem hms) (reads_latency h.preferredDerp ms)⟩
  routableIps hroutes := h.reads.array (mem_parts 6 rfl (mem_ite hroutes List.mem_cons_self))

theorem Register.readBack (req : Register) :
    req.ReadBack (Utf8.encode (objectOf req.members).text) where
  members := req.reads
  hostinfo := req.reads.object (mem_parts 4 rfl List.mem_cons_self) req.hostinfo.readBack
  auth authKey hauth := by
    have hmem : ("Auth".toList, .object (objectOf (auth authKey))) ∈ req.members := by
      refine mem_parts 2 rfl ?_
      rw [hauth]
      exact List.mem_cons_self
    exact req.reads.object hmem (reads_auth authKey)

theorem MapRequest.readBack (req : MapRequest) :
    req.ReadBack (Utf8.encode (objectOf req.members).text) where
  members := req.reads
  hostinfo := req.reads.object (mem_parts 8 rfl List.mem_cons_self) req.hostinfo.readBack
  endpoints hendpoints := req.reads.array (mem_parts 7 rfl (mem_ite hendpoints List.mem_cons_self))
  endpointTypes hendpoints htypes := by
    refine req.reads.array (mem_parts 7 rfl (mem_ite hendpoints ?_))
    exact List.mem_cons_of_mem _ (mem_ite htypes List.mem_cons_self)

/-- A text that one call writes into a fresh buffer, if it fits. -/
theorem written {g : Writer → Except JsonError Writer} {v : Rfc8259.Value} (h : EmitsValue g v)
    (out : List UInt8) (P : List UInt8 → Prop) (hP : P (Utf8.encode v.text)) :
    let r := do
      let w ← g (Writer.new out)
      return (w.len, w.buf)
    if (Utf8.encode v.text).length ≤ out.length then
      ∃ n out', r = .ok (n, out') ∧ P (out'.take n)
    else r = .error .shortBuffer := by
  have hfresh := h.fresh out
  by_cases hroom : (Utf8.encode v.text).length ≤ out.length
  · rw [if_pos hroom] at hfresh
    obtain ⟨w, hw, hbytes⟩ := hfresh
    simp only
    rw [if_pos hroom, hw]
    refine ⟨w.len, w.buf, rfl, ?_⟩
    show P w.asBytes
    rwa [hbytes]
  · rw [if_neg hroom] at hfresh
    simp only
    rw [if_neg hroom, hfresh]
    rfl

theorem writeRegisterRequest_spec (out : List UInt8) (req : Register) {P : List UInt8 → Prop}
    (hP : P (Utf8.encode (objectOf req.members).text)) :
    if (Utf8.encode (objectOf req.members).text).length ≤ out.length then
      ∃ n out', writeRegisterRequest out req = .ok (n, out') ∧ P (out'.take n)
    else writeRegisterRequest out req = .error .shortBuffer := by
  have hwritten := written req.emits out P hP
  unfold writeRegisterRequest
  rw [keyStr_node]
  exact hwritten

theorem writeMapRequest_spec (out : List UInt8) (req : MapRequest) {P : List UInt8 → Prop}
    (hP : P (Utf8.encode (objectOf req.members).text)) :
    if (Utf8.encode (objectOf req.members).text).length ≤ out.length then
      ∃ n out', writeMapRequest out req = .ok (n, out') ∧ P (out'.take n)
    else writeMapRequest out req = .error .shortBuffer := by
  have hwritten := written req.emits out P hP
  unfold writeMapRequest
  rw [keyStr_node, keyStr_disco]
  exact hwritten

/-- **The requests are read back as they were meant**, whatever their strings contain:
in a buffer that is too short there is no request at all. -/
theorem requests_read_back (out : List UInt8) :
    (∀ req : Register,
      if (Utf8.encode (objectOf req.members).text).length ≤ out.length then
        ∃ n out', writeRegisterRequest out req = .ok (n, out') ∧ req.ReadBack (out'.take n)
      else writeRegisterRequest out req = .error .shortBuffer) ∧
    ∀ req : MapRequest,
      if (Utf8.encode (objectOf req.members).text).length ≤ out.length then
        ∃ n out', writeMapRequest out req = .ok (n, out') ∧ req.ReadBack (out'.take n)
      else writeMapRequest out req = .error .shortBuffer := by
  constructor
  · intro req
    exact writeRegisterRequest_spec out req req.readBack
  · intro req
    exact writeMapRequest_spec out req req.readBack

end Lando.Control
