/-
Lando/FwRequests.lean

What the firmware writes to the control plane (`hostinfo`, `register`,
`advertise` and `map_poll` in `lando-fw/src/main.rs`), and whether it fits.

The three bodies are written into arrays of fixed size.  What goes into them that
is not fixed is the subnet and the endpoint, which DHCP bounds, and the auth key:
it has 96 bytes at most, but is escaped on its way, to six times as many at
worst.  So the poll and the advertisement always fit, and

    the registration fits   iff   width authKey + width routes ≤ 203

where the routes are the one member that a lease adds (`requests_fit_iff`).
-/
import Lando.ControlRequests
import Lando.FwConfig
import Lando.FwNode
import Lando.Rfc8259Length

namespace Lando

open Bytes Json

/-! ### Widths of members -/

namespace Json.Writer

/-- The bytes of members, each with a byte behind it. -/
def Named.bytes (ms : Named) : ℕ :=
  (ms.map fun m => (Rfc8259.Str.ofChars m.1).width + 4 + m.2.width).sum

@[simp] theorem Named.bytes_nil : Named.bytes [] = 0 := rfl

@[simp] theorem Named.bytes_append (ms ms' : Named) :
    Named.bytes (ms ++ ms') = Named.bytes ms + Named.bytes ms' := by
  rw [bytes, List.map_append, List.sum_append]
  rfl

@[simp] theorem Named.bytes_singleton (k : List Char) (v : Rfc8259.Value) :
    Named.bytes [(k, v)] = (Rfc8259.Str.ofChars k).width + 4 + v.width := Nat.add_zero _

theorem width_objectOf {ms : Named} (h : ms ≠ []) :
    (Rfc8259.Value.object (objectOf ms)).width = 1 + Named.bytes ms := by
  rw [objectOf, Rfc8259.width_object (by rwa [ne_eq, List.map_eq_nil_iff]), List.map_map]
  rfl

end Json.Writer

namespace Control

open Json.Writer

@[simp] theorem width_str (s : List Char) :
    (str s).width = (Rfc8259.Str.ofChars s).width + 2 := Rfc8259.width_string _

@[simp] theorem width_strings_singleton (s : List Char) :
    (strings [s]).width = (Rfc8259.Str.ofChars s).width + 4 := by
  rw [strings, List.map_singleton, Rfc8259.width_array (List.cons_ne_nil _ _),
    List.map_singleton, List.sum_singleton, width_str, Nat.add_comm]

/-- A key takes its tag and 64 digits. -/
theorem width_keyText {tag : List Char} (htag : ∀ c ∈ tag, Rfc8259.Single c) (k : Key) :
    (str (keyText tag k)).width = tag.length + 66 := by
  have hdigits : ∀ b ∈ Hex.digits, Rfc8259.Single (Char.ofNat b.toNat) :=
    Utf8.forall_table (by decide +kernel)
  have hsingle : ∀ c ∈ Utf8.ascii (Hex.encode k.toList), Rfc8259.Single c := by
    intro c hc
    obtain ⟨b, hb, rfl⟩ := List.mem_map.mp hc
    exact hdigits b (Hex.mem_encode hb)
  rw [width_str, keyText, Rfc8259.Str.width_ofChars_append,
    Rfc8259.Str.width_ofChars_single htag, Rfc8259.Str.width_ofChars_single hsingle,
    Utf8.ascii, List.length_map, Hex.length_encode, Vector.length_toList]

/-- `Hostinfo::default`. -/
def Hostinfo.default : Hostinfo where
  hostname := "lando".toList
  ipnVersion := "1.98.9".toList
  os := "linux".toList
  osVersion := []
  machine := "thumbv8m".toList
  routableIps := []
  preferredDerp := 0
  derpLatencyMs := none
  workingUdp := false

end Control

/-- `CAPABILITY_VERSION`. -/
def capabilityVersion : UInt16 := 145

namespace Fw

open Lando.Control Json.Writer

/-! ### Bounded strings -/

/-- `core::write!` into a `heapless::String` of `cap` bytes: the pieces one after
the other, up to one for which there is no room. -/
def formatted (cap : ℕ) (s : List Char) : List (List Char) → List Char
  | [] => s
  | t :: ts => if (Utf8.encode (s ++ t)).length ≤ cap then formatted cap (s ++ t) ts else s

theorem formatted_of_fits {cap : ℕ} {s : List Char} {ts : List (List Char)}
    (h : (Utf8.encode (s ++ ts.flatten)).length ≤ cap) :
    formatted cap s ts = s ++ ts.flatten := by
  induction ts generalizing s with
  | nil => exact (List.append_nil s).symm
  | cons t ts ih =>
    rw [List.flatten_cons, ← List.append_assoc] at h ⊢
    have hroom : (Utf8.encode (s ++ t)).length ≤ cap := by
      rw [Utf8.encode_append, List.length_append] at h
      omega
    rw [formatted, if_pos hroom, ih h]

/-! ### The lease -/

/-- The port of `wg.rs`. -/
def wgPort : ℕ := 41641

/-- What `config_v4` has: the address, and the network that it is in. -/
structure Lease where
  address : Vector UInt8 4
  network : Vector UInt8 4
  prefixLen : ℕ
  proper : prefixLen ≤ 32

/-- A number, as `{}` has it. -/
def decimal (n : ℕ) : List Char := Utf8.ascii (Decimal.ascii n)

/-- An IPv4 address, in the pieces that `{}` writes. -/
def dotted (a : Vector UInt8 4) : List (List Char) :=
  (a.toList.map fun b => decimal b.toNat).intersperse ['.']

/-- Where peers can reach the device, in a string of 32 bytes. -/
def endpoint : Option Lease → List Char
  | none => []
  | some l => formatted 32 [] (dotted l.address ++ [[':'], decimal wgPort])

/-- The subnet that it can route into, in a string of 24 bytes. -/
def subnet : Option Lease → List Char
  | none => []
  | some l => formatted 24 [] (dotted l.network ++ [['/'], decimal l.prefixLen])

/-- The routes to advertise: the subnet of the lease, if there is one. -/
def routes (lease : Option Lease) : List (List Char) :=
  if subnet lease = [] then [] else [subnet lease]

/-! ### The requests -/

/-- Everything this device tells the control plane about itself. -/
def hostinfo (routes : List (List Char)) (preferredDerp : UInt32) : Hostinfo :=
  { Hostinfo.default with
    hostname := "lando-pico".toList
    routableIps := routes
    preferredDerp := preferredDerp
    derpLatencyMs := some 30
    workingUdp := true }

/-- `&body[..n]`, or `H2Error::Frame`. -/
def bodyOf (r : Except JsonError (ℕ × List UInt8)) : Option (List UInt8) :=
  match r with
  | .ok (n, body) => some (body.take n)
  | .error _ => none

/-- What `register` asks for. -/
def registerRequest (cfg : Config) (nodeKey : NodePublic) (routes : List (List Char)) :
    Register where
  capabilityVersion := capabilityVersion
  nodeKey := nodeKey
  authKey := if cfg.authKey.text = [] then none else some cfg.authKey.text
  followup := none
  hostinfo := hostinfo routes (.ofNat derpRegion)
  ephemeral := false

/-- The body of `register`, in a buffer of 640 bytes. -/
def registerBody (cfg : Config) (nodeKey : NodePublic) (routes : List (List Char)) :
    Option (List UInt8) :=
  bodyOf (writeRegisterRequest (List.replicate 640 0) (registerRequest cfg nodeKey routes))

/-- `endpoint_type::LOCAL`. -/
def endpointTypeLocal : UInt8 := 1

/-- What `advertise` says of the device. -/
def advertiseRequest (nodeKey : NodePublic) (discoKey : DiscoPublic) (endpoint : List Char)
    (routes : List (List Char)) : MapRequest where
  capabilityVersion := capabilityVersion
  nodeKey := nodeKey
  discoKey := discoKey
  hostinfo := hostinfo routes (.ofNat derpRegion)
  stream := false
  keepAlive := false
  omitPeers := true
  endpoints := [endpoint]
  endpointTypes := [endpointTypeLocal]

/-- The body of `advertise`, in a buffer of 768 bytes. -/
def advertiseBody (nodeKey : NodePublic) (discoKey : DiscoPublic) (endpoint : List Char)
    (routes : List (List Char)) : Option (List UInt8) :=
  bodyOf (writeMapRequest (List.replicate 768 0)
    (advertiseRequest nodeKey discoKey endpoint routes))

/-- The poll is read-only, so it describes next to nothing. -/
def pollRequest (nodeKey : NodePublic) (discoKey : DiscoPublic) : MapRequest where
  capabilityVersion := capabilityVersion
  nodeKey := nodeKey
  discoKey := discoKey
  hostinfo := { Hostinfo.default with hostname := "lando-pico".toList, preferredDerp := 1 }
  stream := true
  keepAlive := true
  omitPeers := true
  endpoints := []
  endpointTypes := []

/-- The body of `map_poll`, in a buffer of 640 bytes. -/
def pollBody (nodeKey : NodePublic) (discoKey : DiscoPublic) : Option (List UInt8) :=
  bodyOf (writeMapRequest (List.replicate 640 0) (pollRequest nodeKey discoKey))

/-! ### What a lease adds -/

/-- Characters that are written as themselves, in one byte. -/
def Terse (cs : List Char) : Prop := ∀ c ∈ cs, Rfc8259.Single c ∧ c.toNat < 0x80

theorem Terse.append {cs ds : List Char} (h : Terse cs) (h' : Terse ds) : Terse (cs ++ ds) := by
  intro c hc
  rcases List.mem_append.mp hc with hc | hc
  · exact h c hc
  · exact h' c hc

theorem Terse.width {cs : List Char} (h : Terse cs) :
    (Rfc8259.Str.ofChars cs).width = cs.length :=
  Rfc8259.Str.width_ofChars_single fun c hc => (h c hc).1

theorem Terse.length_encode {cs : List Char} (h : Terse cs) :
    (Utf8.encode cs).length = cs.length := by
  induction cs with
  | nil => rfl
  | cons c cs ih =>
    rw [Utf8.encode_cons_ascii (h c List.mem_cons_self).2, List.length_cons, List.length_cons,
      ih fun d hd => h d (List.mem_cons_of_mem c hd)]

theorem mem_ascii {n : ℕ} {b : UInt8} (hb : b ∈ Decimal.ascii n) :
    ∃ d : Fin 10, b = 48 + .ofNat d.val := by
  induction n using Nat.strongRecOn with
  | _ n ih =>
    rcases Nat.lt_or_ge n 10 with hlt | hge
    · rw [Decimal.ascii_of_lt hlt] at hb
      exact ⟨⟨n, hlt⟩, List.mem_singleton.mp hb⟩
    · rw [Decimal.ascii_of_ge hge, List.mem_append] at hb
      rcases hb with hb | hb
      · exact ih (n / 10) (by omega) hb
      · exact ⟨⟨n % 10, by omega⟩, List.mem_singleton.mp hb⟩

theorem terse_decimal (n : ℕ) : Terse (decimal n) := by
  have hdigit : ∀ d : Fin 10, Rfc8259.Single (Char.ofNat (48 + .ofNat d.val : UInt8).toNat) ∧
      (Char.ofNat (48 + .ofNat d.val : UInt8).toNat).toNat < 0x80 := by decide +kernel
  intro c hc
  obtain ⟨b, hb, rfl⟩ := List.mem_map.mp hc
  obtain ⟨d, rfl⟩ := mem_ascii hb
  exact hdigit d

theorem length_decimal_le {n k : ℕ} (hk : 0 < k) (h : n < 10 ^ k) : (decimal n).length ≤ k := by
  rw [decimal, Utf8.ascii, List.length_map]
  exact Decimal.length_ascii_le hk h

/-- An address takes fifteen characters at most. -/
theorem terse_dotted (a : Vector UInt8 4) :
    Terse (dotted a).flatten ∧ (dotted a).flatten.length ≤ 15 := by
  have hbyte : ∀ b : UInt8, (decimal b.toNat).length ≤ 3 := fun b =>
    length_decimal_le (by decide) (Nat.lt_trans (UInt8.toNat_lt b) (by decide))
  have hdot : Terse ['.'] := by
    intro c hc
    rw [List.mem_singleton.mp hc]
    decide +kernel
  obtain ⟨b₀, b₁, b₂, b₃, he⟩ := List.length_eq_four.mp (show a.toList.length = 4 by simp)
  have hflat : (dotted a).flatten = decimal b₀.toNat ++ (['.'] ++ (decimal b₁.toNat ++ (['.'] ++
      (decimal b₂.toNat ++ (['.'] ++ (decimal b₃.toNat ++ [])))))) := by
    rw [dotted, he]
    rfl
  rw [hflat]
  constructor
  · refine (terse_decimal _).append (hdot.append ((terse_decimal _).append (hdot.append
      ((terse_decimal _).append (hdot.append ((terse_decimal _).append ?_))))))
    exact fun c hc => absurd hc List.not_mem_nil
  · have h₀ := hbyte b₀
    have h₁ := hbyte b₁
    have h₂ := hbyte b₂
    have h₃ := hbyte b₃
    simp only [List.length_append, List.length_singleton, List.length_nil]
    omega

/-- An address, a character and a number, in a string that has room. -/
theorem formatted_dotted (a : Vector UInt8 4) {sep : Char} (hsep : Terse [sep]) (n k cap : ℕ)
    (hk : 0 < k) (hn : n < 10 ^ k) (hcap : 16 + k ≤ cap) :
    Terse (formatted cap [] (dotted a ++ [[sep], decimal n])) ∧
      (formatted cap [] (dotted a ++ [[sep], decimal n])).length ≤ 16 + k ∧
      formatted cap [] (dotted a ++ [[sep], decimal n]) ≠ [] := by
  obtain ⟨hterse, hlen⟩ := terse_dotted a
  have hall : Terse (dotted a ++ [[sep], decimal n]).flatten := by
    rw [List.flatten_append]
    refine hterse.append (hsep.append ((terse_decimal n).append ?_))
    exact fun c hc => absurd hc List.not_mem_nil
  have hshort : (dotted a ++ [[sep], decimal n]).flatten.length ≤ 16 + k := by
    have hnumber := length_decimal_le hk hn
    simp only [List.flatten_append, List.flatten_cons, List.flatten_nil, List.length_append,
      List.length_singleton, List.length_nil]
    omega
  have hfits : (Utf8.encode ([] ++ (dotted a ++ [[sep], decimal n]).flatten)).length ≤ cap := by
    rw [List.nil_append, hall.length_encode]
    omega
  rw [formatted_of_fits hfits, List.nil_append]
  refine ⟨hall, hshort, fun hnil => ?_⟩
  rw [List.flatten_append, List.append_eq_nil_iff] at hnil
  cases hnil.2

/-- The endpoint is short. -/
theorem terse_endpoint (lease : Option Lease) :
    Terse (endpoint lease) ∧ (endpoint lease).length ≤ 21 := by
  cases lease with
  | none => exact ⟨fun c hc => absurd hc List.not_mem_nil, Nat.zero_le _⟩
  | some l =>
    have hsep : Terse [':'] := by
      intro c hc
      rw [List.mem_singleton.mp hc]
      decide +kernel
    have h := formatted_dotted l.address hsep wgPort 5 32 (by decide) (by decide) (by decide)
    exact ⟨h.1, h.2.1⟩

/-- So is the subnet, and a lease has one. -/
theorem terse_subnet (lease : Option Lease) :
    Terse (subnet lease) ∧ (subnet lease).length ≤ 18 ∧
      (subnet lease = [] ↔ lease = none) := by
  cases lease with
  | none => exact ⟨fun c hc => absurd hc List.not_mem_nil, Nat.zero_le _, iff_of_true rfl rfl⟩
  | some l =>
    have hsep : Terse ['/'] := by
      intro c hc
      rw [List.mem_singleton.mp hc]
      decide +kernel
    have h := formatted_dotted l.network hsep l.prefixLen 2 24 (by decide)
      (Nat.lt_of_le_of_lt l.proper (by decide)) (by decide)
    exact ⟨h.1, h.2.1, iff_of_false h.2.2 (Option.some_ne_none l)⟩

/-! ### How long the bodies are -/

/-- The bytes of the routes in a `Hostinfo`. -/
def routesBytes (rs : List (List Char)) : ℕ :=
  Named.bytes (if rs ≠ [] then [("RoutableIPs".toList, strings rs)] else [])

theorem routesBytes_routes (lease : Option Lease) :
    routesBytes (routes lease) = if lease.isSome then 19 + (subnet lease).length else 0 := by
  obtain ⟨hterse, -, hnil⟩ := terse_subnet lease
  have hname : (Rfc8259.Str.ofChars "RoutableIPs".toList).width = 11 := by decide +kernel
  rw [routesBytes, routes]
  by_cases h : lease = none
  · rw [if_pos (hnil.mpr h), h]
    rfl
  · rw [if_neg (mt hnil.mp h), if_pos (List.cons_ne_nil _ _), Named.bytes_singleton, hname,
      width_strings_singleton, hterse.width, if_pos (Option.isSome_iff_ne_none.mpr h)]
    omega

/-- The routes come last in a `Hostinfo`. -/
theorem bytes_members (h : Hostinfo) :
    Named.bytes h.members =
      Named.bytes { h with routableIps := [] }.members + routesBytes h.routableIps := by
  simp only [Hostinfo.members, List.flatten_cons, List.flatten_nil, Named.bytes_append,
    routesBytes, ne_eq, not_true_eq_false, if_false, Named.bytes_nil, Nat.add_zero, Nat.add_assoc]
  rfl

theorem members_ne_nil (h : Hostinfo) : h.members ≠ [] := List.cons_ne_nil _ _

theorem width_hostinfo (rs : List (List Char)) :
    (Rfc8259.Value.object (objectOf (hostinfo rs (.ofNat derpRegion)).members)).width =
      303 + routesBytes rs := by
  have hfixed : Named.bytes { hostinfo rs (.ofNat derpRegion) with routableIps := [] }.members = 302 := by
    show Named.bytes (hostinfo [] (.ofNat derpRegion)).members = 302
    decide +kernel
  rw [width_objectOf (members_ne_nil _), bytes_members, hfixed, ← Nat.add_assoc]
  rfl

/-- The tags of keys are written as they are. -/
theorem single_tags :
    (∀ c ∈ "nodekey:".toList, Rfc8259.Single c) ∧ ∀ c ∈ "discokey:".toList, Rfc8259.Single c :=
  ⟨Utf8.forall_table (by decide +kernel), Utf8.forall_table (by decide +kernel)⟩

/-- The bytes of the auth key in a registration. -/
def authBytes (authKey : List Char) : ℕ :=
  if authKey = [] then 0 else 22 + (Rfc8259.Str.ofChars authKey).width

theorem width_auth (authKey : List Char) :
    (Rfc8259.Value.object (objectOf (auth authKey))).width =
      14 + (Rfc8259.Str.ofChars authKey).width := by
  have hname : (Rfc8259.Str.ofChars "AuthKey".toList).width = 7 := by decide +kernel
  rw [auth, width_objectOf (List.cons_ne_nil _ _), Named.bytes_singleton, hname, width_str]
  omega

/-- The parts of a registration. -/
theorem members_register (cfg : Config) (nodeKey : NodePublic) (rs : List (List Char)) :
    (registerRequest cfg nodeKey rs).members =
      [("Version".toList, .number (.ofNat capabilityVersion.toNat))] ++
      [("NodeKey".toList, str (keyText "nodekey:".toList nodeKey.bytes))] ++
      (if cfg.authKey.text = [] then []
        else [("Auth".toList, .object (objectOf (auth cfg.authKey.text)))]) ++
      [("Hostinfo".toList, .object (objectOf (hostinfo rs (.ofNat derpRegion)).members))] := by
  rw [Register.members, registerRequest]
  by_cases h : cfg.authKey.text = []
  · simp only [if_pos h]
    rfl
  · simp only [if_neg h]
    rfl

theorem width_register (cfg : Config) (nodeKey : NodePublic) (rs : List (List Char)) :
    (Rfc8259.Value.object (objectOf (registerRequest cfg nodeKey rs).members)).width =
      415 + authBytes cfg.authKey.text + routesBytes rs := by
  have hversion : Named.bytes [("Version".toList,
      .number (.ofNat capabilityVersion.toNat))] = 14 := by decide +kernel
  have hname : (Rfc8259.Str.ofChars "NodeKey".toList).width = 7 ∧
      (Rfc8259.Str.ofChars "Auth".toList).width = 4 ∧
      (Rfc8259.Str.ofChars "Hostinfo".toList).width = 8 ∧ "nodekey:".toList.length = 8 := by
    decide +kernel
  have hauth : Named.bytes (if cfg.authKey.text = [] then []
      else [("Auth".toList, .object (objectOf (auth cfg.authKey.text)))]) =
        authBytes cfg.authKey.text := by
    rw [authBytes]
    split_ifs with h
    · rfl
    · rw [Named.bytes_singleton, hname.2.1, width_auth]
      omega
  have hne : (registerRequest cfg nodeKey rs).members ≠ [] := List.cons_ne_nil _ _
  rw [width_objectOf hne, members_register, Named.bytes_append,
    Named.bytes_append, Named.bytes_append, hversion, hauth, Named.bytes_singleton,
    Named.bytes_singleton, width_keyText single_tags.1, width_hostinfo, hname.1, hname.2.2.1,
    hname.2.2.2]
  omega

/-- The parts of an advertisement. -/
theorem members_advertise (nodeKey : NodePublic) (discoKey : DiscoPublic) (endpoint : List Char)
    (rs : List (List Char)) :
    (advertiseRequest nodeKey discoKey endpoint rs).members =
      [("Version".toList, .number (.ofNat capabilityVersion.toNat)),
        ("Compress".toList, str []), ("KeepAlive".toList, .bool false)] ++
      [("NodeKey".toList, str (keyText "nodekey:".toList nodeKey.bytes))] ++
      [("DiscoKey".toList, str (keyText "discokey:".toList discoKey.bytes))] ++
      [("OmitPeers".toList, .bool true)] ++
      [("Endpoints".toList, strings [endpoint])] ++
      [("EndpointTypes".toList, .array (.compact [.number (.ofNat endpointTypeLocal.toNat)]))] ++
      [("Hostinfo".toList, .object (objectOf (hostinfo rs (.ofNat derpRegion)).members))] := rfl

theorem width_advertise (nodeKey : NodePublic) (discoKey : DiscoPublic) (endpoint : List Char)
    (rs : List (List Char)) :
    (Rfc8259.Value.object (objectOf
        (advertiseRequest nodeKey discoKey endpoint rs).members)).width =
      588 + (Rfc8259.Str.ofChars endpoint).width + routesBytes rs := by
  have hfixed : Named.bytes [("Version".toList, .number (.ofNat capabilityVersion.toNat)),
      ("Compress".toList, str []), ("KeepAlive".toList, .bool false)] = 46 := by decide +kernel
  have homit : Named.bytes [("OmitPeers".toList, .bool true)] = 17 := by decide +kernel
  have htypes : Named.bytes [("EndpointTypes".toList,
      .array (.compact [.number (.ofNat endpointTypeLocal.toNat)]))] = 20 := by decide +kernel
  have hname : (Rfc8259.Str.ofChars "NodeKey".toList).width = 7 ∧
      (Rfc8259.Str.ofChars "DiscoKey".toList).width = 8 ∧
      (Rfc8259.Str.ofChars "Endpoints".toList).width = 9 ∧
      (Rfc8259.Str.ofChars "Hostinfo".toList).width = 8 ∧ "nodekey:".toList.length = 8 ∧
      "discokey:".toList.length = 9 := by decide +kernel
  obtain ⟨hnode, hdisco, hendpoints, hhostinfo, hnodeTag, hdiscoTag⟩ := hname
  have hne : (advertiseRequest nodeKey discoKey endpoint rs).members ≠ [] := List.cons_ne_nil _ _
  rw [width_objectOf hne, members_advertise]
  simp only [Named.bytes_append]
  rw [hfixed, homit, htypes, Named.bytes_singleton, Named.bytes_singleton, Named.bytes_singleton,
    Named.bytes_singleton, width_keyText single_tags.1, width_keyText single_tags.2,
    width_strings_singleton, width_hostinfo, hnode, hdisco, hendpoints, hhostinfo, hnodeTag,
    hdiscoTag]
  omega

theorem width_poll (nodeKey : NodePublic) (discoKey : DiscoPublic) :
    (Rfc8259.Value.object (objectOf (pollRequest nodeKey discoKey).members)).width = 534 := by
  have hparts : (pollRequest nodeKey discoKey).members =
      [("Version".toList, .number (.ofNat capabilityVersion.toNat)),
        ("Compress".toList, str []), ("KeepAlive".toList, .bool true)] ++
      [("NodeKey".toList, str (keyText "nodekey:".toList nodeKey.bytes))] ++
      [("DiscoKey".toList, str (keyText "discokey:".toList discoKey.bytes))] ++
      [("Stream".toList, .bool true), ("OmitPeers".toList, .bool true),
        ("Hostinfo".toList, .object (objectOf { Hostinfo.default with
          hostname := "lando-pico".toList, preferredDerp := 1 }.members))] := rfl
  have hfixed : Named.bytes [("Version".toList, .number (.ofNat capabilityVersion.toNat)),
      ("Compress".toList, str []), ("KeepAlive".toList, .bool true)] = 45 := by decide +kernel
  have hrest : Named.bytes [("Stream".toList, .bool true), ("OmitPeers".toList, .bool true),
      ("Hostinfo".toList, .object (objectOf { Hostinfo.default with
        hostname := "lando-pico".toList, preferredDerp := 1 }.members))] = 316 := by
    decide +kernel
  have hname : (Rfc8259.Str.ofChars "NodeKey".toList).width = 7 ∧
      (Rfc8259.Str.ofChars "DiscoKey".toList).width = 8 ∧ "nodekey:".toList.length = 8 ∧
      "discokey:".toList.length = 9 := by decide +kernel
  obtain ⟨hnode, hdisco, hnodeTag, hdiscoTag⟩ := hname
  have hne : (pollRequest nodeKey discoKey).members ≠ [] := List.cons_ne_nil _ _
  rw [width_objectOf hne, hparts]
  simp only [Named.bytes_append]
  rw [hfixed, hrest, Named.bytes_singleton, Named.bytes_singleton,
    width_keyText single_tags.1, width_keyText single_tags.2, hnode, hdisco, hnodeTag, hdiscoTag]

/-! ### Main result -/

/-- A registration that has room is written; another one is not. -/
theorem bodyOf_register (size : ℕ) (req : Register) :
    if (Rfc8259.Value.object (objectOf req.members)).width ≤ size then
      ∃ body, bodyOf (writeRegisterRequest (List.replicate size 0) req) = some body ∧
        req.ReadBack body
    else bodyOf (writeRegisterRequest (List.replicate size 0) req) = none := by
  have hspec := writeRegisterRequest_spec (List.replicate size 0) req req.readBack
  rw [List.length_replicate] at hspec
  rw [Rfc8259.Value.width, Rfc8259.Value.text]
  split_ifs at hspec ⊢ with h
  · obtain ⟨n, out, hwrite, hread⟩ := hspec
    exact ⟨out.take n, by rw [hwrite]; rfl, hread⟩
  · rw [hspec]
    rfl

/-- A map request that has room. -/
theorem bodyOf_map {size : ℕ} {req : MapRequest}
    (h : (Rfc8259.Value.object (objectOf req.members)).width ≤ size) :
    ∃ body, bodyOf (writeMapRequest (List.replicate size 0) req) = some body ∧
      req.ReadBack body := by
  have hspec := writeMapRequest_spec (List.replicate size 0) req req.readBack
  rw [List.length_replicate, if_pos (show (Utf8.encode (objectOf req.members).text).length ≤ size
    from h)] at hspec
  obtain ⟨n, out, hwrite, hread⟩ := hspec
  exact ⟨out.take n, by rw [hwrite]; rfl, hread⟩

/-- What a lease adds to a request. -/
theorem routesBytes_le (lease : Option Lease) : routesBytes (routes lease) ≤ 37 := by
  have hsubnet := (terse_subnet lease).2.1
  rw [routesBytes_routes]
  split_ifs
  · omega
  · omega

/-- The room that is left for the auth key; an absent one leaves enough. -/
theorem register_fits_iff (cfg : Config) (nodeKey : NodePublic) (lease : Option Lease) :
    (Rfc8259.Value.object (objectOf (registerRequest cfg nodeKey (routes lease)).members)).width ≤
        640 ↔
      (Rfc8259.Str.ofChars cfg.authKey.text).width + routesBytes (routes lease) ≤ 203 := by
  have hle := routesBytes_le lease
  rw [width_register, authBytes]
  by_cases h : cfg.authKey.text = []
  · rw [if_pos h, h, Rfc8259.Str.width_ofChars_nil]
    omega
  · rw [if_neg h]
    omega

/-- The registration of a device. -/
theorem registerBody_cases (cfg : Config) (nodeKey : NodePublic) (lease : Option Lease) :
    if (Rfc8259.Str.ofChars cfg.authKey.text).width + routesBytes (routes lease) ≤ 203 then
      ∃ body, registerBody cfg nodeKey (routes lease) = some body ∧
        (registerRequest cfg nodeKey (routes lease)).ReadBack body
    else registerBody cfg nodeKey (routes lease) = none := by
  have hspec := bodyOf_register 640 (registerRequest cfg nodeKey (routes lease))
  simp only [register_fits_iff] at hspec
  exact hspec

/-- **What fits.**  For every configuration, whatever the lease:

* the registration is written, and read back as it was meant, just if what is
  escaped of the auth key and what the subnet adds come to 203 bytes at most;
  otherwise there is none;
* an auth key without characters that are escaped always fits;
* the advertisement and the poll are always written and read back. -/
theorem requests_fit_iff (cfg : Config) (nodeKey : NodePublic) (discoKey : DiscoPublic)
    (lease : Option Lease) :
    let added := if lease.isSome then 19 + (subnet lease).length else 0
    ((∃ body, registerBody cfg nodeKey (routes lease) = some body ∧
        (registerRequest cfg nodeKey (routes lease)).ReadBack body) ↔
      (Rfc8259.Str.ofChars cfg.authKey.text).width + added ≤ 203) ∧
    (registerBody cfg nodeKey (routes lease) = none ↔
      203 < (Rfc8259.Str.ofChars cfg.authKey.text).width + added) ∧
    ((∀ c ∈ cfg.authKey.text, Rfc8259.Unescaped c) →
      (registerBody cfg nodeKey (routes lease)).isSome) ∧
    (∃ body, advertiseBody nodeKey discoKey (endpoint lease) (routes lease) = some body ∧
      (advertiseRequest nodeKey discoKey (endpoint lease) (routes lease)).ReadBack body) ∧
    ∃ body, pollBody nodeKey discoKey = some body ∧
      (pollRequest nodeKey discoKey).ReadBack body := by
  intro added
  have hadded : routesBytes (routes lease) = added := routesBytes_routes lease
  have hle := routesBytes_le lease
  have hspec := registerBody_cases cfg nodeKey lease
  rw [← hadded]
  refine ⟨?_, ?_, fun hplain => ?_, bodyOf_map ?_, bodyOf_map ?_⟩
  · split_ifs at hspec with h
    · exact iff_of_true hspec h
    · refine iff_of_false ?_ h
      rintro ⟨body, hbody, -⟩
      rw [hspec] at hbody
      cases hbody
  · rw [← Nat.not_le]
    split_ifs at hspec with h
    · obtain ⟨body, hbody, -⟩ := hspec
      refine iff_of_false ?_ (not_not.mpr h)
      rw [hbody]
      exact Option.some_ne_none body
    · exact iff_of_true hspec h
  · have hwidth : (Rfc8259.Str.ofChars cfg.authKey.text).width ≤ 96 := by
      rw [Rfc8259.Str.width_ofChars_unescaped hplain]
      exact cfg.authKey.fits
    rw [if_pos (by omega)] at hspec
    obtain ⟨body, hbody, -⟩ := hspec
    rw [hbody]
    rfl
  · have hendpoint := terse_endpoint lease
    rw [width_advertise, hendpoint.1.width]
    omega
  · rw [width_poll]
    decide

end Fw

end Lando
