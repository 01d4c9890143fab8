/-
Lando/Login.lean

The interactive login (`control.rs`, `parse_register_response`, and the follow-up
request of `control_plane`).

The control plane answers a registration with a URL, and the follow-up request
names that URL.  The extractor hands the URL out as it stands between its
quotation marks; the writer takes it for the URL itself, and escapes it again:

    followup  =  raw authUrl,   where   decode authUrl   is the URL

The two are the same just if the answer has no escape in the URL.
-/
import Lando.ControlRequests

namespace Lando.Control

open Bytes Json Writer

/-! ### The answer -/

/-- What the control plane answers to a registration. -/
structure RegisterResponse where
  machineAuthorized : Bool
  nodeKeyExpired : Bool
  /-- Where to log in, if a browser has to. -/
  authUrl : List Char
  error : List Char

/-- The characters of a string that was checked to be UTF-8 when it was read. -/
def chars (bytes : List UInt8) : List Char := (Utf8.decode bytes).getD []

/-- A string of the answer, empty if it is missing. -/
def strField (body : List UInt8) (k : List Char) : Except JsonError (List Char) := do
  let v ← field body (Utf8.encode k)
  return ((v.bind Value.asStr).map chars).getD []

/-- A flag of the answer, false if it is missing. -/
def boolField (body : List UInt8) (k : List Char) : Except JsonError Bool := do
  let v ← field body (Utf8.encode k)
  return (v.bind Value.asBool).getD false

/-- `parse_register_response`: four members, each of which may be missing. -/
def parseRegisterResponse (body : List UInt8) : Except JsonError RegisterResponse := do
  let machineAuthorized ← boolField body "MachineAuthorized".toList
  let nodeKeyExpired ← boolField body "NodeKeyExpired".toList
  let authUrl ← strField body "AuthURL".toList
  let error ← strField body "Error".toList
  return { machineAuthorized, nodeKeyExpired, authUrl, error }

/-- The follow-up to an answer: `base`, with the URL of the answer. -/
def followUp (out : List UInt8) (base : Register) (response : List UInt8) :
    Except JsonError (ℕ × List UInt8) := do
  let parsed ← parseRegisterResponse response
  writeRegisterRequest out { base with followup := some parsed.authUrl }

/-- A decoder finds the URL in the request, as its one `Followup`. -/
def Echoes (request : Except JsonError (ℕ × List UInt8)) (url : List Char) : Prop :=
  ∃ n out' ms, request = .ok (n, out') ∧ Rfc8259.decode (out'.take n) = some (.object ms) ∧
    ∀ t, ("Followup".toList, t) ∈ ms ↔ t = .string url

/-! ### What is read -/

/-- The string of a member, as it stands between its quotation marks. -/
def stringOf (o : Rfc8259.Object) (k : List Char) : List Char :=
  match o.first k with
  | some (.string s) => s.raw
  | _ => []

/-- The boolean of a member. -/
def flagOf (o : Rfc8259.Object) (k : List Char) : Bool :=
  match o.first k with
  | some (.bool b) => b
  | _ => false

theorem strField_eq (before after : Rfc8259.Blank) (o : Rfc8259.Object) (k : List Char) :
    strField (Utf8.encode (Rfc8259.Document.text ⟨before, .object o, after⟩)) k =
      .ok (stringOf o k) := by
  rw [strField, field_first, stringOf]
  show Except.ok _ = _
  rcases o.first k with - | v
  · rfl
  · cases v with
    | string s =>
      show Except.ok (chars (Utf8.encode s.raw)) = _
      rw [chars, Utf8.decode_encode]
      rfl
    | _ => rfl

theorem boolField_eq (before after : Rfc8259.Blank) (o : Rfc8259.Object) (k : List Char) :
    boolField (Utf8.encode (Rfc8259.Document.text ⟨before, .object o, after⟩)) k =
      .ok (flagOf o k) := by
  rw [boolField, field_first, flagOf]
  show Except.ok _ = _
  rcases o.first k with - | v
  · rfl
  · cases v with
    | _ => rfl

/-- **An answer is read member by member**, each the first of its name. -/
theorem parseRegisterResponse_eq (before after : Rfc8259.Blank) (o : Rfc8259.Object) :
    parseRegisterResponse (Utf8.encode (Rfc8259.Document.text ⟨before, .object o, after⟩)) =
      .ok {
        machineAuthorized := flagOf o "MachineAuthorized".toList
        nodeKeyExpired := flagOf o "NodeKeyExpired".toList
        authUrl := stringOf o "AuthURL".toList
        error := stringOf o "Error".toList } := by
  unfold parseRegisterResponse
  rw [boolField_eq, boolField_eq, strField_eq, strField_eq]
  rfl

/-! ### What requests mean -/

theorem mapM_of_isSome {α β : Type} {f : α → Option β} (xs : List α)
    (h : ∀ x ∈ xs, ∃ y, f x = some y) :
    ∃ ys, xs.mapM f = some ys ∧ ∀ y, y ∈ ys ↔ ∃ x ∈ xs, f x = some y := by
  induction xs with
  | nil => exact ⟨[], rfl, by simp⟩
  | cons x xs ih =>
    obtain ⟨y, hy⟩ := h x List.mem_cons_self
    obtain ⟨ys, hys, hmem⟩ := ih fun x hx => h x (List.mem_cons_of_mem _ hx)
    refine ⟨y :: ys, ?_, fun z => ?_⟩
    · rw [List.mapM_cons, hy, hys]
      rfl
    · rw [List.mem_cons, hmem z, List.exists_mem_cons_iff, hy, Option.some.injEq, eq_comm (a := y)]

/-- A value that a decoder accepts. -/
def Meant (v : Rfc8259.Value) : Prop := ∃ t, v.tree = some t

theorem meant_str (s : List Char) : Meant (str s) := by
  refine ⟨.string s, ?_⟩
  rw [str, Rfc8259.Value.tree, Rfc8259.Str.decode_ofChars]
  rfl

theorem meant_strings (ss : List (List Char)) : Meant (strings ss) := by
  obtain ⟨ts, hts, -⟩ := mapM_of_isSome (ss.map str) fun v hv => by
    obtain ⟨s, -, rfl⟩ := List.mem_map.mp hv
    exact meant_str s
  refine ⟨.array ts, ?_⟩
  rw [strings, Rfc8259.Value.tree, Rfc8259.Array.trees_compact, hts]
  rfl

/-- All members have a value that a decoder accepts. -/
def AllMeant (ms : Named) : Prop := ∀ m ∈ ms, Meant m.2

theorem AllMeant.nil : AllMeant [] := fun _ hm => absurd hm List.not_mem_nil

theorem AllMeant.one (k : List Char) {v : Rfc8259.Value} (h : Meant v) : AllMeant [(k, v)] := by
  intro m hm
  rwa [List.mem_singleton.mp hm]

theorem AllMeant.ite {ms : Named} {c : Prop} [Decidable c] (h : AllMeant ms) :
    AllMeant (if c then ms else []) := by
  by_cases hc : c
  · rwa [if_pos hc]
  · rw [if_neg hc]
    exact .nil

theorem AllMeant.cons {ms : Named} {parts : List Named} (h : AllMeant ms)
    (h' : AllMeant parts.flatten) : AllMeant (ms :: parts).flatten := by
  intro m hm
  rw [List.flatten_cons] at hm
  exact (List.mem_append.mp hm).elim (h m) (h' m)

/-- What a decoder makes of an object: what it makes of the members. -/
theorem tree_objectOf {ms : Named} (h : AllMeant ms) :
    ∃ ts, (Rfc8259.Value.object (objectOf ms)).tree = some (.object ts) ∧
      ∀ k t, (k, t) ∈ ts ↔ ∃ v, (k, v) ∈ ms ∧ v.tree = some t := by
  have hmember : ∀ m : List Char × Rfc8259.Value, ∀ y,
      (do return (← (Rfc8259.Str.ofChars m.1).decode, ← m.2.tree) :
        Option (List Char × Rfc8259.Tree)) = some y ↔ m.1 = y.1 ∧ m.2.tree = some y.2 := by
    rintro ⟨k, v⟩ ⟨k', t⟩
    rw [Rfc8259.Str.decode_ofChars]
    cases v.tree
    · simp
    · simp
  obtain ⟨ts, hts, hmem⟩ := mapM_of_isSome
    (f := fun m => do return (← m.1.decode, ← m.2.tree))
    (ms.map fun m => (Rfc8259.Str.ofChars m.1, m.2)) fun x hx => by
      obtain ⟨m, hm, rfl⟩ := List.mem_map.mp hx
      obtain ⟨t, ht⟩ := h m hm
      exact ⟨(m.1, t), (hmember m (m.1, t)).mpr ⟨rfl, ht⟩⟩
  refine ⟨ts, ?_, fun k t => ?_⟩
  · rw [Rfc8259.Value.tree, objectOf, Rfc8259.Object.trees_compact, hts]
    rfl
  · rw [hmem]
    constructor
    · rintro ⟨x, hx, hy⟩
      obtain ⟨m, hm, rfl⟩ := List.mem_map.mp hx
      obtain ⟨rfl, ht⟩ := (hmember m (k, t)).mp hy
      exact ⟨m.2, hm, ht⟩
    · rintro ⟨v, hv, ht⟩
      exact ⟨_, List.mem_map_of_mem hv, (hmember (k, v) (k, t)).mpr ⟨rfl, ht⟩⟩

theorem meant_objectOf {ms : Named} (h : AllMeant ms) : Meant (.object (objectOf ms)) := by
  obtain ⟨ts, hts, -⟩ := tree_objectOf h
  exact ⟨_, hts⟩

namespace Hostinfo

theorem meant_netInfo (h : Hostinfo) : AllMeant h.netInfo := by
  have hbool : ∀ k b, AllMeant [(k, .bool b)] := fun k b => .one k ⟨_, rfl⟩
  refine .cons (hbool _ _) (.cons (hbool _ _) (.cons (hbool _ _) (.cons (hbool _ _) ?_)))
  refine .cons (hbool _ _) (.cons (hbool _ _) (.cons (hbool _ _) (.cons (hbool _ _) ?_)))
  refine .cons (.one _ ⟨_, rfl⟩) (.cons ?_ (.cons (.one _ (meant_str _)) .nil))
  cases h.derpLatencyMs with
  | none => exact .nil
  | some ms => exact .one _ (meant_objectOf (.one _ ⟨_, rfl⟩))

theorem meant (h : Hostinfo) : AllMeant h.members := by
  have hstr : ∀ k s, AllMeant [(k, str s)] := fun k s => .one k (meant_str s)
  refine .cons (hstr _ _) (.cons (hstr _ _) (.cons (.ite (hstr _ _)) (.cons (hstr _ _) ?_)))
  refine .cons (hstr _ _) (.cons (.ite (.one _ (meant_objectOf h.meant_netInfo))) ?_)
  exact .cons (.ite (.one _ (meant_strings h.routableIps))) .nil

end Hostinfo

theorem Register.meant (req : Register) : AllMeant req.members := by
  refine .cons (.one _ ⟨_, rfl⟩) (.cons (.one _ (meant_str _)) (.cons ?_ (.cons ?_ ?_)))
  · cases req.authKey with
    | none => exact .nil
    | some authKey => exact .one _ (meant_objectOf (.one _ (meant_str authKey)))
  · cases req.followup with
    | none => exact .nil
    | some url => exact .one _ (meant_str url)
  exact .cons (.one _ (meant_objectOf req.hostinfo.meant)) (.cons (.ite (.one _ ⟨_, rfl⟩)) .nil)

/-! ### The follow-up -/

/-- The follow-up has one `Followup`. -/
theorem Register.mem_followup {req : Register} {url : List Char} (h : req.followup = some url)
    (v : Rfc8259.Value) : ("Followup".toList, v) ∈ req.members ↔ v = str url := by
  have hmem : ("Followup".toList, str url) ∈ req.members := by
    refine mem_parts 3 rfl ?_
    rw [h]
    exact List.mem_cons_self
  have hnodup : (req.members.map Prod.fst).Nodup := Register.plain_names.1.sublist req.names_members
  constructor
  · intro hv
    exact congrArg Prod.snd (List.inj_on_of_nodup_map hnodup hv hmem rfl)
  · rintro rfl
    exact hmem

/-- A request echoes the URL that it was given, if it fits. -/
theorem echoes_register (out : List UInt8) {req : Register} {url : List Char}
    (h : req.followup = some url) (u : List Char) :
    Echoes (writeRegisterRequest out req) u ↔
      url = u ∧ (Utf8.encode (objectOf req.members).text).length ≤ out.length := by
  obtain ⟨ts, hts, hmem⟩ := tree_objectOf req.meant
  have htree : ∀ t, (str url).tree = some t ↔ t = .string url := by
    intro t
    rw [str, Rfc8259.Value.tree, Rfc8259.Str.decode_ofChars, Option.map_some, Option.some.injEq,
      eq_comm]
  have hfollowup : ∀ t, ("Followup".toList, t) ∈ ts ↔ t = .string url := by
    intro t
    rw [hmem, ← htree t]
    constructor
    · rintro ⟨v, hv, ht⟩
      rwa [(Register.mem_followup h v).mp hv] at ht
    · intro ht
      exact ⟨str url, (Register.mem_followup h _).mpr rfl, ht⟩
  have hread : Rfc8259.decode (Utf8.encode (Rfc8259.Value.object (objectOf req.members)).text) =
      some (.object ts) := (decode_value _).trans hts
  have hwritten := writeRegisterRequest_spec out req
    (P := fun json => Rfc8259.decode json = some (.object ts)) hread
  by_cases hroom : (Utf8.encode (objectOf req.members).text).length ≤ out.length
  · rw [if_pos hroom] at hwritten
    obtain ⟨n, out', hw, hdecode⟩ := hwritten
    constructor
    · rintro ⟨m, out₁, ts₁, hw₁, hdecode₁, hts₁⟩
      obtain ⟨rfl, rfl⟩ := Prod.mk.inj (Except.ok.inj (hw.symm.trans hw₁))
      obtain rfl := Rfc8259.Tree.object.inj (Option.some.inj (hdecode.symm.trans hdecode₁))
      have hsame := (hts₁ (.string url)).mp ((hfollowup _).mpr rfl)
      exact ⟨Rfc8259.Tree.string.inj hsame, hroom⟩
    · rintro ⟨rfl, -⟩
      exact ⟨n, out', ts, hw, hdecode, hfollowup⟩
  · rw [if_neg hroom] at hwritten
    constructor
    · rintro ⟨n, out', ts', hw, -⟩
      rw [hwritten] at hw
      cases hw
    · exact fun hboth => absurd hboth.2 hroom

/-- **What the follow-up echoes** is the URL as the answer writes it. -/
theorem echoes_followUp (out : List UInt8) (base : Register) (before after : Rfc8259.Blank)
    (o : Rfc8259.Object) (u : List Char) :
    Echoes (followUp out base
        (Utf8.encode (Rfc8259.Document.text ⟨before, .object o, after⟩))) u ↔
      stringOf o "AuthURL".toList = u ∧
        (Utf8.encode (objectOf { base with followup := some u }.members).text).length ≤
          out.length := by
  unfold followUp
  rw [parseRegisterResponse_eq]
  show Echoes (writeRegisterRequest out { base with followup := some (stringOf o _) }) u ↔ _
  rw [echoes_register out rfl]
  constructor
  · rintro ⟨rfl, hroom⟩
    exact ⟨rfl, hroom⟩
  · rintro ⟨rfl, hroom⟩
    exact ⟨rfl, hroom⟩

/-- **The URL comes back unchanged just if the answer writes it without escapes**, and
the follow-up that names it fits. -/
theorem auth_url_echoed_iff (out : List UInt8) (base : Register) (before after : Rfc8259.Blank)
    {o : Rfc8259.Object} {s : Rfc8259.Str} {u : List Char}
    (hs : o.first "AuthURL".toList = some (.string s)) (hu : s.decode = some u) :
    Echoes (followUp out base
        (Utf8.encode (Rfc8259.Document.text ⟨before, .object o, after⟩))) u ↔
      '\\' ∉ s.raw ∧
        (Utf8.encode (objectOf { base with followup := some u }.members).text).length ≤
          out.length := by
  have hraw : stringOf o "AuthURL".toList = s.raw := by
    rw [stringOf, hs]
  rw [echoes_followUp, hraw, Rfc8259.Str.raw_eq_iff hu]

/-- A device with the defaults of the source. -/
def device : Register where
  capabilityVersion := 145
  nodeKey := ⟨.replicate 32 0⟩
  authKey := none
  followup := none
  ephemeral := false
  hostinfo :=
    { hostname := "lando".toList, ipnVersion := "1.98.9".toList, os := "linux".toList,
      osVersion := [], machine := "thumbv8m".toList, routableIps := [], preferredDerp := 0,
      derpLatencyMs := none, workingUdp := false }

/-- A URL with an ampersand, as the control server gives it. -/
def loginUrl : List Char := "https://login.tailscale.com/a/1?x=1&y=2".toList

/-- The URL with its ampersand escaped. -/
def escapedUrl : Rfc8259.Str :=
  Rfc8259.Str.ofChars "https://login.tailscale.com/a/1?x=1".toList ++
    Rfc8259.Piece.unicode ⟨'0', by decide⟩ ⟨'0', by decide⟩ ⟨'2', by decide⟩ ⟨'6', by decide⟩ ::
      Rfc8259.Str.ofChars "y=2".toList

/-- The answer that names it. -/
def escapedAnswer : Rfc8259.Object := objectOf [("AuthURL".toList, .string escapedUrl)]

theorem first_escapedAnswer :
    escapedAnswer.first "AuthURL".toList = some (.string escapedUrl) := by
  have hkey : (Rfc8259.Str.ofChars "AuthURL".toList).raw = "AuthURL".toList := by decide +kernel
  rw [escapedAnswer, objectOf, Rfc8259.Object.first, Rfc8259.Object.toList_compact,
    List.map_singleton, List.find?_cons_of_pos (by exact decide_eq_true hkey)]
  rfl

theorem decode_escapedUrl : escapedUrl.decode = some loginUrl := by decide +kernel

theorem auth_url_echoed_iff_ampersand :
    Echoes (followUp (List.replicate 4096 0) device
        (Utf8.encode (Rfc8259.Document.text ⟨[], .object escapedAnswer, []⟩))) loginUrl ↔
      '\\' ∉ escapedUrl.raw ∧
        (Utf8.encode (objectOf { device with followup := some loginUrl }.members).text).length ≤
          (List.replicate 4096 (0 : UInt8)).length :=
  auth_url_echoed_iff (List.replicate 4096 0) device [] [] first_escapedAnswer decode_escapedUrl

/-- An escaped ampersand comes back as six characters. -/
theorem escaped_url_altered :
    escapedUrl.decode = some loginUrl ∧
    ¬ Echoes (followUp (List.replicate 4096 0) device
        (Utf8.encode (Rfc8259.Document.text ⟨[], .object escapedAnswer, []⟩))) loginUrl := by
  refine ⟨decode_escapedUrl, fun h => ?_⟩
  have hraw := ((echoes_followUp _ _ _ _ _ _).mp h).1
  rw [stringOf, first_escapedAnswer] at hraw
  have hne : escapedUrl.raw ≠ loginUrl := by decide +kernel
  exact hne hraw

end Lando.Control
