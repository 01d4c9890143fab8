/-
Lando/NetmapPeers.lean

The peers of a netmap, entry by entry.

For a valid netmap the three readers on top of each other (a field of the netmap,
the elements of the list, the fields of an element) come to a walk over the syntax
tree: an entry is a peer or it is not,

    Describes v p      the entry v is an object with a key, and p is what it says

and what is no peer leaves its neighbours alone (`Listing`).
-/
import Lando.JsonField
import Lando.Netmap
import Lando.Rfc8259Compact

namespace Lando.Netmap

open Json Rfc8259

/-! ### What an entry says -/

/-- The member is the wire form of the key, as it stands between its quotation marks. -/
def KeyMember (tag : String) (member : Option Rfc8259.Value) (k : Key) : Prop :=
  ∃ s digits, member = some (.string s) ∧ Utf8.encode s.raw = tag.toUTF8.toList ++ digits ∧
    digits.length = 64 ∧ Hex.decode digits = some k.toList

/-- The member is a number, written with digits only. -/
def PlainNumber (member : Option Rfc8259.Value) (n : UInt32) : Prop :=
  ∃ num : Number, member = some (.number num) ∧
    num.minus = false ∧ num.frac = none ∧ num.exp = none ∧ num.int.value = n.toNat

/-- The member is the placeholder address of a region. -/
def Placeholder (member : Option Rfc8259.Value) (n : UInt32) : Prop :=
  ∃ (s : Str) (plus : Bool) (digits : Digits), member = some (.string s) ∧
    s.raw = "127.3.3.40:".toList ++ ((if plus then ['+'] else []) ++ digits.text) ∧
    digits.value = n.toNat

/-- The relay of a peer: a plain number, or else a placeholder, or else none. -/
def HomeDerp (o : Object) (n : UInt32) : Prop :=
  PlainNumber (o.first "HomeDERP".toList) n ∨
    (∀ m, ¬ PlainNumber (o.first "HomeDERP".toList) m) ∧
      (Placeholder (o.first "DERP".toList) n ∨
        (∀ m, ¬ Placeholder (o.first "DERP".toList) m) ∧ n = 0)

/-- The slice of an array or an object. -/
def sliceOf : Option Rfc8259.Value → List UInt8
  | some (.array a) => Utf8.encode a.text
  | some (.object o) => Utf8.encode o.text
  | _ => []

/-- The entry describes the peer. -/
def Describes (v : Rfc8259.Value) (p : PeerInfo) : Prop :=
  ∃ o, v = .object o ∧
    KeyMember "nodekey:" (o.first "Key".toList) p.nodeKey.bytes ∧
    (∀ k, p.discoKey = some k ↔ KeyMember "discokey:" (o.first "DiscoKey".toList) k.bytes) ∧
    HomeDerp o p.homeDerp ∧
    (p.online = true ↔ o.first "Online".toList = some (.bool true)) ∧
    p.allowedIps = sliceOf ((o.first "AllowedIPs".toList).or (o.first "Addresses".toList))

/-- The entry is an object with a well-formed key. -/
def Keyed (v : Rfc8259.Value) : Prop :=
  ∃ o k, v = .object o ∧ KeyMember "nodekey:" (o.first "Key".toList) k

/-- One peer for each entry with a key, in order. -/
inductive Listing : List Rfc8259.Value → List PeerInfo → Prop
  | nil : Listing [] []
  | peer {v : Rfc8259.Value} {p : PeerInfo} {vs : List Rfc8259.Value} {ps : List PeerInfo}
      (describes : Describes v p) (rest : Listing vs ps) : Listing (v :: vs) (p :: ps)
  | skip {v : Rfc8259.Value} {vs : List Rfc8259.Value} {ps : List PeerInfo}
      (unkeyed : ¬ Keyed v) (rest : Listing vs ps) : Listing (v :: vs) ps

/-- The elements of a member, if it is an array. -/
def elementsOf (o : Object) (k : List Char) : List Rfc8259.Value :=
  match o.first k with
  | some (.array a) => a.toList
  | _ => []

/-! ### Numbers -/

/-- The value of digits, read from their bytes. -/
theorem foldl_digits (ds : Digits) :
    (Utf8.encode ds.text).foldl (fun n (d : UInt8) => n * 10 + (d - 0x30).toNat) 0 = ds.value := by
  have htable : ∀ d : Digit, ((48 + .ofNat d.val : UInt8) - 0x30).toNat = d.val := by
    decide +kernel
  rw [Digits.text, encode_digits, List.foldl_map, Digits.value]
  refine congrArg (fun f => ds.list.foldl f 0) ?_
  funext n d
  rw [htable, Nat.mul_comm]

theorem digits_bytes (ds : Digits) :
    (Utf8.encode ds.text) ≠ [] ∧ (Utf8.encode ds.text).all (fun d => 0x30 ≤ d && d ≤ 0x39) = true ∧
      (Utf8.encode ds.text).head? ≠ some 0x2b := by
  have htable : ∀ d : Digit, (0x30 ≤ (48 + .ofNat d.val : UInt8) && (48 + .ofNat d.val : UInt8) ≤ 0x39)
      = true ∧ (48 + .ofNat d.val : UInt8) ≠ 0x2b := by
    decide +kernel
  obtain ⟨list, hlist⟩ := ds
  rw [Digits.text, encode_digits]
  refine ⟨by simpa using hlist, ?_, ?_⟩
  · rw [List.all_map, List.all_eq_true]
    exact fun d _ => (htable d).1
  · cases list with
    | nil => exact absurd rfl hlist
    | cons d ds => exact fun h => (htable d).2 (Option.some.inj h)

/-- Bytes that are all digits. -/
theorem exists_digits {bs : List UInt8} (hne : bs ≠ [])
    (hall : bs.all (fun d => 0x30 ≤ d && d ≤ 0x39) = true) :
    ∃ ds : Digits, bs = Utf8.encode ds.text := by
  have htable : ∀ b : UInt8, (0x30 ≤ b && b ≤ 0x39) = true →
      48 + UInt8.ofNat (Fin.ofNat 10 (b - 0x30).toNat).val = b := by
    apply Hex.forall_byte
    decide +kernel
  refine ⟨⟨bs.map fun b => Fin.ofNat 10 (b - 0x30).toNat, by simpa using hne⟩, ?_⟩
  rw [Digits.text, encode_digits, List.map_map]
  symm
  calc bs.map _ = bs.map id := List.map_congr_left fun b hb =>
        htable b (List.all_eq_true.mp hall b hb)
    _ = bs := List.map_id bs

/-- **What parses as a `u32`**: digits, with a plus in front or without. -/
theorem parseU32_eq_some_iff {bs : List UInt8} {n : UInt32} :
    parseU32 bs = some n ↔ ∃ (plus : Bool) (ds : Digits),
      bs = (if plus then [0x2b] else []) ++ Utf8.encode ds.text ∧ ds.value = n.toNat := by
  -- what stands behind the optional plus
  have hdigits : ∀ (digits : List UInt8), digits = (if bs.head? = some 0x2b then bs.tail else bs) →
      (parseU32 bs = some n ↔ ∃ ds : Digits, digits = Utf8.encode ds.text ∧ ds.value = n.toNat) := by
    rintro digits hbs
    unfold parseU32
    simp only [← hbs]
    by_cases hbad : digits = [] ∨ ¬ digits.all (fun d => 0x30 ≤ d && d ≤ 0x39) = true
    · rw [if_pos hbad]
      constructor
      · intro h
        cases h
      · rintro ⟨ds, rfl, -⟩
        obtain ⟨hne, hall, -⟩ := digits_bytes ds
        exact absurd hbad (not_or.mpr ⟨hne, not_not.mpr hall⟩)
    · obtain ⟨hne, hall⟩ := not_or.mp hbad
      obtain ⟨ds, rfl⟩ := exists_digits hne (not_not.mp hall)
      rw [if_neg hbad, foldl_digits]
      constructor
      · intro h
        split_ifs at h with hlt
        obtain rfl := Option.some.inj h
        exact ⟨ds, rfl, (UInt32.toNat_ofNat_of_lt' hlt).symm⟩
      · rintro ⟨ds', hds, hn⟩
        have hvalue : ds.value = n.toNat := by
          rw [← hn, ← foldl_digits, hds, foldl_digits]
        rw [hvalue, if_pos n.toNat_lt, UInt32.ofNat_toNat]
  by_cases hplus : bs.head? = some 0x2b
  · obtain ⟨bs', rfl⟩ : ∃ bs', bs = 0x2b :: bs' := ⟨_, List.eq_cons_of_mem_head? hplus⟩
    rw [hdigits bs' (if_pos hplus).symm]
    constructor
    · rintro ⟨ds, rfl, hn⟩
      exact ⟨true, ds, rfl, hn⟩
    · rintro ⟨plus, ds, hbs, hn⟩
      cases plus with
      | true => exact ⟨ds, List.tail_eq_of_cons_eq hbs, hn⟩
      -- a text of digits does not begin with a plus
      | false =>
        rw [if_neg Bool.false_ne_true, List.nil_append] at hbs
        exact absurd (hbs ▸ hplus) (digits_bytes ds).2.2
  · rw [hdigits bs (if_neg hplus).symm]
    constructor
    · rintro ⟨ds, rfl, hn⟩
      exact ⟨false, ds, rfl, hn⟩
    · rintro ⟨plus, ds, rfl, hn⟩
      cases plus with
      | true => exact absurd rfl hplus
      | false => exact ⟨ds, rfl, hn⟩

/-- A number of digits only has no sign, no fraction and no exponent. -/
theorem plain_of_digits {num : Number} (h : ∀ c ∈ num.text, ∃ d : Digit, d.char = c) :
    num.minus = false ∧ num.frac = none ∧ num.exp = none := by
  have hnone : ∀ c ∈ ['-', '.', 'e', 'E'], c ∉ num.text := by
    have htable : ∀ d : Digit, d.char ∉ ['-', '.', 'e', 'E'] := by decide +kernel
    intro c hc hmem
    obtain ⟨d, rfl⟩ := h c hmem
    exact htable d hc
  have hexp : ∀ c, c ∈ expText num.exp → c ∈ num.text := fun c hc =>
    List.mem_append_right _ (List.mem_append_right _ (List.mem_append_right _ hc))
  have hfrac : ∀ c, c ∈ fracText num.frac → c ∈ num.text := fun c hc =>
    List.mem_append_right _ (List.mem_append_right _ (List.mem_append_left _ hc))
  refine ⟨?_, ?_, ?_⟩
  · rcases hminus : num.minus with - | -
    · rfl
    · refine absurd ?_ (hnone '-' (by decide))
      rw [Number.text, hminus]
      exact List.mem_cons_self
  · rcases hsome : num.frac with - | fs
    · rfl
    · rw [hsome] at hfrac
      exact absurd (hfrac '.' List.mem_cons_self) (hnone '.' (by decide))
  · rcases hsome : num.exp with - | ⟨upper, sign, digits⟩
    · rfl
    · rw [hsome] at hexp
      cases upper with
      | true => exact absurd (hexp 'E' List.mem_cons_self) (hnone 'E' (by decide))
      | false => exact absurd (hexp 'e' List.mem_cons_self) (hnone 'e' (by decide))

/-- A number of the netmap parses just if it is written with digits only. -/
theorem parseU32_number (num : Number) (n : UInt32) :
    parseU32 (Utf8.encode num.text) = some n ↔
      num.minus = false ∧ num.frac = none ∧ num.exp = none ∧ num.int.value = n.toNat := by
  have hint : num.minus = false → num.frac = none → num.exp = none → num.text = num.int.text := by
    intro hminus hfrac hexp
    rw [Number.text, hminus, hfrac, hexp]
    exact List.append_nil _
  rw [parseU32_eq_some_iff]
  constructor
  · rintro ⟨plus, ds, hbs, hn⟩
    have htext : num.text = (if plus then ['+'] else []) ++ ds.text := by
      apply Utf8.encode_inj
      rw [hbs, Utf8.encode_append]
      cases plus
      · rfl
      · rfl
    cases plus with
    | true =>
      obtain ⟨c, hc, cs, hcs, -⟩ := num.head_text []
      rw [List.append_nil, htext] at hcs
      have hplus : c = '+' := (List.cons.inj hcs).1.symm
      rw [hplus] at hc
      exact absurd hc (by decide +kernel)
    | false =>
      have hdigit : ∀ c ∈ num.text, ∃ d : Digit, d.char = c := by
        intro c hc
        rw [htext] at hc
        obtain ⟨d, -, hd⟩ := List.mem_map.mp hc
        exact ⟨d, hd⟩
      obtain ⟨hminus, hfrac, hexp⟩ := plain_of_digits hdigit
      have hsame : num.int.text = ds.text := (hint hminus hfrac hexp).symm.trans htext
      refine ⟨hminus, hfrac, hexp, ?_⟩
      rw [← hn, ← foldl_digits, hsame, foldl_digits]
  · rintro ⟨hminus, hfrac, hexp, hn⟩
    refine ⟨false, num.int, ?_, hn⟩
    rw [hint hminus hfrac hexp]
    rfl

theorem derpRegion_eq_some_iff (s : Str) (n : UInt32) :
    derpRegion (Utf8.encode s.raw) = some n ↔ Placeholder (some (.string s)) n := by
  have hstart : ∀ cs : List Char,
      "127.3.3.40:".toUTF8.toList ++ Utf8.encode cs = Utf8.encode ("127.3.3.40:".toList ++ cs) := by
    intro cs
    rw [Utf8.toList_toUTF8, Utf8.encode_append]
  have hplus : ∀ (plus : Bool) (ds : Digits), (if plus then [0x2b] else []) ++ Utf8.encode ds.text =
      Utf8.encode ((if plus then ['+'] else []) ++ ds.text) := by
    intro plus ds
    cases plus
    · rfl
    · rfl
  unfold derpRegion
  rw [Option.bind_eq_some_iff]
  constructor
  · rintro ⟨rest, hrest, hn⟩
    obtain ⟨plus, ds, rfl, hvalue⟩ := parseU32_eq_some_iff.mp hn
    rw [hplus] at hrest
    have hraw := List.isPrefixOf?_eq_some_iff_append_eq.mp hrest
    rw [hstart] at hraw
    exact ⟨s, plus, ds, rfl, (Utf8.encode_inj hraw).symm, hvalue⟩
  · rintro ⟨s', plus, ds, hs, hraw, hvalue⟩
    obtain rfl := Rfc8259.Value.string.inj (Option.some.inj hs)
    refine ⟨_, ?_, parseU32_eq_some_iff.mpr ⟨plus, ds, rfl, hvalue⟩⟩
    rw [hraw, ← hstart, hplus]
    exact List.isPrefixOf?_eq_some_iff_append_eq.mpr rfl

/-! ### The fields of an entry -/

theorem get_object (o : Object) (k : String) :
    get (Utf8.encode o.text) k = (o.first k.toList).map located := by
  have hfield := field_first [] [] o k.toList
  have htext : Document.text ⟨[], .object o, []⟩ = o.text := List.append_nil _
  rw [htext, ← Utf8.toList_toUTF8] at hfield
  rw [get, hfield]

theorem get_array (a : Array) (k : String) : get (Utf8.encode a.text) k = none := by
  rw [get, field_array]

section Member

variable (member : Option Rfc8259.Value)

theorem asStr_located (bs : List UInt8) : (member.map located).bind Value.asStr = some bs ↔
    ∃ s, member = some (.string s) ∧ Utf8.encode s.raw = bs := by
  rcases member with - | v
  · simp
  · cases v with
    | string s => simp [located, Value.asStr]
    | _ => simp [located, Value.asStr]

theorem key_located (tag : String) (k : Key) :
    (((member.map located).bind Value.asStr).bind fun s =>
      (parseKey tag.toUTF8.toList s).toOption) = some k ↔ KeyMember tag member k := by
  have hparse : ∀ s, (parseKey tag.toUTF8.toList s).toOption = some k ↔
      parseKey tag.toUTF8.toList s = .ok k := by
    intro s
    cases parseKey tag.toUTF8.toList s
    · simp [Except.toOption]
    · simp [Except.toOption]
  rw [Option.bind_eq_some_iff]
  constructor
  · rintro ⟨bs, hbs, hk⟩
    obtain ⟨s, hs, rfl⟩ := (asStr_located member bs).mp hbs
    obtain ⟨digits, hdigits, hlen, hdecode⟩ := parseKey_eq_ok_iff.mp ((hparse _).mp hk)
    exact ⟨s, digits, hs, hdigits, hlen, hdecode⟩
  · rintro ⟨s, digits, hs, hdigits, hlen, hdecode⟩
    refine ⟨Utf8.encode s.raw, (asStr_located member _).mpr ⟨s, hs, rfl⟩, (hparse _).mpr ?_⟩
    exact parseKey_eq_ok_iff.mpr ⟨digits, hdigits, hlen, hdecode⟩

/-- A key in its wrapper. -/
theorem wrapped_located {α : Type} (tag : String) {mk : Key → α} {bytes : α → Key}
    (hmk : ∀ k a, mk k = a ↔ k = bytes a) (a : α) :
    (((member.map located).bind Value.asStr).bind fun s =>
      (mk <$> parseKey tag.toUTF8.toList s).toOption) = some a ↔ KeyMember tag member (bytes a) := by
  have hmap : ∀ s, (mk <$> parseKey tag.toUTF8.toList s).toOption =
      ((parseKey tag.toUTF8.toList s).toOption).map mk := by
    intro s
    cases parseKey tag.toUTF8.toList s
    · rfl
    · rfl
  have hout : ∀ x : Option (List UInt8),
      (x.bind fun s => ((parseKey tag.toUTF8.toList s).toOption).map mk) =
        (x.bind fun s => (parseKey tag.toUTF8.toList s).toOption).map mk := by
    intro x
    cases x
    · rfl
    · rfl
  simp only [hmap]
  rw [hout, Option.map_eq_some_iff, ← key_located]
  constructor
  · rintro ⟨k, hk, ha⟩
    rwa [← (hmk k a).mp ha]
  · exact fun hk => ⟨bytes a, hk, (hmk _ a).mpr rfl⟩

theorem asU32_located (n : UInt32) :
    (member.map located).bind asU32 = some n ↔ PlainNumber member n := by
  rcases member with - | v
  · simp [PlainNumber]
  · cases v with
    | number num =>
      show parseU32 (Utf8.encode num.text) = some n ↔ _
      rw [parseU32_number]
      constructor
      · exact fun h => ⟨num, rfl, h⟩
      · rintro ⟨num', hnum, h⟩
        obtain rfl := Rfc8259.Value.number.inj (Option.some.inj hnum)
        exact h
    | _ => simp [located, asU32, PlainNumber]

theorem derpRegion_located (n : UInt32) :
    ((member.map located).bind Value.asStr).bind derpRegion = some n ↔ Placeholder member n := by
  rw [Option.bind_eq_some_iff]
  constructor
  · rintro ⟨bs, hbs, hn⟩
    obtain ⟨s, rfl, rfl⟩ := (asStr_located member bs).mp hbs
    exact (derpRegion_eq_some_iff s n).mp hn
  · rintro ⟨s, plus, digits, rfl, hraw, hvalue⟩
    refine ⟨Utf8.encode s.raw, rfl, (derpRegion_eq_some_iff s n).mpr ?_⟩
    exact ⟨s, plus, digits, rfl, hraw, hvalue⟩

theorem asBool_located :
    ((member.map located).bind Value.asBool).getD false = true ↔ member = some (.bool true) := by
  rcases member with - | v
  · simp
  · cases v with
    | bool b => simp [located, Value.asBool]
    | _ => simp [located, Value.asBool]

theorem asRaw_located : ((member.map located).bind asRaw).getD [] = sliceOf member := by
  rcases member with - | v
  · rfl
  · cases v with
    | _ => rfl

end Member

theorem homeDerp_located (o : Object) (n : UInt32) :
    ((((o.first "HomeDERP".toList).map located).bind asU32).or
      ((((o.first "DERP".toList).map located).bind Value.asStr).bind derpRegion)).getD 0 = n ↔
      HomeDerp o n := by
  unfold HomeDerp
  simp only [← asU32_located, ← derpRegion_located]
  rcases ((o.first "HomeDERP".toList).map located).bind asU32 with - | m
  · rcases (((o.first "DERP".toList).map located).bind Value.asStr).bind derpRegion with - | m
    · simp [eq_comm]
    · simp
  · simp

/-! ### Entries -/

/-- An entry as the option chain that it is. -/
theorem peer_raw (node : List UInt8) :
    peer (.raw node) =
      (((get node "Key").bind Value.asStr).bind fun s =>
        (NodePublic.mk <$> parseKey "nodekey:".toUTF8.toList s).toOption).map fun nodeKey => {
        nodeKey := nodeKey
        discoKey := ((get node "DiscoKey").bind Value.asStr).bind fun s =>
          (DiscoPublic.mk <$> parseKey "discokey:".toUTF8.toList s).toOption
        homeDerp := (((get node "HomeDERP").bind asU32).or
          (((get node "DERP").bind Value.asStr).bind derpRegion)).getD 0
        online := ((get node "Online").bind Value.asBool).getD false
        allowedIps := (((get node "AllowedIPs").or (get node "Addresses")).bind asRaw).getD [] } := by
  unfold peer
  simp only [asRaw, Option.bind_eq_bind, Option.bind_some, Option.pure_def, Option.map_eq_bind,
    Option.bind_assoc]
  rfl

theorem node_eq (k : Key) (a : NodePublic) : NodePublic.mk k = a ↔ k = a.bytes := by
  constructor
  · rintro rfl
    rfl
  · rintro rfl
    rfl

theorem disco_eq (k : Key) (a : DiscoPublic) : DiscoPublic.mk k = a ↔ k = a.bytes := by
  constructor
  · rintro rfl
    rfl
  · rintro rfl
    rfl

/-- **An entry is read as the peer that it describes.** -/
theorem peer_eq_some_iff (v : Rfc8259.Value) (p : PeerInfo) :
    peer (located v) = some p ↔ Describes v p := by
  have hnone : (∀ o, v ≠ .object o) → peer (located v) = none := by
    intro hv
    cases v with
    | object o => exact absurd rfl (hv o)
    | array a =>
      show peer (.raw (Utf8.encode a.text)) = none
      rw [peer_raw, get_array a "Key"]
      rfl
    | _ => rfl
  by_cases hobject : ∃ o, v = .object o
  · obtain ⟨o, rfl⟩ := hobject
    show peer (.raw (Utf8.encode o.text)) = some p ↔ _
    rw [peer_raw, Option.map_eq_some_iff]
    simp only [get_object]
    -- field by field, in the order of the record
    constructor
    · rintro ⟨k, hk, rfl⟩
      refine ⟨o, rfl, (wrapped_located _ _ node_eq k).mp hk, fun d => ?_, ?_, ?_, ?_⟩
      · exact wrapped_located _ _ disco_eq d
      · exact (homeDerp_located o _).mp rfl
      · exact asBool_located _
      · rw [← asRaw_located, Option.map_or]
    · rintro ⟨o', ho, hkey, hdisco, hderp, honline, hips⟩
      obtain rfl := Rfc8259.Value.object.inj ho
      refine ⟨p.nodeKey, (wrapped_located _ _ node_eq p.nodeKey).mpr hkey, ?_⟩
      obtain ⟨nodeKey, discoKey, homeDerp, online, allowedIps⟩ := p
      rw [PeerInfo.mk.injEq]
      refine ⟨rfl, ?_, (homeDerp_located o _).mpr hderp, ?_, ?_⟩
      · apply Option.ext
        intro d
        rw [wrapped_located _ _ disco_eq d, hdisco d]
      · rw [Bool.eq_iff_iff, asBool_located]
        exact honline.symm
      · rw [← Option.map_or, asRaw_located]
        exact hips.symm
  · rw [hnone fun o hv => hobject ⟨o, hv⟩]
    constructor
    · intro h
      cases h
    · rintro ⟨o, hv, -⟩
      exact absurd ⟨o, hv⟩ hobject

/-- What has a key is a peer. -/
theorem exists_peer {v : Rfc8259.Value} (h : Keyed v) : ∃ p, peer (located v) = some p := by
  obtain ⟨o, k, rfl, hkey⟩ := h
  have hk := (wrapped_located _ _ node_eq ⟨k⟩).mpr hkey
  rw [← get_object] at hk
  show ∃ p, peer (.raw (Utf8.encode o.text)) = some p
  rw [peer_raw, hk]
  exact ⟨_, rfl⟩

/-- A list is read entry by entry. -/
theorem listing (vs : List Rfc8259.Value) : Listing vs ((vs.map located).filterMap peer) := by
  induction vs with
  | nil => exact .nil
  | cons v vs ih =>
    rw [List.map_cons]
    cases hp : peer (located v) with
    | some p =>
      rw [List.filterMap_cons_some hp]
      exact .peer ((peer_eq_some_iff v p).mp hp) ih
    | none =>
      rw [List.filterMap_cons_none hp]
      refine .skip (fun hkeyed => ?_) ih
      obtain ⟨p, hsome⟩ := exists_peer hkeyed
      rw [hp] at hsome
      cases hsome

theorem elements_list (before after : Blank) (o : Object) (k : String) :
    elements (list (Utf8.encode (Document.text ⟨before, .object o, after⟩)) k) =
      (elementsOf o k.toList).map located := by
  have hget : get (Utf8.encode (Document.text ⟨before, .object o, after⟩)) k =
      (o.first k.toList).map located := by
    rw [get, Utf8.toList_toUTF8, field_first]
  have hnil : elements [] = [] := elements_eq_nil (by decide)
  rw [list, hget, asRaw_located, elementsOf]
  rcases o.first k.toList with - | v
  · exact hnil
  · cases v with
    | array a => exact elements_array a
    | object o => exact elements_object o
    | _ => exact hnil

/-- **The peers of a netmap**: one for each entry with a key, first of `Peers` and then
of `PeersChanged`, each as its own entry describes it. -/
theorem peers_listed (before after : Blank) (o : Object) :
    Listing (elementsOf o "Peers".toList ++ elementsOf o "PeersChanged".toList)
      (peers (Utf8.encode (Document.text ⟨before, .object o, after⟩))) := by
  rw [peers, elements_list, elements_list, ← List.map_append]
  exact listing _

/-- Twenty-eight, with an exponent. -/
def exponentNumber : Number where
  minus := false
  int := ⟨[.ofNat 2], List.cons_ne_nil _ _⟩
  proper := fun _ => rfl
  frac := some ⟨[.ofNat 8], List.cons_ne_nil _ _⟩
  exp := some ⟨false, none, ⟨[.ofNat 1], List.cons_ne_nil _ _⟩⟩

/-- A peer with that relay, and with an object for the networks. -/
def oddPeer : Object := .compact [
  (.ofChars "Key".toList, .string (.ofChars ("nodekey:".toList ++ List.replicate 64 '0'))),
  (.ofChars "HomeDERP".toList, .number exponentNumber),
  (.ofChars "AllowedIPs".toList, .object (.empty []))]

/-- A netmap that JSON allows and Go would not write. -/
def oddNetmap : Object :=
  .compact [(.ofChars "Peers".toList, .array (.compact [.object oddPeer]))]

/-- A number of a `u32` that is not written with digits only does not count, and an
object counts as a list of networks. -/
theorem odd_peer_read :
    oddPeer.first "HomeDERP".toList = some (.number exponentNumber) ∧ exponentNumber.value = 28 ∧
    oddPeer.first "AllowedIPs".toList = some (.object (.empty [])) ∧
    ∃ p, peers (Utf8.encode (Document.text ⟨[], .object oddNetmap, []⟩)) = [p] ∧
      p.homeDerp ≠ 28 ∧ p.allowedIps ≠ [] := by
  refine ⟨rfl, by decide +kernel, rfl, {
    nodeKey := ⟨.replicate 32 0⟩
    discoKey := none
    homeDerp := 0
    online := false
    allowedIps := "{}".toUTF8.toList }, ?_, ?_, ?_⟩
  · decide +kernel
  · decide
  · decide +kernel

end Lando.Netmap
