/-
Lando/JsonWriter.lean

The JSON builder (`json.rs`, writing).

A `Writer` fills a buffer of the caller from the front, and remembers one thing
about what it has written: whether the next value or key needs a comma.  That is
enough at any depth, because a closing bracket is always followed by a comma or
by another closing bracket.

Every call is one write (`put`): a text that depends on the comma only, a new
value of the comma, and an error if the text does not fit.  Writes compose,

    put a f, then put b g   =   put (a ++ b) g

the errors included, so what a tree comes to is found by appending texts.
-/
import Lando.Decimal
import Lando.Hex
import Lando.Json
import Lando.Rfc8259Compact
import Lando.Rfc8259Parser

namespace Lando.Json

open Bytes

/-! ### The writer -/

/-- `Writer`: a buffer and the length of what is written. -/
structure Writer where
  buf : List UInt8
  pos : ℕ
  /-- The next value or key must be preceded by a comma. -/
  needsComma : Bool
  within : pos ≤ buf.length

namespace Writer

theorem start_within (buf : List UInt8) : 0 ≤ buf.length := Nat.zero_le _

/-- `Writer::new`: nothing is written yet. -/
def new (buf : List UInt8) : Writer := ⟨buf, 0, false, start_within buf⟩

/-- `len`: how much is written. -/
def len (w : Writer) : ℕ := w.pos

/-- `as_bytes`: what is written. -/
def asBytes (w : Writer) : List UInt8 := w.buf.take w.pos

/-- `raw`: all of the bytes, or an error. -/
def raw (w : Writer) (bytes : List UInt8) : Except JsonError Writer :=
  if h : w.pos + bytes.length > w.buf.length then .error .shortBuffer
  else .ok {
    buf := blit w.buf w.pos bytes
    pos := w.pos + bytes.length
    needsComma := w.needsComma
    within := by
      rw [length_blit (Nat.not_lt.mp h)]
      exact Nat.not_lt.mp h }

/-- `byte`: one of them. -/
def byte (w : Writer) (b : UInt8) : Except JsonError Writer := w.raw [b]

/-- `separate`: the comma, where one is due. -/
def separate (w : Writer) : Except JsonError Writer :=
  if w.needsComma then w.byte comma else .ok w

/-- `self.needs_comma = b`. -/
def withComma (w : Writer) (b : Bool) : Writer := { w with needsComma := b }

/-- `begin_object`; no comma is due in front of the first member. -/
def beginObject (w : Writer) : Except JsonError Writer := do
  let w ← w.separate
  (w.withComma false).byte openBrace

/-- `end_object`; what follows needs a comma. -/
def endObject (w : Writer) : Except JsonError Writer := (w.withComma true).byte closeBrace

/-- `begin_array`; no comma is due in front of the first element. -/
def beginArray (w : Writer) : Except JsonError Writer := do
  let w ← w.separate
  (w.withComma false).byte openBracket

/-- `end_array`; what follows needs a comma. -/
def endArray (w : Writer) : Except JsonError Writer := (w.withComma true).byte closeBracket

/-- A byte of a string, escaped. -/
def escapeByte (b : UInt8) : List UInt8 :=
  if b = 0x22 then [0x5c, 0x22]
  else if b = 0x5c then [0x5c, 0x5c]
  else if b = 0x0a then [0x5c, 0x6e]
  else if b = 0x0d then [0x5c, 0x72]
  else if b = 0x09 then [0x5c, 0x74]
  else if b ≤ 0x1f then [0x5c, 0x75, 0x30, 0x30, Hex.digit (b >>> 4), Hex.digit (b &&& 0xf)]
  else [b]

/-- Emits a quoted, escaped JSON string. -/
def writeString (w : Writer) (s : List Char) : Except JsonError Writer := do
  let w ← w.byte quote
  let w ← (Utf8.encode s).foldlM (fun w b => w.raw (escapeByte b)) w
  w.byte quote

/-- Writes an object key.  The following value call supplies the value. -/
def key (w : Writer) (k : List Char) : Except JsonError Writer := do
  let w ← w.separate
  let w ← w.writeString k
  (w.withComma false).byte colon

/-- `str_value`: a text in quotation marks, escaped. -/
def strValue (w : Writer) (v : List Char) : Except JsonError Writer := do
  let w ← w.separate
  let w ← w.writeString v
  return w.withComma true

/-- Writes bytes verbatim as a value. -/
def rawValue (w : Writer) (v : List UInt8) : Except JsonError Writer := do
  let w ← w.separate
  let w ← w.raw v
  return w.withComma true

/-- `u64_value`: a number in decimal. -/
def u64Value (w : Writer) (v : UInt64) : Except JsonError Writer := do
  let w ← w.separate
  let w ← w.raw (Decimal.render 20 v.toNat)
  return w.withComma true

/-- `bool_value`: one of the two names. -/
def boolValue (w : Writer) (v : Bool) : Except JsonError Writer := do
  let w ← w.separate
  let w ← w.raw (if v then "true".toUTF8.toList else "false".toUTF8.toList)
  return w.withComma true

/-- `field_str`: a member whose value is a text. -/
def fieldStr (w : Writer) (k v : List Char) : Except JsonError Writer := do
  let w ← w.key k
  w.strValue v

/-- `field_u64`: a member whose value is a number. -/
def fieldU64 (w : Writer) (k : List Char) (v : UInt64) : Except JsonError Writer := do
  let w ← w.key k
  w.u64Value v

/-- `field_bool`: a member whose value is one of the two names. -/
def fieldBool (w : Writer) (k : List Char) (v : Bool) : Except JsonError Writer := do
  let w ← w.key k
  w.boolValue v

/-! ### Every call is one write -/

/-- Appends bytes, if they fit. -/
def put (w : Writer) (bytes : List UInt8) (needsComma : Bool) : Except JsonError Writer :=
  (w.raw bytes).map fun w => w.withComma needsComma

theorem ext {w w' : Writer} (hbuf : w.buf = w'.buf) (hpos : w.pos = w'.pos)
    (hcomma : w.needsComma = w'.needsComma) : w = w' := by
  cases w
  cases w'
  simp only at hbuf hpos hcomma
  subst hbuf hpos hcomma
  rfl

/-- A write that fits. -/
theorem put_of_le (w : Writer) (bytes : List UInt8) (b : Bool)
    (h : w.pos + bytes.length ≤ w.buf.length) :
    ∃ w', w.put bytes b = .ok w' ∧ w'.buf = blit w.buf w.pos bytes ∧
      w'.pos = w.pos + bytes.length ∧ w'.needsComma = b := by
  unfold put raw
  rw [dif_neg (Nat.not_lt.mpr h)]
  exact ⟨_, rfl, rfl, rfl, rfl⟩

theorem put_of_gt {w : Writer} {bytes : List UInt8} (b : Bool)
    (h : w.buf.length < w.pos + bytes.length) : w.put bytes b = .error .shortBuffer := by
  unfold put raw
  rw [dif_pos h]
  rfl

/-- What a write leaves in front of the position. -/
theorem asBytes_put {w w' : Writer} {bytes : List UInt8} {b : Bool} (h : w.put bytes b = .ok w') :
    w'.asBytes = w.asBytes ++ bytes := by
  rcases Nat.lt_or_ge w.buf.length (w.pos + bytes.length) with hroom | hroom
  · rw [put_of_gt b hroom] at h
    cases h
  obtain ⟨w₁, hw₁, hbuf, hpos, -⟩ := put_of_le w bytes b hroom
  obtain rfl := Except.ok.inj (h.symm.trans hw₁)
  rw [asBytes, hbuf, take_blit hpos (by omega), asBytes]

/-- **Writes compose**, and so do their errors. -/
theorem put_put (w : Writer) (x y : List UInt8) (b c : Bool) :
    (w.put x b >>= fun w => w.put y c) = w.put (x ++ y) c := by
  have hlen : (x ++ y).length = x.length + y.length := List.length_append
  rcases Nat.lt_or_ge w.buf.length (w.pos + x.length) with hx | hx
  · rw [put_of_gt b hx, put_of_gt c (by omega)]
    rfl
  obtain ⟨w₁, hw₁, hbuf₁, hpos₁, -⟩ := put_of_le w x b hx
  have hsize : w₁.buf.length = w.buf.length := by
    rw [hbuf₁, length_blit hx]
  rw [hw₁]
  show w₁.put y c = w.put (x ++ y) c
  rcases Nat.lt_or_ge w.buf.length (w.pos + (x ++ y).length) with hxy | hxy
  · rw [put_of_gt c hxy, put_of_gt c (by omega)]
  obtain ⟨w₂, hw₂, hbuf₂, hpos₂, hcomma₂⟩ := put_of_le w₁ y c (by omega)
  obtain ⟨w₃, hw₃, hbuf₃, hpos₃, hcomma₃⟩ := put_of_le w (x ++ y) c hxy
  rw [hw₂, hw₃]
  have hw : w₂ = w₃ := by
    apply ext
    · rw [hbuf₂, hbuf₁, hpos₁, hbuf₃, blit_blit_behind hx]
    · omega
    · rw [hcomma₂, hcomma₃]
  rw [hw]

/-- A write behind a write. -/
theorem put_bind {w : Writer} {x y : List UInt8} {b c : Bool} {g : Writer → Except JsonError Writer}
    (hg : ∀ w : Writer, w.needsComma = b → g w = w.put y c) :
    (w.put x b >>= g) = w.put (x ++ y) c := by
  rw [← put_put w x y b c]
  rcases Nat.lt_or_ge w.buf.length (w.pos + x.length) with hx | hx
  · rw [put_of_gt b hx]
    rfl
  · obtain ⟨w₁, hw₁, -, -, hcomma⟩ := put_of_le w x b hx
    rw [hw₁]
    exact hg w₁ hcomma

theorem put_nil (w : Writer) : w.put [] w.needsComma = .ok w := by
  obtain ⟨w', hw', hbuf, hpos, hcomma⟩ := put_of_le w [] w.needsComma w.within
  rw [hw']
  refine congrArg _ (ext ?_ hpos hcomma)
  rw [hbuf, blit, List.append_nil]
  exact List.take_append_drop _ _

/-- A write, and then another value of the comma. -/
theorem put_withComma (w : Writer) (x : List UInt8) (b c : Bool) :
    (w.put x b >>= fun w => .ok (w.withComma c)) = w.put x c := by
  rcases Nat.lt_or_ge w.buf.length (w.pos + x.length) with hx | hx
  · rw [put_of_gt b hx, put_of_gt c hx]
    rfl
  · obtain ⟨w₁, hw₁, hbuf₁, hpos₁, -⟩ := put_of_le w x b hx
    obtain ⟨w₂, hw₂, hbuf₂, hpos₂, hcomma₂⟩ := put_of_le w x c hx
    rw [hw₁, hw₂]
    show Except.ok (w₁.withComma c) = .ok w₂
    exact congrArg Except.ok (ext (hbuf₁.trans hbuf₂.symm) (hpos₁.trans hpos₂.symm) hcomma₂.symm)

theorem withComma_raw (w : Writer) (b : Bool) (bytes : List UInt8) :
    (w.withComma b).raw bytes = w.put bytes b := by
  have hsame : (w.withComma b).pos = w.pos ∧ (w.withComma b).buf = w.buf := ⟨rfl, rfl⟩
  unfold put raw
  by_cases h : w.pos + bytes.length > w.buf.length
  · rw [dif_pos (by rw [hsame.1, hsame.2]; exact h), dif_pos h]
    rfl
  · rw [dif_neg (by rw [hsame.1, hsame.2]; exact h), dif_neg h]
    rfl

theorem raw_eq (w : Writer) (bytes : List UInt8) : w.raw bytes = w.put bytes w.needsComma :=
  withComma_raw w w.needsComma bytes

/-- The comma in front of the next value or key. -/
def separator (w : Writer) : List UInt8 := if w.needsComma then [comma] else []

theorem separate_eq (w : Writer) : w.separate = w.put w.separator w.needsComma := by
  unfold separate separator
  by_cases h : w.needsComma = true
  · rw [if_pos h, if_pos h]
    exact raw_eq w [comma]
  · rw [if_neg h, if_neg h]
    exact (put_nil w).symm

theorem beginObject_eq (w : Writer) : w.beginObject = w.put (w.separator ++ [openBrace]) false := by
  rw [beginObject, separate_eq]
  exact put_bind fun w _ => withComma_raw w false [openBrace]

theorem endObject_eq (w : Writer) : w.endObject = w.put [closeBrace] true :=
  withComma_raw w true [closeBrace]

theorem beginArray_eq (w : Writer) :
    w.beginArray = w.put (w.separator ++ [openBracket]) false := by
  rw [beginArray, separate_eq]
  exact put_bind fun w _ => withComma_raw w false [openBracket]

theorem endArray_eq (w : Writer) : w.endArray = w.put [closeBracket] true :=
  withComma_raw w true [closeBracket]

/-! ### Strings -/

/-- The bytes of a character are escaped to its piece of a string. -/
theorem flatMap_escapeByte (c : Char) :
    (String.utf8EncodeChar c).flatMap escapeByte = Utf8.encode (Rfc8259.Piece.ofChar c).text := by
  rcases Nat.lt_or_ge c.toNat 0x80 with hlt | hge
  · have htable : ∀ n : Fin 128, [UInt8.ofNat n.val].flatMap escapeByte =
        Utf8.encode (Rfc8259.Piece.ofChar (Char.ofNat n.val)).text := by decide +kernel
    have hc := htable ⟨c.toNat, hlt⟩
    rw [Char.ofNat_toNat] at hc
    rw [Utf8.utf8EncodeChar_of_ascii hlt]
    exact hc
  · have hbytes : ∀ b ∈ String.utf8EncodeChar c, escapeByte b = [b] := by
      intro b hb
      have hle := Utf8.le_of_mem_utf8EncodeChar hge hb
      have hne : ∀ {d : UInt8}, d < 0x80 → b ≠ d := fun hd hbd =>
        absurd (hbd ▸ hle) (UInt8.not_le.mpr hd)
      have hhigh : ¬ b ≤ 0x1f := fun h => absurd (UInt8.le_trans hle h) (by decide)
      unfold escapeByte
      rw [if_neg (hne (by decide)), if_neg (hne (by decide)), if_neg (hne (by decide)),
        if_neg (hne (by decide)), if_neg (hne (by decide)), if_neg hhigh]
    have hpiece : (Rfc8259.Piece.ofChar c).text = [c] := by
      have hne : ∀ {d : Char}, d.toNat < 0x80 → c ≠ d := fun hd hcd =>
        absurd (hcd ▸ hge) (Nat.not_le.mpr hd)
      unfold Rfc8259.Piece.ofChar
      rw [dif_neg (hne (by decide)), dif_neg (hne (by decide)), if_neg (hne (by decide)),
        if_neg (hne (by decide)), if_neg (hne (by decide)), dif_pos (show 0x20 ≤ c.toNat by omega)]
      rfl
    rw [hpiece, List.flatMap_congr hbytes, List.flatMap_singleton']
    exact (List.append_nil _).symm

theorem encode_ofChars (s : List Char) :
    (Utf8.encode s).flatMap escapeByte = Utf8.encode (Rfc8259.Str.ofChars s).raw := by
  induction s with
  | nil => rfl
  | cons c s ih =>
    have hraw : (Rfc8259.Str.ofChars (c :: s)).raw =
        (Rfc8259.Piece.ofChar c).text ++ (Rfc8259.Str.ofChars s).raw := rfl
    rw [Utf8.encode_cons, List.flatMap_append, flatMap_escapeByte, ih, hraw, Utf8.encode_append]

theorem foldlM_raw (w : Writer) (bs : List UInt8) :
    bs.foldlM (fun w b => w.raw (escapeByte b)) w =
      w.put (bs.flatMap escapeByte) w.needsComma := by
  induction bs generalizing w with
  | nil => exact (put_nil w).symm
  | cons b bs ih =>
    rw [List.foldlM_cons, raw_eq, List.flatMap_cons]
    apply put_bind
    intro w' hw'
    rw [ih, hw']

/-- **A string is written as its escaped form.** -/
theorem writeString_eq (w : Writer) (s : List Char) :
    w.writeString s = w.put (Utf8.encode (Rfc8259.Str.ofChars s).text) w.needsComma := by
  have htext : Utf8.encode (Rfc8259.Str.ofChars s).text =
      [quote] ++ ((Utf8.encode s).flatMap escapeByte ++ [quote]) := by
    rw [Rfc8259.Str.text, Utf8.encode_cons_ascii (by decide), Utf8.encode_append, encode_ofChars]
    rfl
  rw [writeString, byte, raw_eq, htext]
  apply put_bind
  intro w₁ hw₁
  rw [foldlM_raw, hw₁]
  apply put_bind
  intro w₂ hw₂
  rw [byte, raw_eq, hw₂]

theorem key_eq (w : Writer) (k : List Char) :
    w.key k =
      w.put (w.separator ++ (Utf8.encode (Rfc8259.Str.ofChars k).text ++ [colon])) false := by
  rw [key, separate_eq]
  apply put_bind
  intro w₁ hw₁
  rw [writeString_eq]
  exact put_bind fun w₂ _ => withComma_raw w₂ false [colon]

/-! ### Values -/

/-- A value behind its separator. -/
theorem separate_raw (w : Writer) (x : List UInt8) :
    (do
      let w ← w.separate
      let w ← w.raw x
      return w.withComma true) = w.put (w.separator ++ x) true := by
  rw [separate_eq]
  apply put_bind
  intro w₁ hw₁
  rw [raw_eq]
  exact put_withComma w₁ x w₁.needsComma true

theorem rawValue_eq (w : Writer) (v : List UInt8) :
    w.rawValue v = w.put (w.separator ++ v) true := separate_raw w v

theorem boolValue_eq (w : Writer) (v : Bool) :
    w.boolValue v = w.put (w.separator ++ Utf8.encode (Rfc8259.Value.bool v).text) true := by
  rw [boolValue, separate_raw]
  cases v
  · rw [if_neg Bool.false_ne_true, Utf8.toList_toUTF8]
    rfl
  · rw [if_pos rfl, Utf8.toList_toUTF8]
    rfl

/-- The digits of a number are its notation. -/
theorem encode_ofNat (n : ℕ) : Utf8.encode (Rfc8259.Number.ofNat n).text = Decimal.ascii n := by
  rw [Rfc8259.Number.text_ofNat, Rfc8259.encode_digits]
  induction n using Nat.strongRecOn with
  | _ n ih =>
    rcases Nat.lt_or_ge n 10 with hlt | hge
    · rw [Rfc8259.digitsOf_of_lt hlt, Decimal.ascii_of_lt hlt]
      rfl
    · rw [Rfc8259.digitsOf_of_ge hge, Decimal.ascii_of_ge hge, List.map_append, ih (n / 10) (by omega)]
      rfl

theorem u64Value_eq (w : Writer) (v : UInt64) :
    w.u64Value v =
      w.put (w.separator ++ Utf8.encode (Rfc8259.Number.ofNat v.toNat).text) true := by
  have hlt : v.toNat < 10 ^ 20 := Nat.lt_trans v.toNat_lt (by decide)
  rw [u64Value, separate_raw, Decimal.render_eq (by decide) hlt, encode_ofNat]

theorem strValue_eq (w : Writer) (v : List Char) :
    w.strValue v =
      w.put (w.separator ++ Utf8.encode (Rfc8259.Str.ofChars v).text) true := by
  rw [strValue, separate_eq]
  apply put_bind
  intro w₁ hw₁
  rw [writeString_eq]
  exact put_withComma w₁ _ w₁.needsComma true

/-! ### Rules -/

/-- The call writes a value, behind a comma if there must be one. -/
def EmitsValue (g : Writer → Except JsonError Writer) (v : Rfc8259.Value) : Prop :=
  ∀ w, g w = w.put (w.separator ++ Utf8.encode v.text) true

/-- The call writes items of an array or an object, with their commas. -/
def EmitsItems (g : Writer → Except JsonError Writer) (ts : List (List Char)) : Prop :=
  ∀ w, g w = w.put (Utf8.encode (Rfc8259.joined w.needsComma ts)) (w.needsComma || !ts.isEmpty)

/-- The call writes items, and then the closing bracket. -/
def Closes (closing : UInt8) (g : Writer → Except JsonError Writer) (ts : List (List Char)) : Prop :=
  ∀ w, g w = w.put (Utf8.encode (Rfc8259.joined w.needsComma ts) ++ [closing]) true

section Rules

variable {g g' : Writer → Except JsonError Writer} {v : Rfc8259.Value}
  {ts us : List (List Char)} {closing : UInt8}

theorem EmitsItems.nil : EmitsItems .ok [] := by
  intro w
  rw [List.isEmpty_nil, Bool.not_true, Bool.or_false]
  exact (put_nil w).symm

theorem EmitsItems.append (h : EmitsItems g ts) (h' : EmitsItems g' us) :
    EmitsItems (fun w => g w >>= g') (ts ++ us) := by
  intro w
  have hflag : (w.needsComma || !(ts ++ us).isEmpty) =
      ((w.needsComma || !ts.isEmpty) || !us.isEmpty) := by
    cases ts with
    | nil => rw [List.nil_append, List.isEmpty_nil, Bool.not_true, Bool.or_false]
    | cons t ts => rw [List.cons_append, List.isEmpty_cons, List.isEmpty_cons, Bool.not_false,
        Bool.or_true, Bool.true_or]
  show (g w >>= g') = _
  rw [h w, Rfc8259.joined_append, Utf8.encode_append, hflag]
  apply put_bind
  intro w₁ hw₁
  rw [h' w₁, hw₁]

theorem EmitsItems.value (h : EmitsValue g v) : EmitsItems g [v.text] := by
  intro w
  rw [h w, Rfc8259.joined, Rfc8259.joined, List.append_nil, Utf8.encode_append, List.isEmpty_cons,
    Bool.not_false, Bool.or_true, separator]
  cases w.needsComma
  · rfl
  · rfl

theorem EmitsItems.member (k : List Char) (h : EmitsValue g v) :
    EmitsItems (fun w => w.key k >>= g) [Rfc8259.memberText (.ofChars k, v)] := by
  intro w
  have htext : Utf8.encode (Rfc8259.joined w.needsComma [Rfc8259.memberText (.ofChars k, v)]) =
      (w.separator ++ (Utf8.encode (Rfc8259.Str.ofChars k).text ++ [colon])) ++
        Utf8.encode v.text := by
    rw [Rfc8259.joined, Rfc8259.joined, List.append_nil, Utf8.encode_append, Rfc8259.memberText,
      Utf8.encode_append, Utf8.encode_cons_ascii (by decide), separator]
    cases w.needsComma
    · simp only [List.append_assoc]
      rfl
    · simp only [List.append_assoc]
      rfl
  show (w.key k >>= g) = _
  rw [key_eq, htext, List.isEmpty_cons, Bool.not_false, Bool.or_true]
  apply put_bind
  intro w₁ hw₁
  have hnone : w₁.separator = [] := by
    rw [separator, hw₁]
    rfl
  rw [h w₁, hnone, List.nil_append]

/-- A member in front of others. -/
theorem EmitsItems.member_cons (k : List Char) (h : EmitsValue g v) (h' : EmitsItems g' us) :
    EmitsItems (fun w => w.key k >>= fun w => g w >>= g')
      (Rfc8259.memberText (.ofChars k, v) :: us) := by
  have hboth := (EmitsItems.member k h).append h'
  intro w
  rw [← List.singleton_append, ← hboth w]
  show (w.key k >>= fun w => g w >>= g') = (w.key k >>= g) >>= g'
  cases w.key k
  · rfl
  · rfl

theorem Closes.append (h : EmitsItems g ts) (h' : Closes closing g' us) :
    Closes closing (fun w => g w >>= g') (ts ++ us) := by
  intro w
  show (g w >>= g') = _
  rw [h w, Rfc8259.joined_append, Utf8.encode_append, List.append_assoc]
  apply put_bind
  intro w₁ hw₁
  rw [h' w₁, hw₁]

theorem Closes.of_items (h : EmitsItems g ts) (h' : ∀ w, g' w = w.put [closing] true) :
    Closes closing (fun w => g w >>= g') ts := by
  have hboth : Closes closing (fun w => g w >>= g') (ts ++ []) := .append h h'
  rwa [List.append_nil] at hboth

theorem EmitsValue.object {ms : List (Rfc8259.Str × Rfc8259.Value)}
    (h : Closes closeBrace g (ms.map Rfc8259.memberText)) :
    EmitsValue (fun w => w.beginObject >>= g) (.object (.compact ms)) := by
  intro w
  have htext : Utf8.encode (Rfc8259.Value.object (.compact ms)).text =
      [openBrace] ++ (Utf8.encode (Rfc8259.joined false (ms.map Rfc8259.memberText)) ++
        [closeBrace]) := by
    rw [Rfc8259.Value.text, Rfc8259.Object.text_compact, Utf8.encode_cons_ascii (by decide),
      Utf8.encode_append]
    rfl
  show (w.beginObject >>= g) = _
  rw [beginObject_eq, htext, ← List.append_assoc]
  apply put_bind
  intro w₁ hw₁
  rw [h w₁, hw₁]

theorem EmitsValue.array {vs : List Rfc8259.Value}
    (h : Closes closeBracket g (vs.map Rfc8259.Value.text)) :
    EmitsValue (fun w => w.beginArray >>= g) (.array (.compact vs)) := by
  intro w
  have htext : Utf8.encode (Rfc8259.Value.array (.compact vs)).text =
      [openBracket] ++ (Utf8.encode (Rfc8259.joined false (vs.map Rfc8259.Value.text)) ++
        [closeBracket]) := by
    rw [Rfc8259.Value.text, Rfc8259.Array.text_compact, Utf8.encode_cons_ascii (by decide),
      Utf8.encode_append]
    rfl
  show (w.beginArray >>= g) = _
  rw [beginArray_eq, htext, ← List.append_assoc]
  apply put_bind
  intro w₁ hw₁
  rw [h w₁, hw₁]

/-- What a value comes to in a fresh buffer. -/
theorem EmitsValue.fresh (h : EmitsValue g v) (buf : List UInt8) :
    if (Utf8.encode v.text).length ≤ buf.length then
      ∃ w, g (new buf) = .ok w ∧ w.asBytes = Utf8.encode v.text
    else g (new buf) = .error .shortBuffer := by
  have hemit : g (new buf) = (new buf).put (Utf8.encode v.text) true := h (new buf)
  have hzero : (new buf).pos + (Utf8.encode v.text).length = (Utf8.encode v.text).length :=
    Nat.zero_add _
  rw [hemit]
  by_cases hroom : (Utf8.encode v.text).length ≤ buf.length
  · obtain ⟨w, hw, hbuf, hpos, -⟩ :=
      put_of_le (new buf) (Utf8.encode v.text) true (hzero.trans_le hroom)
    rw [if_pos hroom]
    refine ⟨w, hw, ?_⟩
    rw [asBytes, hbuf, take_blit hpos (Nat.zero_le _)]
    rfl
  · rw [if_neg hroom]
    exact put_of_gt true ((Nat.not_le.mp hroom).trans_eq hzero.symm)

/-! ### Members by name -/

/-- Members with the names that the callers write. -/
abbrev Named := List (List Char × Rfc8259.Value)

/-- The object with these members. -/
def objectOf (ms : Named) : Rfc8259.Object := .compact (ms.map fun m => (.ofChars m.1, m.2))

/-- The call writes members of an object. -/
def EmitsMembers (g : Writer → Except JsonError Writer) (ms : Named) : Prop :=
  EmitsItems g (ms.map fun m => Rfc8259.memberText (.ofChars m.1, m.2))

/-- The call writes members, and then closes the object. -/
def ClosesObject (g : Writer → Except JsonError Writer) (ms : Named) : Prop :=
  Closes closeBrace g (ms.map fun m => Rfc8259.memberText (.ofChars m.1, m.2))

variable {ms : Named}

theorem EmitsMembers.one (k : List Char) (h : EmitsValue g v) :
    EmitsMembers (fun w => w.key k >>= g) [(k, v)] := EmitsItems.member k h

theorem EmitsMembers.str (k s : List Char) :
    EmitsMembers (fun w => w.fieldStr k s) [(k, .string (.ofChars s))] :=
  .one k fun w => w.strValue_eq s

theorem EmitsMembers.u64 (k : List Char) (n : UInt64) :
    EmitsMembers (fun w => w.fieldU64 k n) [(k, .number (.ofNat n.toNat))] :=
  .one k fun w => w.u64Value_eq n

theorem EmitsMembers.bool (k : List Char) (b : Bool) :
    EmitsMembers (fun w => w.fieldBool k b) [(k, .bool b)] :=
  .one k fun w => w.boolValue_eq b

/-- Members that are written on a condition. -/
theorem EmitsMembers.ite {c : Prop} [Decidable c] (h : EmitsMembers g ms) :
    EmitsMembers (fun w => if c then g w else .ok w) (if c then ms else []) := by
  by_cases hc : c
  · simp only [if_pos hc]
    exact h
  · simp only [if_neg hc]
    exact EmitsItems.nil

theorem ClosesObject.one (h : EmitsMembers g ms) :
    ClosesObject (fun w => g w >>= Writer.endObject) ms := Closes.of_items h Writer.endObject_eq

theorem ClosesObject.nil : ClosesObject Writer.endObject [].flatten := Writer.endObject_eq

theorem ClosesObject.cons {parts : List Named} (h : EmitsMembers g ms)
    (h' : ClosesObject g' parts.flatten) :
    ClosesObject (fun w => g w >>= g') (ms :: parts).flatten := by
  unfold ClosesObject
  rw [List.flatten_cons, List.map_append]
  exact Closes.append h h'

theorem EmitsValue.objectOf (h : ClosesObject g ms) :
    EmitsValue (fun w => w.beginObject >>= g) (.object (objectOf ms)) := by
  apply EmitsValue.object
  rw [List.map_map]
  exact h

end Rules

end Writer

/-! ### Trees -/

/-- What callers write: objects with any list of members, arrays, strings, numbers and
booleans. -/
inductive Doc
  | object (members : List (List Char × Doc))
  | array (values : List Doc)
  | string (s : List Char)
  | u64 (n : UInt64)
  | bool (b : Bool)

mutual

/-- Writes a tree, depth first. -/
def Doc.emit : Doc → Writer → Except JsonError Writer
  | .object ms, w => do
      let w ← w.beginObject
      let w ← emitMembers ms w
      w.endObject
  | .array vs, w => do
      let w ← w.beginArray
      let w ← emitValues vs w
      w.endArray
  | .string s, w => w.strValue s
  | .u64 n, w => w.u64Value n
  | .bool b, w => w.boolValue b

/-- The members of an object. -/
def emitMembers : List (List Char × Doc) → Writer → Except JsonError Writer
  | [], w => .ok w
  | (k, d) :: ms, w => do
      let w ← w.key k
      let w ← d.emit w
      emitMembers ms w

/-- The elements of a list. -/
def emitValues : List Doc → Writer → Except JsonError Writer
  | [], w => .ok w
  | d :: ds, w => do
      let w ← d.emit w
      emitValues ds w

end

mutual

/-- The syntax tree of what is written. -/
def Doc.value : Doc → Rfc8259.Value
  | .object ms => .object (.compact (memberValues ms))
  | .array vs => .array (.compact (values vs))
  | .string s => .string (.ofChars s)
  | .u64 n => .number (.ofNat n.toNat)
  | .bool b => .bool b

/-- The members as JSON has them. -/
def memberValues : List (List Char × Doc) → List (Rfc8259.Str × Rfc8259.Value)
  | [] => []
  | (k, d) :: ms => (.ofChars k, d.value) :: memberValues ms

/-- The elements as JSON has them. -/
def values : List Doc → List Rfc8259.Value
  | [] => []
  | d :: ds => d.value :: values ds

end

mutual

/-- The tree that is meant. -/
def Doc.tree : Doc → Rfc8259.Tree
  | .object ms => .object (memberTrees ms)
  | .array vs => .array (trees vs)
  | .string s => .string s
  | .u64 n => .number n.toNat
  | .bool b => .bool b

/-- What the members mean. -/
def memberTrees : List (List Char × Doc) → List (List Char × Rfc8259.Tree)
  | [] => []
  | (k, d) :: ms => (k, d.tree) :: memberTrees ms

/-- What the elements mean. -/
def trees : List Doc → List Rfc8259.Tree
  | [] => []
  | d :: ds => d.tree :: trees ds

end

mutual

theorem Doc.tree_value (d : Doc) : d.value.tree = some d.tree := by
  match d with
  | .object ms =>
    rw [Doc.value, Rfc8259.Value.tree, Rfc8259.Object.trees_compact, tree_memberValues ms]
    rfl
  | .array vs =>
    rw [Doc.value, Rfc8259.Value.tree, Rfc8259.Array.trees_compact, tree_values vs]
    rfl
  | .string s =>
    rw [Doc.value, Rfc8259.Value.tree, Rfc8259.Str.decode_ofChars]
    rfl
  | .u64 n =>
    rw [Doc.value, Rfc8259.Value.tree, Rfc8259.Number.value_ofNat]
    rfl
  | .bool b => rfl

theorem tree_memberValues (ms : List (List Char × Doc)) :
    (memberValues ms).mapM (fun m => do return (← m.1.decode, ← m.2.tree)) =
      some (memberTrees ms) := by
  match ms with
  | [] => rfl
  | (k, d) :: ms =>
    rw [memberValues, List.mapM_cons, tree_memberValues ms, Rfc8259.Str.decode_ofChars,
      d.tree_value]
    rfl

theorem tree_values (ds : List Doc) : (values ds).mapM Rfc8259.Value.tree = some (trees ds) := by
  match ds with
  | [] => rfl
  | d :: ds =>
    rw [values, List.mapM_cons, d.tree_value, tree_values ds]
    rfl

end

/-! ### What is written -/

open Writer in
mutual

/-- **A tree is written as one value.** -/
theorem Doc.emits (d : Doc) : EmitsValue d.emit d.value := by
  match d with
  | .object ms => exact .object (.of_items (emits_members ms) Writer.endObject_eq)
  | .array vs => exact .array (.of_items (emits_values vs) Writer.endArray_eq)
  | .string s => exact fun w => w.strValue_eq s
  | .u64 n => exact fun w => w.u64Value_eq n
  | .bool b => exact fun w => w.boolValue_eq b

theorem emits_members (ms : List (List Char × Doc)) :
    EmitsItems (emitMembers ms) ((memberValues ms).map Rfc8259.memberText) := by
  match ms with
  | [] => exact .nil
  | (k, d) :: ms => exact .member_cons k d.emits (emits_members ms)

theorem emits_values (ds : List Doc) :
    EmitsItems (emitValues ds) ((values ds).map Rfc8259.Value.text) := by
  match ds with
  | [] => exact .nil
  | d :: ds => exact (EmitsItems.value d.emits).append (emits_values ds)

end

/-- The text of a value, as a document of its own. -/
theorem decode_value (v : Rfc8259.Value) : Rfc8259.decode (Utf8.encode v.text) = v.tree := by
  have hdoc := Rfc8259.decode_text ⟨[], v, []⟩
  have htext : Rfc8259.Document.text ⟨[], v, []⟩ = v.text := List.append_nil _
  rwa [htext] at hdoc

/-- **A tree is written if its text fits, and the text denotes the tree.** -/
theorem emit_decodes (d : Doc) (buf : List UInt8) :
    if (Utf8.encode d.value.text).length ≤ buf.length then
      ∃ w, d.emit (Writer.new buf) = .ok w ∧ w.asBytes = Utf8.encode d.value.text ∧
        Rfc8259.decode w.asBytes = some d.tree
    else d.emit (Writer.new buf) = .error .shortBuffer := by
  have hfresh := d.emits.fresh buf
  by_cases hroom : (Utf8.encode d.value.text).length ≤ buf.length
  · rw [if_pos hroom] at hfresh ⊢
    obtain ⟨w, hw, hbytes⟩ := hfresh
    exact ⟨w, hw, hbytes, by rw [hbytes, decode_value, d.tree_value]⟩
  · rw [if_neg hroom] at hfresh ⊢
    exact hfresh

end Lando.Json
