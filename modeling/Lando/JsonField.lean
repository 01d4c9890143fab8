/-
Lando/JsonField.lean

The extractor on JSON texts (`json.rs`, reading): `field` on every object of
RFC 8259, `elements` on every array.

Each function of the parser is followed over the bytes it takes off the input:

    p.rest = x ++ y   →   f p = .ok (result, p.skip |x|)

where `x` is the text of a blank, a string, a value.  The step that carries the
rest is the one about nested values.  `skip_nested` counts one kind of bracket
and jumps over strings; the text of a value leaves its depth alone (`Passes`),
because its brackets of either kind are paired and its strings are jumped over
whole.
-/
import Lando.Json
import Lando.Rfc8259Parser

namespace Lando.Json

open Bytes
open Rfc8259 (Blank Str Piece Number Digits Exponent Escape HexDigit Space Members Object)

/-! ### What is left of the input -/

namespace Parser

/-- What is still to be read. -/
def rest (p : Parser) : List UInt8 := p.s.drop p.i

/-- `n` bytes further. -/
def skip (p : Parser) (n : ℕ) : Parser := { p with i := p.i + n }

variable {p : Parser} {x y z : List UInt8}

@[simp] theorem skip_skip (p : Parser) (m n : ℕ) : (p.skip m).skip n = p.skip (m + n) := by
  simp only [skip, Nat.add_assoc]

theorem rest_skip (h : p.rest = x ++ y) : (p.skip x.length).rest = y := by
  show p.s.drop (p.i + x.length) = y
  rw [← List.drop_drop, show p.s.drop p.i = x ++ y from h, List.drop_left]

theorem rest_skip_one {b : UInt8} (h : p.rest = b :: y) : (p.skip 1).rest = y :=
  rest_skip (x := [b]) h

theorem peek_eq (p : Parser) : p.peek = p.rest.head? := by
  rw [peek, rest, List.head?_drop]

theorem next_eq {b : UInt8} (h : p.rest = b :: y) : p.next = (some b, p.skip 1) := by
  rw [next, peek_eq, h]
  rfl

theorem expect_eq {b : UInt8} (h : p.rest = b :: y) : p.expect b = .ok (p.skip 1) := by
  rw [expect, next_eq h]
  exact if_pos rfl

theorem rest_length_le (p : Parser) : p.rest.length = p.s.length - p.i := List.length_drop

/-- What was taken off is a slice of the buffer. -/
theorem sub_eq (h : p.rest = x ++ y) (hin : x ++ y ≠ []) : p.sub p.i (p.i + x.length) = .ok x := by
  have hlen := p.rest_length_le
  have hpos := List.length_pos_iff.mpr hin
  rw [h] at hlen
  rw [List.length_append] at hlen hpos
  rw [sub, if_pos (by omega), slice, Nat.add_sub_cancel_left, show p.s.drop p.i = x ++ y from h,
    List.take_left]

theorem text_eq {cs : List Char} (h : p.rest = Utf8.encode cs ++ y)
    (hin : Utf8.encode cs ++ y ≠ []) :
    p.text p.i (p.i + (Utf8.encode cs).length) = .ok (Utf8.encode cs) := by
  have hutf : isUtf8 (Utf8.encode cs) = true := Utf8.validate_iff.mpr ⟨cs, rfl⟩
  rw [text, sub_eq h hin]
  show (if isUtf8 (Utf8.encode cs) then _ else _) = _
  rw [if_pos hutf]
  rfl

end Parser

/-! ### Blanks -/

theorem isSpace_char (s : Space) : Utf8.encode [s.char] = [.ofNat s.char.toNat] ∧
    isSpace (.ofNat s.char.toNat) = true := by
  cases s <;> decide +kernel

theorem encode_blank (b : Blank) :
    Utf8.encode b.text = b.map fun s => .ofNat s.char.toNat := by
  induction b with
  | nil => rfl
  | cons s b ih =>
    show Utf8.encode ([s.char] ++ Blank.text b) = _
    rw [Utf8.encode_append, (isSpace_char s).1, ih]
    rfl

theorem Parser.skipWs_eq {p : Parser} {b : Blank} {y : List UInt8}
    (h : p.rest = Utf8.encode b.text ++ y) (hy : ∀ c ∈ y.head?, isSpace c = false) :
    p.skipWs = p.skip (Utf8.encode b.text).length := by
  have hall : ∀ c ∈ Utf8.encode b.text, isSpace c = true := by
    rw [encode_blank]
    intro c hc
    obtain ⟨s, -, rfl⟩ := List.mem_map.mp hc
    exact (isSpace_char s).2
  have hstop : y.takeWhile isSpace = [] := by
    rcases y with - | ⟨c, y⟩
    · rfl
    · rw [List.takeWhile_cons_of_neg]
      rw [hy c rfl]
      exact Bool.false_ne_true
  rw [skipWs, show p.s.drop p.i = _ from h, List.takeWhile_append_of_pos hall, hstop,
    List.append_nil]
  rfl

/-! ### Strings -/

/-- The bytes that do not matter to the scan of a string. -/
theorem closingQuote_append {x : List UInt8} (hx : ∀ b ∈ x, b ≠ quote ∧ b ≠ backslash)
    (y : List UInt8) (i : ℕ) : closingQuote (x ++ y) i = closingQuote y (i + x.length) := by
  induction x generalizing i with
  | nil => rfl
  | cons b x ih =>
    obtain ⟨hq, hb⟩ := hx b List.mem_cons_self
    rw [List.cons_append, closingQuote.eq_def]
    simp only [if_neg hq, if_neg hb]
    rw [ih fun c hc => hx c (List.mem_cons_of_mem _ hc), List.length_cons]
    congr 1
    omega

theorem closingQuote_escape (c : UInt8) (y : List UInt8) (i : ℕ) :
    closingQuote (backslash :: c :: y) i = closingQuote y (i + 2) := by
  rw [closingQuote.eq_def]
  simp only [if_neg (show ¬ backslash = quote by decide), if_true]

theorem Unescaped.bytes {c : Char} (h : Rfc8259.Unescaped c) :
    ∀ b ∈ String.utf8EncodeChar c, b ≠ quote ∧ b ≠ backslash := by
  intro b hb
  rcases Nat.lt_or_ge c.toNat 0x80 with hlt | hge
  · -- one byte, which is the character
    rw [Utf8.utf8EncodeChar_of_ascii hlt, List.mem_singleton] at hb
    have hne : ∀ d : Char, d.toNat < 0x80 → c ≠ d → b ≠ .ofNat d.toNat := by
      intro d hd hcd hbd
      rw [hb] at hbd
      have hnat := congrArg UInt8.toNat hbd
      rw [UInt8.toNat_ofNat_of_lt' (hlt.trans (by decide)),
        UInt8.toNat_ofNat_of_lt' (hd.trans (by decide))] at hnat
      exact hcd (Char.toNat_inj.mp hnat)
    exact ⟨hne '"' (by decide) h.2.1, hne '\\' (by decide) h.2.2⟩
  · have hb' := Utf8.le_of_mem_utf8EncodeChar hge hb
    constructor
    · rintro rfl
      exact absurd hb' (by decide)
    · rintro rfl
      exact absurd hb' (by decide)

theorem HexDigit.unescaped (d : HexDigit) : Rfc8259.Unescaped d.char := by
  obtain ⟨c, h⟩ := d
  have hle : ∀ {a b : Char}, a ≤ b → a.toNat ≤ b.toNat := fun h => UInt32.le_iff_toNat_le.mp h
  have hne : ∀ {d : Char}, c.toNat ≠ d.toNat → c ≠ d := fun hn hd => hn (congrArg Char.toNat hd)
  unfold Rfc8259.hexValue at h
  show 0x20 ≤ c.toNat ∧ c ≠ '"' ∧ c ≠ '\\'
  have hrange : 0x30 ≤ c.toNat ∧ c.toNat ≤ 0x66 ∧ c.toNat ≠ 0x5c := by
    split_ifs at h with h₁ h₂ h₃
    · have hlo : 0x30 ≤ c.toNat := hle h₁.1
      have hhi : c.toNat ≤ 0x39 := hle h₁.2
      omega
    · have hlo : 0x61 ≤ c.toNat := hle h₂.1
      have hhi : c.toNat ≤ 0x66 := hle h₂.2
      omega
    · have hlo : 0x41 ≤ c.toNat := hle h₃.1
      have hhi : c.toNat ≤ 0x46 := hle h₃.2
      omega
    · cases h
  exact ⟨by omega, hne (show c.toNat ≠ 0x22 by omega), hne hrange.2.2⟩

/-- The scan of a piece of a string; an escaped byte goes with its backslash. -/
theorem closingQuote_piece (p : Piece) (y : List UInt8) (i : ℕ) :
    closingQuote (Utf8.encode p.text ++ y) i =
      closingQuote y (i + (Utf8.encode p.text).length) := by
  cases p with
  | plain c h =>
    apply closingQuote_append
    show ∀ b ∈ Utf8.encode [c], _
    rw [Utf8.encode_cons, Utf8.encode_nil, List.append_nil]
    exact Unescaped.bytes h
  | escape e =>
    have hbytes : Utf8.encode (Piece.escape e).text = [backslash, .ofNat e.letter.toNat] := by
      cases e <;> decide +kernel
    rw [hbytes]
    exact closingQuote_escape _ y i
  | unicode a b c d =>
    have hbytes : Utf8.encode (Piece.unicode a b c d).text =
        backslash :: 0x75 :: Utf8.encode [a.char, b.char, c.char, d.char] := by
      show Utf8.encode ('\\' :: 'u' :: [a.char, b.char, c.char, d.char]) = _
      rw [Utf8.encode_cons_ascii (by decide), Utf8.encode_cons_ascii (by decide)]
      rfl
    have hplain : ∀ b' ∈ Utf8.encode [a.char, b.char, c.char, d.char],
        b' ≠ quote ∧ b' ≠ backslash := by
      intro b' hb'
      obtain ⟨ch, hch, hb'⟩ := List.mem_flatMap.mp hb'
      have hu : Rfc8259.Unescaped ch := by
        simp only [List.mem_cons, List.not_mem_nil, or_false] at hch
        rcases hch with rfl | rfl | rfl | rfl
        · exact HexDigit.unescaped a
        · exact HexDigit.unescaped b
        · exact HexDigit.unescaped c
        · exact HexDigit.unescaped d
      exact Unescaped.bytes hu b' hb'
    rw [hbytes, List.cons_append, List.cons_append, closingQuote_escape,
      closingQuote_append hplain, List.length_cons, List.length_cons]
    congr 1
    omega

theorem closingQuote_raw (s : Str) (y : List UInt8) (i : ℕ) :
    closingQuote (Utf8.encode s.raw ++ y) i = closingQuote y (i + (Utf8.encode s.raw).length) := by
  induction s generalizing i with
  | nil => rfl
  | cons p s ih =>
    have hraw : Utf8.encode (Str.raw (p :: s)) = Utf8.encode p.text ++ Utf8.encode (Str.raw s) := by
      rw [← Utf8.encode_append]
      rfl
    rw [hraw, List.append_assoc, closingQuote_piece, ih, List.length_append, Nat.add_assoc]

theorem encode_str (s : Str) :
    Utf8.encode s.text = quote :: (Utf8.encode s.raw ++ [quote]) := by
  rw [Str.text, Utf8.encode_cons_ascii (by decide), Utf8.encode_append,
    Utf8.encode_cons_ascii (by decide)]
  rfl

theorem length_encode_str (s : Str) :
    (Utf8.encode s.text).length = (Utf8.encode s.raw).length + 2 := by
  rw [encode_str, List.length_cons, List.length_append, List.length_singleton]

/-- **A string is read as what stands between its quotes.** -/
theorem Parser.parseString_eq {p : Parser} {s : Str} {y : List UInt8}
    (h : p.rest = Utf8.encode s.text ++ y) :
    p.parseString = .ok (Utf8.encode s.raw, p.skip (Utf8.encode s.text).length) := by
  have hopen : p.rest = quote :: (Utf8.encode s.raw ++ quote :: y) := by
    rw [h, encode_str, List.cons_append, List.append_assoc]
    rfl
  have hrest : (p.skip 1).rest = Utf8.encode s.raw ++ quote :: y := rest_skip_one hopen
  have hclose : closingQuote (p.s.drop (p.skip 1).i) (p.skip 1).i =
      .ok ((p.skip 1).i + (Utf8.encode s.raw).length + 1) := by
    rw [show p.s.drop (p.skip 1).i = _ from hrest, closingQuote_raw, closingQuote.eq_def]
    exact if_pos rfl
  have htext := text_eq hrest (by
    intro hnil
    exact absurd (List.append_eq_nil_iff.mp hnil).2 (List.cons_ne_nil _ _))
  unfold parseString
  rw [expect_eq hopen]
  show ((closingQuote (p.s.drop (p.skip 1).i) (p.skip 1).i) >>= _) = _
  rw [hclose]
  show ((p.skip 1).text (p.skip 1).i ((p.skip 1).i + (Utf8.encode s.raw).length) >>= _) = _
  rw [htext, length_encode_str]
  show Except.ok (_, ({ s := p.s, i := p.i + 1 + (Utf8.encode s.raw).length + 1 } : Parser)) = _
  rw [Nat.add_assoc, Nat.add_assoc, skip]
  congr 3
  omega

/-! ### Numbers and literals -/

/-- The characters of numbers. -/
def numberChars : List Char := "-+.eE0123456789".toList

theorem digits_subset (ds : Digits) : ∀ c ∈ ds.text, c ∈ numberChars := by
  have htable : ∀ d : Rfc8259.Digit, d.char ∈ numberChars := by decide +kernel
  intro c hc
  obtain ⟨d, -, rfl⟩ := List.mem_map.mp hc
  exact htable d

theorem number_subset (n : Number) : ∀ c ∈ n.text, c ∈ numberChars := by
  obtain ⟨neg, int, proper, frac, exp⟩ := n
  intro c hc
  simp only [Number.text, List.mem_append] at hc
  rcases hc with hc | hc | hc | hc
  · cases neg
    · cases hc
    · rw [List.mem_singleton.mp hc]
      decide
  · exact digits_subset int c hc
  · rcases frac with - | ds
    · cases hc
    · rcases List.mem_cons.mp hc with rfl | hc
      · decide
      · exact digits_subset ds c hc
  · rcases exp with - | ⟨upper, sign, ds⟩
    · cases hc
    · rcases List.mem_cons.mp hc with rfl | hc
      · cases upper
        · show 'e' ∈ numberChars
          decide
        · show 'E' ∈ numberChars
          decide
      · rcases List.mem_append.mp hc with hc | hc
        · rcases sign with - | - | -
          · cases hc
          · rw [List.mem_singleton.mp hc]
            decide
          · rw [List.mem_singleton.mp hc]
            decide
        · exact digits_subset ds c hc

theorem number_ne_nil (n : Number) : Utf8.encode n.text ≠ [] := by
  obtain ⟨c, -, cs, hcs, -⟩ := n.head_text []
  rw [List.append_nil] at hcs
  rw [hcs, Utf8.encode_cons]
  exact fun h => absurd (List.append_eq_nil_iff.mp h).1 String.utf8EncodeChar_ne_nil

/-- A property of the ASCII characters of a text is one of its bytes. -/
theorem forall_encode {cs table : List Char} {q : UInt8 → Prop} (hcs : ∀ c ∈ cs, c ∈ table)
    (htable : ∀ c ∈ table, c.toNat < 0x80 ∧ q (.ofNat c.toNat)) : ∀ b ∈ Utf8.encode cs, q b := by
  intro b hb
  obtain ⟨c, hc, hb⟩ := List.mem_flatMap.mp hb
  obtain ⟨hlt, hq⟩ := htable c (hcs c hc)
  rw [Utf8.utf8EncodeChar_of_ascii hlt, List.mem_singleton] at hb
  rw [hb]
  exact hq

namespace Parser

variable {p : Parser} {y : List UInt8}

theorem parseNumber_eq {n : Number} (h : p.rest = Utf8.encode n.text ++ y)
    (hy : ∀ c ∈ y.head?, isNumeric c = false) :
    p.parseNumber = .ok (.number (Utf8.encode n.text), p.skip (Utf8.encode n.text).length) := by
  have hne := number_ne_nil n
  have hpos := List.length_pos_iff.mpr hne
  have hall : ∀ b ∈ Utf8.encode n.text, isNumeric b = true :=
    forall_encode (number_subset n) (Utf8.forall_table (by decide +kernel))
  have hstop : y.takeWhile isNumeric = [] := by
    rcases y with - | ⟨c, y⟩
    · rfl
    · rw [List.takeWhile_cons_of_neg]
      rw [hy c rfl]
      exact Bool.false_ne_true
  have htake : ((p.s.drop p.i).takeWhile isNumeric).length = (Utf8.encode n.text).length := by
    rw [show p.s.drop p.i = _ from h, List.takeWhile_append_of_pos hall, hstop, List.append_nil]
  have htext := text_eq h (fun hnil => hne (List.append_eq_nil_iff.mp hnil).1)
  unfold parseNumber
  simp only [htake]
  rw [if_neg (by omega), htext]
  rfl

theorem literal_eq {lit : List UInt8} (hlit : lit ≠ []) (h : p.rest = lit ++ y) :
    p.literal lit = .ok (p.skip lit.length) := by
  have hlen := p.rest_length_le
  have hpos := List.length_pos_iff.mpr hlit
  rw [h, List.length_append] at hlen
  have hsub := sub_eq h (fun hnil => hlit (List.append_eq_nil_iff.mp hnil).1)
  unfold literal
  rw [if_neg (by omega), hsub]
  show (if lit ≠ lit then _ else _) = _
  rw [if_neg (not_not.mpr rfl)]
  rfl

end Parser

/-! ### Nested values -/

/-- The two kinds of bracket. -/
inductive Bracket
  | brace
  | bracket

namespace Bracket

/-- How it opens. -/
def opening : Bracket → UInt8
  | brace => openBrace
  | bracket => openBracket

/-- How it closes. -/
def closing : Bracket → UInt8
  | brace => closeBrace
  | bracket => closeBracket

end Bracket

/-- The loop of `skip_nested` runs over these bytes, and is at the same depth behind
them.  It has as many turns for them as there are bytes. -/
def Passes (b : Bracket) (x : List UInt8) : Prop :=
  ∀ (start k depth : ℕ) (p : Parser) (y : List UInt8), 0 < depth → p.rest = x ++ y →
    ∃ k', k ≤ k' ∧ Parser.nested b.opening b.closing start (k + x.length) depth p =
      Parser.nested b.opening b.closing start k' depth (p.skip x.length)

namespace Passes

variable {b : Bracket} {x x' : List UInt8}

theorem nil : Passes b [] := fun _ k _ _ _ _ _ => ⟨k, Nat.le_refl k, rfl⟩

theorem append (h : Passes b x) (h' : Passes b x') : Passes b (x ++ x') := by
  intro start k depth p y hdepth hp
  rw [List.append_assoc] at hp
  obtain ⟨k₁, hk₁, hrun⟩ := h start (k + x'.length) depth p (x' ++ y) hdepth hp
  obtain ⟨j, rfl⟩ : ∃ j, k₁ = j + x'.length := ⟨k₁ - x'.length, by omega⟩
  obtain ⟨k₂, hk₂, hrun'⟩ := h' start j depth (p.skip x.length) y hdepth (Parser.rest_skip hp)
  refine ⟨k₂, by omega, ?_⟩
  rw [List.length_append, ← Parser.skip_skip, ← hrun', ← hrun]
  congr 1
  omega

/-- Neither a quote nor a bracket of this kind. -/
theorem byte {c : UInt8} (hq : c ≠ quote) (ho : c ≠ b.opening) (hc : c ≠ b.closing) :
    Passes b [c] := by
  intro start k depth p y hdepth hp
  refine ⟨k, Nat.le_refl k, ?_⟩
  rw [List.length_singleton, Parser.nested, Parser.next_eq hp]
  simp only [if_neg hq, if_neg ho, if_neg hc]

theorem bytes (h : ∀ c ∈ x, c ≠ quote ∧ c ≠ b.opening ∧ c ≠ b.closing) : Passes b x := by
  induction x with
  | nil => exact nil
  | cons c x ih =>
    obtain ⟨hq, ho, hc⟩ := h c List.mem_cons_self
    exact (byte hq ho hc).append (ih fun c hc => h c (List.mem_cons_of_mem _ hc))

/-- A string is one turn. -/
theorem string (s : Str) : Passes b (Utf8.encode s.text) := by
  intro start k depth p y hdepth hp
  have hlen := length_encode_str s
  have hopen : p.rest = quote :: (Utf8.encode s.raw ++ quote :: y) := by
    rw [hp, encode_str, List.cons_append, List.append_assoc]
    rfl
  have hback : ({ p.skip 1 with i := p.i } : Parser) = p := rfl
  refine ⟨k + (Utf8.encode s.raw).length + 1, by omega, ?_⟩
  rw [hlen, ← Nat.add_assoc, Parser.nested, Parser.next_eq hopen]
  simp only [if_true]
  show (decrement (p.i + 1) >>= fun i => _) = _
  show (Parser.parseString { p.skip 1 with i := p.i } >>= fun r => _) = _
  rw [hback, Parser.parseString_eq hp, hlen]
  rfl

/-- Brackets of the kind that is counted, with what stands between them. -/
theorem nest (h : Passes b x) : Passes b (b.opening :: (x ++ [b.closing])) := by
  intro start k depth p y hdepth hp
  have ho : b.opening ≠ quote := by
    cases b <;> decide
  have hc : b.closing ≠ quote ∧ b.closing ≠ b.opening := by
    cases b <;> decide
  have hrest : (p.skip 1).rest = x ++ b.closing :: y := by
    have hp' : p.rest = [b.opening] ++ (x ++ b.closing :: y) := by
      rw [hp, List.cons_append, List.append_assoc]
      rfl
    exact Parser.rest_skip hp'
  obtain ⟨k₁, hk₁, hrun⟩ := h start (k + 1) (depth + 1) (p.skip 1) _ (Nat.succ_pos _) hrest
  obtain ⟨j, rfl⟩ : ∃ j, k₁ = j + 1 := ⟨k₁ - 1, by omega⟩
  refine ⟨j, by omega, ?_⟩
  have hlen : k + (b.opening :: (x ++ [b.closing])).length = (k + 1 + x.length) + 1 := by
    rw [List.length_cons, List.length_append, List.length_singleton]
    omega
  rw [hlen, Parser.nested, Parser.next_eq hp]
  simp only [if_neg ho, if_true]
  rw [hrun, Parser.nested, Parser.next_eq (Parser.rest_skip hrest)]
  simp only [if_neg hc.1, if_neg hc.2, if_true]
  show (if depth = 0 then _ else _) = _
  rw [if_neg (by omega), Parser.skip_skip, Parser.skip_skip, List.length_cons,
    List.length_append, List.length_singleton]
  congr 2
  omega

/-- Brackets of the other kind are bytes like any. -/
theorem nest_any (k : Bracket) (h : Passes b x) : Passes b (k.opening :: (x ++ [k.closing])) := by
  by_cases hk : k = b
  · subst hk
    exact h.nest
  · have hother : (k.opening ≠ quote ∧ k.opening ≠ b.opening ∧ k.opening ≠ b.closing) ∧
        k.closing ≠ quote ∧ k.closing ≠ b.opening ∧ k.closing ≠ b.closing := by
      cases k <;> cases b <;> first | exact absurd rfl hk | decide
    obtain ⟨ho, hc⟩ := hother
    exact (byte ho.1 ho.2.1 ho.2.2).append (h.append (byte hc.1 hc.2.1 hc.2.2))

/-- Bytes that are no part of the structure. -/
theorem inert (h : ∀ c ∈ x, c ∉ [quote, openBrace, closeBrace, openBracket, closeBracket]) :
    Passes b x := by
  apply bytes
  intro c hc
  have hne := h c hc
  simp only [List.mem_cons, List.not_mem_nil, or_false, not_or] at hne
  obtain ⟨hq, hob, hcb, hoB, hcB⟩ := hne
  cases b
  · exact ⟨hq, hob, hcb⟩
  · exact ⟨hq, hoB, hcB⟩

theorem blank (w : Blank) : Passes b (Utf8.encode w.text) := by
  apply inert
  rw [encode_blank]
  intro c hc
  obtain ⟨s, -, rfl⟩ := List.mem_map.mp hc
  cases s <;> decide

/-- A byte between two texts. -/
theorem between {c : UInt8} (hc : c ∉ [quote, openBrace, closeBrace, openBracket, closeBracket])
    (h : Passes b x) (h' : Passes b x') : Passes b (x ++ c :: x') := by
  have hbyte : Passes b [c] := by
    apply inert
    intro c' hc'
    rw [List.mem_singleton.mp hc']
    exact hc
  exact h.append (hbyte.append h')

end Passes

theorem encode_braces (cs : List Char) :
    Utf8.encode ('\x7b' :: (cs ++ ['\x7d'])) =
      Bracket.brace.opening :: (Utf8.encode cs ++ [Bracket.brace.closing]) := by
  rw [Utf8.encode_cons_ascii (by decide), Utf8.encode_append]
  rfl

theorem encode_brackets (cs : List Char) :
    Utf8.encode ('[' :: (cs ++ [']'])) =
      Bracket.bracket.opening :: (Utf8.encode cs ++ [Bracket.bracket.closing]) := by
  rw [Utf8.encode_cons_ascii (by decide), Utf8.encode_append]
  rfl

theorem encode_cons_comma (cs : List Char) : Utf8.encode (',' :: cs) = comma :: Utf8.encode cs :=
  Utf8.encode_cons_ascii (by decide) cs

theorem encode_cons_colon (cs : List Char) : Utf8.encode (':' :: cs) = colon :: Utf8.encode cs :=
  Utf8.encode_cons_ascii (by decide) cs

mutual

/-- **A value leaves the depth alone**, of either kind of bracket. -/
theorem passes_value (b : Bracket) (v : Rfc8259.Value) : Passes b (Utf8.encode v.text) := by
  match v with
  | .null => exact .inert (by decide +kernel)
  | .bool true => exact .inert (by decide +kernel)
  | .bool false => exact .inert (by decide +kernel)
  | .number n =>
    exact .inert (forall_encode (number_subset n) (Utf8.forall_table (by decide +kernel)))
  | .string s => exact .string s
  | .array a => exact passes_array b a
  | .object o => exact passes_object b o

theorem passes_array (b : Bracket) (a : Rfc8259.Array) : Passes b (Utf8.encode a.text) := by
  match a with
  | .empty ws =>
    rw [Rfc8259.Array.text, encode_brackets]
    exact (Passes.blank ws).nest_any .bracket
  | .of es =>
    rw [Rfc8259.Array.text, encode_brackets]
    exact (passes_elements b es).nest_any .bracket

theorem passes_object (b : Bracket) (o : Object) : Passes b (Utf8.encode o.text) := by
  match o with
  | .empty ws =>
    rw [Object.text, encode_braces]
    exact (Passes.blank ws).nest_any .brace
  | .of ms =>
    rw [Object.text, encode_braces]
    exact (passes_members b ms).nest_any .brace

theorem passes_elements (b : Bracket) (es : Rfc8259.Elements) : Passes b (Utf8.encode es.text) := by
  match es with
  | .one w v w' =>
    simp only [Rfc8259.Elements.text, Utf8.encode_append]
    exact (Passes.blank w).append ((passes_value b v).append (.blank w'))
  | .more w v w' es =>
    simp only [Rfc8259.Elements.text, Utf8.encode_append, encode_cons_comma]
    exact (Passes.blank w).append ((passes_value b v).append
      (.between (by decide) (.blank w') (passes_elements b es)))

theorem passes_members (b : Bracket) (ms : Members) : Passes b (Utf8.encode ms.text) := by
  match ms with
  | .one w key w₁ w₂ v w' =>
    simp only [Members.text, Utf8.encode_append, encode_cons_colon]
    exact (Passes.blank w).append ((Passes.string key).append (.between (by decide) (.blank w₁)
      ((Passes.blank w₂).append ((passes_value b v).append (.blank w')))))
  | .more w key w₁ w₂ v w' ms =>
    simp only [Members.text, Utf8.encode_append, encode_cons_colon, encode_cons_comma]
    exact (Passes.blank w).append ((Passes.string key).append (.between (by decide) (.blank w₁)
      ((Passes.blank w₂).append ((passes_value b v).append
        (.between (by decide) (.blank w') (passes_members b ms))))))

end

/-- The matching bracket is found. -/
theorem Parser.skipNested_eq {b : Bracket} {p : Parser} {x y : List UInt8}
    (h : p.rest = (b.opening :: (x ++ [b.closing])) ++ y) (hx : Passes b x) :
    p.skipNested b.opening b.closing =
      .ok (b.opening :: (x ++ [b.closing]), p.skip (b.opening :: (x ++ [b.closing])).length) := by
  have ho : b.opening ≠ quote := by
    cases b <;> decide
  have hc : b.closing ≠ quote ∧ b.closing ≠ b.opening := by
    cases b <;> decide
  have hlen := p.rest_length_le
  have hrest : (p.skip 1).rest = x ++ b.closing :: y := by
    have hp' : p.rest = [b.opening] ++ (x ++ b.closing :: y) := by
      rw [h, List.cons_append, List.append_assoc]
      rfl
    exact rest_skip hp'
  have hturns : p.s.length - p.i + 1 = (y.length + 2 + x.length) + 1 := by
    rw [← hlen, h]
    simp only [List.length_append, List.length_cons, List.length_nil]
    omega
  have hlast : p.i + 1 + x.length + 1 = p.i + (b.opening :: (x ++ [b.closing])).length := by
    simp only [List.length_append, List.length_cons, List.length_nil]
    omega
  obtain ⟨k₁, hk₁, hrun⟩ := hx p.i (y.length + 2) 1 (p.skip 1) _ Nat.one_pos hrest
  obtain ⟨j, rfl⟩ : ∃ j, k₁ = j + 1 := ⟨k₁ - 1, by omega⟩
  rw [skipNested, hturns, nested, next_eq h]
  simp only [if_neg ho, if_true]
  rw [hrun, nested, next_eq (rest_skip hrest)]
  simp only [if_neg hc.1, if_neg hc.2, if_true]
  show (p.sub p.i (p.i + 1 + x.length + 1) >>= fun r => _) = _
  rw [hlast, sub_eq h (List.cons_ne_nil _ _), skip_skip, skip_skip]
  show Except.ok (_, p.skip (1 + x.length + 1)) = _
  rw [show 1 + x.length + 1 = (b.opening :: (x ++ [b.closing])).length by
    simp only [List.length_append, List.length_cons, List.length_nil]
    omega]

/-! ### Values -/

/-- A value as the extractor returns it. -/
def located : Rfc8259.Value → Value
  | .null => .null
  | .bool b => .bool b
  | .number n => .number (Utf8.encode n.text)
  | .string s => .str (Utf8.encode s.raw)
  | .array a => .raw (Utf8.encode a.text)
  | .object o => .raw (Utf8.encode o.text)

/-- What stands between the brackets of an array. -/
theorem exists_passes_array (a : Rfc8259.Array) :
    ∃ x, Utf8.encode a.text = Bracket.bracket.opening :: (x ++ [Bracket.bracket.closing]) ∧
      Passes .bracket x := by
  cases a with
  | empty ws =>
    rw [Rfc8259.Array.text, encode_brackets]
    exact ⟨_, rfl, .blank ws⟩
  | of es =>
    rw [Rfc8259.Array.text, encode_brackets]
    exact ⟨_, rfl, passes_elements .bracket es⟩

/-- What stands between the braces of an object. -/
theorem exists_passes_object (o : Object) :
    ∃ x, Utf8.encode o.text = Bracket.brace.opening :: (x ++ [Bracket.brace.closing]) ∧
      Passes .brace x := by
  cases o with
  | empty ws =>
    rw [Object.text, encode_braces]
    exact ⟨_, rfl, .blank ws⟩
  | of ms =>
    rw [Object.text, encode_braces]
    exact ⟨_, rfl, passes_members .brace ms⟩

/-- **A value is read, and nothing behind it.** -/
theorem Parser.parseValue_eq {p : Parser} {v : Rfc8259.Value} {y : List UInt8}
    (h : p.rest = Utf8.encode v.text ++ y) (hy : ∀ c ∈ y.head?, isNumeric c = false) :
    p.parseValue = .ok (located v, p.skip (Utf8.encode v.text).length) := by
  -- a literal name, and a text in brackets that is skipped
  have hlit : ∀ {lit : String} {r : Parsed (Value × Parser)} {w : Value},
      p.rest = Utf8.encode lit.toList ++ y → Utf8.encode lit.toList ≠ [] →
      r = (do return (w, ← p.literal lit.toUTF8.toList)) →
      r = .ok (w, p.skip (Utf8.encode lit.toList).length) := by
    rintro lit r w hp hne rfl
    rw [Utf8.toList_toUTF8, literal_eq hne hp]
    rfl
  have hnested : ∀ {b : Bracket} {x t : List UInt8} {r : Parsed (Value × Parser)},
      t = b.opening :: (x ++ [b.closing]) → p.rest = t ++ y → Passes b x →
      r = (do return ((← p.skipNested b.opening b.closing).map .raw id)) →
      r = .ok (.raw t, p.skip t.length) := by
    rintro b x t r rfl hp hx rfl
    rw [skipNested_eq hp hx]
    rfl
  cases v with
  | null =>
    unfold parseValue
    rw [peek_eq, h]
    exact hlit h (by decide +kernel) rfl
  | bool b =>
    unfold parseValue
    rw [peek_eq, h]
    cases b
    · exact hlit h (by decide +kernel) rfl
    · exact hlit h (by decide +kernel) rfl
  | number n =>
    -- a number starts with none of the bytes that the other values start with
    have hstart : ∀ c ∈ Utf8.encode n.text, c ≠ quote ∧ c ≠ openBrace ∧ c ≠ openBracket ∧
        c ≠ 0x74 ∧ c ≠ 0x66 ∧ c ≠ 0x6e :=
      forall_encode (number_subset n) (Utf8.forall_table (by decide +kernel))
    have hnumber := parseNumber_eq h hy
    rcases hbytes : Utf8.encode n.text with - | ⟨c, cs⟩
    · exact (number_ne_nil n hbytes).elim
    obtain ⟨hq, ho, hb, ht, hf, hn⟩ := hstart c (by rw [hbytes]; exact List.mem_cons_self)
    have hpeek : p.peek = some c := by
      rw [peek_eq, h, Rfc8259.Value.text, hbytes]
      rfl
    unfold parseValue
    rw [hpeek]
    simp only [if_neg hq, if_neg ho, if_neg hb, if_neg ht, if_neg hf, if_neg hn]
    exact hnumber
  | string s =>
    have hpeek : p.peek = some quote := by
      rw [peek_eq, h, Rfc8259.Value.text, encode_str]
      rfl
    unfold parseValue
    rw [hpeek]
    simp only [if_true]
    rw [parseString_eq h]
    rfl
  | array a =>
    obtain ⟨x, hx, hpass⟩ := exists_passes_array a
    have hpeek : p.peek = some openBracket := by
      rw [peek_eq, h, Rfc8259.Value.text, hx]
      rfl
    unfold parseValue
    rw [hpeek]
    exact hnested hx h hpass rfl
  | object o =>
    obtain ⟨x, hx, hpass⟩ := exists_passes_object o
    have hpeek : p.peek = some openBrace := by
      rw [peek_eq, h, Rfc8259.Value.text, hx]
      rfl
    unfold parseValue
    rw [hpeek]
    exact hnested hx h hpass rfl

/-! ### What stands in front and behind -/

/-- A value does not start with a blank. -/
theorem head_value (v : Rfc8259.Value) (y : List UInt8) :
    ∀ c ∈ (Utf8.encode v.text ++ y).head?, isSpace c = false ∧ c ≠ closeBracket := by
  have htable : ∀ c ∈ Rfc8259.starts, c.toNat < 0x80 ∧ isSpace (.ofNat c.toNat) = false ∧
      UInt8.ofNat c.toNat ≠ closeBracket := Utf8.forall_table (by decide +kernel)
  obtain ⟨ch, hch, cs, hcs⟩ := v.head_text []
  rw [List.append_nil] at hcs
  obtain ⟨hlt, hne⟩ := htable ch hch
  rw [hcs, Utf8.encode_cons_ascii hlt]
  intro c hc
  obtain rfl := Option.some.inj hc
  exact hne

/-- Neither does a string. -/
theorem head_str (s : Str) (y : List UInt8) :
    ∀ c ∈ (Utf8.encode s.text ++ y).head?, isSpace c = false := by
  rw [encode_str]
  intro c hc
  obtain rfl := Option.some.inj hc
  decide

/-- What is a property of a byte is one of the first byte. -/
theorem head_cons {c : UInt8} {q : UInt8 → Prop} (hc : q c) (y : List UInt8) :
    ∀ c' ∈ (c :: y).head?, q c' := by
  intro c' hc'
  obtain rfl := Option.some.inj hc'
  exact hc

/-- Blanks end a number. -/
theorem head_blank (w : Blank) {y : List UInt8} (hy : ∀ c ∈ y.head?, isNumeric c = false) :
    ∀ c ∈ (Utf8.encode w.text ++ y).head?, isNumeric c = false := by
  rcases w with - | ⟨s, w⟩
  · exact hy
  · rw [encode_blank]
    intro c hc
    obtain rfl := Option.some.inj hc
    cases s <;> decide +kernel

/-! ### The members of an object -/

/-- One turn of the loop of `field`. -/
theorem Parser.member_step {p : Parser} {a b c d : Blank} {key : Str} {v : Rfc8259.Value}
    {delimiter : UInt8} {y : List UInt8} (want : List UInt8) (k : ℕ)
    (hdelimiter : delimiter = comma ∨ delimiter = closeBrace)
    (h : p.rest = Utf8.encode a.text ++ (Utf8.encode key.text ++ (Utf8.encode b.text ++
      colon :: (Utf8.encode c.text ++ (Utf8.encode v.text ++ (Utf8.encode d.text ++
        delimiter :: y)))))) :
    ∃ q : Parser, q.rest = y ∧ p.member want (k + 1) =
      if Utf8.encode key.raw = want then .ok (some (located v))
      else if delimiter = comma then q.member want k
      else .ok none := by
  have hends : isSpace delimiter = false ∧ isNumeric delimiter = false := by
    rcases hdelimiter with rfl | rfl <;> decide
  have h₁ := rest_skip h
  have h₂ := rest_skip h₁
  have h₃ := rest_skip h₂
  have h₄ := rest_skip_one h₃
  have h₅ := rest_skip h₄
  have h₆ := rest_skip h₅
  have h₇ := rest_skip h₆
  have h₈ := rest_skip_one h₇
  have hkey := skipWs_eq h (head_str key _)
  have hcolon := skipWs_eq h₂ (head_cons (by decide) _)
  have hvalue := skipWs_eq h₄ fun c hc => (head_value v _ c hc).1
  have hafter := skipWs_eq h₆ (head_cons hends.1 _)
  refine ⟨_, h₈, ?_⟩
  rw [member, hkey, parseString_eq h₁]
  show (expect (skipWs _) colon >>= fun p => _) = _
  rw [hcolon, expect_eq h₃]
  show (parseValue (skipWs _) >>= fun r => _) = _
  rw [hvalue, parseValue_eq h₅ (head_blank d (head_cons hends.2 _))]
  show (if Utf8.encode key.raw = want then _ else _) = _
  by_cases hwant : Utf8.encode key.raw = want
  · rw [if_pos hwant, if_pos hwant]
    rfl
  · rw [if_neg hwant, if_neg hwant, hafter, next_eq h₇]
    rcases hdelimiter with rfl | rfl
    · rfl
    · rfl

/-- The loop of `field` finds the first member with the key. -/
theorem Parser.member_eq (want : List Char) (ms : Members) {p : Parser} {y : List UInt8} {k : ℕ}
    (hk : (Utf8.encode ms.text).length < k)
    (h : p.rest = Utf8.encode ms.text ++ closeBrace :: y) :
    p.member (Utf8.encode want) k =
      .ok ((ms.toList.find? fun m => m.1.raw = want).map fun m => located m.2) := by
  obtain ⟨k, rfl⟩ : ∃ j, k = j + 1 := ⟨k - 1, by omega⟩
  match ms with
  | .one a key b c v d =>
    have hp : p.rest = Utf8.encode a.text ++ (Utf8.encode key.text ++ (Utf8.encode b.text ++
        colon :: (Utf8.encode c.text ++ (Utf8.encode v.text ++ (Utf8.encode d.text ++
          closeBrace :: y))))) := by
      rw [h]
      simp only [Members.text, Utf8.encode_append, encode_cons_colon, List.append_assoc,
        List.cons_append]
    obtain ⟨q, -, hstep⟩ := member_step (Utf8.encode want) k (.inr rfl) hp
    rw [hstep, Members.toList]
    by_cases hkey : key.raw = want
    · rw [if_pos (congrArg Utf8.encode hkey), List.find?_cons_of_pos (by simpa using hkey)]
      rfl
    · rw [if_neg fun hw => hkey (Utf8.encode_inj hw), if_neg (by decide),
        List.find?_cons_of_neg (by simpa using hkey)]
      rfl
  | .more a key b c v d ms =>
    have hp : p.rest = Utf8.encode a.text ++ (Utf8.encode key.text ++ (Utf8.encode b.text ++
        colon :: (Utf8.encode c.text ++ (Utf8.encode v.text ++ (Utf8.encode d.text ++
          comma :: (Utf8.encode ms.text ++ closeBrace :: y)))))) := by
      rw [h]
      simp only [Members.text, Utf8.encode_append, encode_cons_colon, encode_cons_comma,
        List.append_assoc, List.cons_append]
    have hlen : (Utf8.encode ms.text).length < k := by
      simp only [Members.text, Utf8.encode_append, encode_cons_colon, encode_cons_comma,
        List.length_append, List.length_cons] at hk
      omega
    obtain ⟨q, hq, hstep⟩ := member_step (Utf8.encode want) k (.inl rfl) hp
    rw [hstep, Members.toList]
    by_cases hkey : key.raw = want
    · rw [if_pos (congrArg Utf8.encode hkey), List.find?_cons_of_pos (by simpa using hkey)]
      rfl
    · rw [if_neg fun hw => hkey (Utf8.encode_inj hw), if_pos rfl,
        List.find?_cons_of_neg (by simpa using hkey)]
      exact member_eq want ms hlen hq

/-! ### Fields -/

theorem Settles.result_eq {α : Type} {r : Parsed α} (h : Settles r fun _ => True) {a : α}
    (ha : r = .ok a) : h.result = .ok a := by
  subst ha
  rfl

theorem Settles.result_error {α : Type} {r : Parsed α} (h : Settles r fun _ => True) {e : JsonError}
    (he : r = .error (.error e)) : h.result = .error e := by
  subst he
  rfl

/-- Skipping blanks in front of a member twice is skipping them once. -/
theorem Parser.skipWs_members {ms : Members} {p : Parser} {y : List UInt8}
    (h : p.rest = Utf8.encode ms.text ++ y) :
    p.skipWs.skipWs = p.skipWs ∧ p.skipWs.peek = some quote := by
  have hsplit : ∃ (a : Blank) (key : Str) (z : List UInt8),
      p.rest = Utf8.encode a.text ++ (Utf8.encode key.text ++ z) := by
    cases ms with
    | one a key b c v d =>
      refine ⟨a, key, Utf8.encode (b.text ++ ':' :: (c.text ++ (v.text ++ d.text))) ++ y, ?_⟩
      rw [h, Members.text, Utf8.encode_append, Utf8.encode_append, List.append_assoc,
        List.append_assoc]
    | more a key b c v d ms =>
      refine ⟨a, key,
        Utf8.encode (b.text ++ ':' :: (c.text ++ (v.text ++ (d.text ++ ',' :: ms.text)))) ++ y, ?_⟩
      rw [h, Members.text, Utf8.encode_append, Utf8.encode_append, List.append_assoc,
        List.append_assoc]
  obtain ⟨a, key, z, hp⟩ := hsplit
  have hskip := skipWs_eq hp (head_str key z)
  have hrest := rest_skip hp
  rw [← hskip] at hrest
  constructor
  · exact skipWs_eq (b := []) hrest (head_str key z)
  · rw [peek_eq, hrest, encode_str]
    rfl

/-- `field` on the text of an object. -/
theorem lookup_object (before after : Blank) (o : Object) (want : List Char) :
    lookup (Utf8.encode (before.text ++ (o.text ++ after.text))) (Utf8.encode want) =
      .ok ((o.toList.find? fun m => m.1.raw = want).map fun m => located m.2) := by
  generalize hjson : Utf8.encode (before.text ++ (o.text ++ after.text)) = json
  have hstart : (Parser.rest ⟨json, 0⟩) = json := List.drop_zero
  cases o with
  | empty ws =>
    have h : Parser.rest ⟨json, 0⟩ = Utf8.encode before.text ++ openBrace ::
        (Utf8.encode ws.text ++ closeBrace :: Utf8.encode after.text) := by
      rw [hstart, ← hjson, Object.text, Utf8.encode_append, Utf8.encode_append, encode_braces]
      simp only [List.cons_append, List.append_assoc, List.nil_append]
      rfl
    have h₁ := Parser.rest_skip h
    have h₂ := Parser.rest_skip_one h₁
    have h₃ := Parser.rest_skip h₂
    rw [lookup, Parser.skipWs_eq h (head_cons (by decide) _), Parser.expect_eq h₁]
    show (if Parser.peek (Parser.skipWs _) = some closeBrace then _ else _) = _
    rw [Parser.skipWs_eq h₂ (head_cons (by decide) _), Parser.peek_eq, h₃]
    rfl
  | of ms =>
    have h : Parser.rest ⟨json, 0⟩ = Utf8.encode before.text ++ openBrace ::
        (Utf8.encode ms.text ++ closeBrace :: Utf8.encode after.text) := by
      rw [hstart, ← hjson, Object.text, Utf8.encode_append, Utf8.encode_append, encode_braces]
      simp only [List.cons_append, List.append_assoc, List.nil_append]
      rfl
    have h₁ := Parser.rest_skip h
    have h₂ := Parser.rest_skip_one h₁
    obtain ⟨hagain, hpeek⟩ := Parser.skipWs_members h₂
    have hlen : (Utf8.encode ms.text).length < json.length + 1 := by
      rw [← hstart, h]
      simp only [List.length_append, List.length_cons]
      omega
    rw [lookup, Parser.skipWs_eq h (head_cons (by decide) _), Parser.expect_eq h₁]
    show (if Parser.peek (Parser.skipWs _) = some closeBrace then _ else _) = _
    rw [hpeek, if_neg (by decide), Parser.member, hagain, ← Parser.member]
    exact Parser.member_eq want ms hlen h₂

/-- **The first member with the key, or none.** -/
theorem field_object (before after : Blank) (o : Object) (want : List Char) :
    field (Utf8.encode (before.text ++ (o.text ++ after.text))) (Utf8.encode want) =
      .ok ((o.toList.find? fun m => m.1.raw = want).map fun m => located m.2) :=
  Settles.result_eq _ (lookup_object before after o want)

theorem field_first (before after : Blank) (o : Object) (name : List Char) :
    field (Utf8.encode (Rfc8259.Document.text ⟨before, .object o, after⟩)) (Utf8.encode name) =
      .ok ((o.first name).map located) := by
  rw [Object.first, Option.map_map]
  exact field_object before after o name

/-- A bracket is no brace. -/
theorem field_array (a : Rfc8259.Array) (want : List UInt8) :
    field (Utf8.encode a.text) want = .error .malformed := by
  obtain ⟨y, hy⟩ : ∃ y, Utf8.encode a.text = openBracket :: y := by
    cases a with
    | empty ws => exact ⟨_, encode_brackets _⟩
    | of es => exact ⟨_, encode_brackets _⟩
  have hrest : Parser.rest ⟨Utf8.encode a.text, 0⟩ = openBracket :: y := hy
  have hskip : Parser.skipWs ⟨Utf8.encode a.text, 0⟩ = ⟨Utf8.encode a.text, 0⟩ :=
    Parser.skipWs_eq (b := []) hrest (head_cons (by decide) _)
  refine Settles.result_error _ ?_
  have hexpect : Parser.expect ⟨Utf8.encode a.text, 0⟩ openBrace = .error (.error .malformed) := by
    have hne : (some openBracket : Option UInt8) ≠ some openBrace := by decide
    rw [Parser.expect, Parser.next_eq hrest]
    exact if_neg hne
  rw [lookup, hskip, hexpect]
  rfl

/-- **A field of an object**: the value of the first member whose key is written like
this, or nothing, if no member's is.  The members of nested values do not count. -/
theorem field_first_member (before after : Blank) (o : Object) (want : List Char) :
    let r := field (Utf8.encode (Rfc8259.Document.text ⟨before, .object o, after⟩))
      (Utf8.encode want)
    (∀ v, r = .ok (some v) ↔ ∃ ms key value ms', o.toList = ms ++ (key, value) :: ms' ∧
      key.raw = want ∧ (∀ m ∈ ms, m.1.raw ≠ want) ∧ located value = v) ∧
    (r = .ok none ↔ ∀ m ∈ o.toList, m.1.raw ≠ want) ∧
    ∃ found, r = .ok found := by
  intro r
  have hr : r = .ok ((o.toList.find? fun m => m.1.raw = want).map fun m => located m.2) :=
    field_object before after o want
  refine ⟨fun v => ?_, ?_, _, hr⟩
  · rw [hr]
    constructor
    · intro h
      obtain ⟨⟨key, value⟩, hfind, hv⟩ := Option.map_eq_some_iff.mp (Except.ok.inj h)
      obtain ⟨hkey, ms, ms', hsplit, hms⟩ := List.find?_eq_some_iff_append.mp hfind
      refine ⟨ms, key, value, ms', hsplit, of_decide_eq_true hkey, fun m hm hw => ?_, hv⟩
      have hno := hms m hm
      rw [decide_eq_true hw] at hno
      cases hno
    · rintro ⟨ms, key, value, ms', hsplit, hkey, hms, rfl⟩
      have hfind : o.toList.find? (fun m => m.1.raw = want) = some (key, value) := by
        refine List.find?_eq_some_iff_append.mpr ⟨decide_eq_true hkey, ms, ms', hsplit, ?_⟩
        intro m hm
        rw [decide_eq_false (hms m hm)]
        rfl
      rw [hfind]
      rfl
  · rw [hr]
    constructor
    · intro h m hm hw
      have hnone := Option.map_eq_none_iff.mp (Except.ok.inj h)
      exact List.find?_eq_none.mp hnone m hm (decide_eq_true hw)
    · intro h
      have hnone : o.toList.find? (fun m => m.1.raw = want) = none :=
        List.find?_eq_none.mpr fun m hm hw => h m hm (of_decide_eq_true hw)
      rw [hnone]
      rfl

/-! ### The elements of an array -/

/-- One call of the iterator that has a value in front of it. -/
theorem Elements.next_eq {e : Elements} {w a : Blank} {v : Rfc8259.Value} {y : List UInt8}
    (hdone : e.done = false)
    (h : e.p.rest = Utf8.encode w.text ++ (if e.started then comma else openBracket) ::
      (Utf8.encode a.text ++ (Utf8.encode v.text ++ y)))
    (hy : ∀ c ∈ y.head?, isNumeric c = false) :
    ∃ q : Parser, q.rest = y ∧ e.next = .ok (some (located v), ⟨q, true, false⟩) := by
  have hdelimiter : isSpace (if e.started then comma else openBracket) = false := by
    cases e.started
    · decide
    · decide
  have h₁ := Parser.rest_skip h
  have h₂ := Parser.rest_skip_one h₁
  have h₃ := Parser.rest_skip h₂
  have hvalue := Parser.skipWs_eq h₂ fun c hc => (head_value v y c hc).1
  have hpeek : ¬ (Parser.skip (Parser.skip (e.p.skip (Utf8.encode w.text).length) 1)
      (Utf8.encode a.text).length).peek = some closeBracket := by
    rw [Parser.peek_eq, h₃]
    exact fun hc => (head_value v y _ hc).2 rfl
  refine ⟨_, Parser.rest_skip h₃, ?_⟩
  unfold next
  rw [hdone, if_neg Bool.false_ne_true, Parser.skipWs_eq h (head_cons hdelimiter _),
    Parser.next_eq h₁]
  simp only [ne_eq, not_true_eq_false, if_false]
  rw [hvalue, if_neg hpeek, Parser.parseValue_eq h₃ hy]
  rfl

/-- The iteration ends at a closing bracket. -/
theorem Elements.next_end {e : Elements} {w : Blank} {y : List UInt8} (hstarted : e.started = true)
    (hdone : e.done = false) (h : e.p.rest = Utf8.encode w.text ++ closeBracket :: y) :
    ∃ e', e.next = .ok (none, e') := by
  unfold next
  rw [hdone, if_neg Bool.false_ne_true, Parser.skipWs_eq h (head_cons (by decide) _),
    Parser.next_eq (Parser.rest_skip h), hstarted]
  exact ⟨_, rfl⟩

/-- An array that is empty. -/
theorem Elements.next_empty {e : Elements} {ws : Blank} {y : List UInt8}
    (hstarted : e.started = false) (hdone : e.done = false)
    (h : e.p.rest = openBracket :: (Utf8.encode ws.text ++ closeBracket :: y)) :
    ∃ e', e.next = .ok (none, e') := by
  have hskip : e.p.skipWs = e.p := Parser.skipWs_eq (b := []) h (head_cons (by decide) _)
  have hrest := Parser.rest_skip_one h
  have hpeek : (Parser.skip (e.p.skip 1) (Utf8.encode ws.text).length).peek =
      some closeBracket := by
    rw [Parser.peek_eq, Parser.rest_skip hrest]
    rfl
  unfold next
  rw [hdone, if_neg Bool.false_ne_true, hskip, Parser.next_eq h, hstarted]
  simp only [Bool.false_eq_true, if_false, ne_eq, not_true_eq_false]
  rw [Parser.skipWs_eq hrest (head_cons (by decide) _), if_pos hpeek]
  exact ⟨_, rfl⟩

/-- The iteration over what is left of an array. -/
theorem Elements.collect_eq (es : Rfc8259.Elements) {k : ℕ} {e : Elements} {w : Blank}
    {y : List UInt8} (hdone : e.done = false) (hk : (Utf8.encode es.text).length + 1 < k)
    (h : e.p.rest = Utf8.encode w.text ++ (if e.started then comma else openBracket) ::
      (Utf8.encode es.text ++ closeBracket :: y)) :
    collect k e = .ok (es.toList.map located) := by
  obtain ⟨k, rfl⟩ : ∃ j, k = j + 1 := ⟨k - 1, by omega⟩
  match es with
  | .one a v b =>
    have hp : e.p.rest = Utf8.encode w.text ++ (if e.started then comma else openBracket) ::
        (Utf8.encode a.text ++ (Utf8.encode v.text ++
          (Utf8.encode b.text ++ closeBracket :: y))) := by
      rw [h]
      simp only [Rfc8259.Elements.text, Utf8.encode_append, List.append_assoc]
    obtain ⟨q, hq, hnext⟩ := next_eq hdone hp (head_blank b (head_cons (by decide) _))
    obtain ⟨e', hend⟩ := next_end (e := ⟨q, true, false⟩) rfl rfl hq
    obtain ⟨k, rfl⟩ : ∃ j, k = j + 1 := ⟨k - 1, by omega⟩
    rw [collect, hnext]
    show (do return located v :: (← collect (k + 1) ⟨q, true, false⟩)) = _
    rw [collect, hend]
    rfl
  | .more a v b es =>
    have hp : e.p.rest = Utf8.encode w.text ++ (if e.started then comma else openBracket) ::
        (Utf8.encode a.text ++ (Utf8.encode v.text ++
          (Utf8.encode b.text ++ comma :: (Utf8.encode es.text ++ closeBracket :: y)))) := by
      rw [h]
      simp only [Rfc8259.Elements.text, Utf8.encode_append, encode_cons_comma, List.append_assoc,
        List.cons_append]
    have hlen : (Utf8.encode es.text).length + 1 < k := by
      simp only [Rfc8259.Elements.text, Utf8.encode_append, encode_cons_comma, List.length_append,
        List.length_cons] at hk
      omega
    obtain ⟨q, hq, hnext⟩ := next_eq hdone hp (head_blank b (head_cons (by decide) _))
    rw [collect, hnext]
    show (do return located v :: (← collect k ⟨q, true, false⟩)) = _
    rw [collect_eq es (e := ⟨q, true, false⟩) rfl hlen hq]
    rfl

/-- **The elements of an array**, in order and whole. -/
theorem elements_array (a : Rfc8259.Array) :
    elements (Utf8.encode a.text) = a.toList.map located := by
  refine returned_eq ?_
  have hstart : (Elements.new (Utf8.encode a.text)).p.rest = Utf8.encode a.text := List.drop_zero
  cases a with
  | empty ws =>
    have h : (Elements.new (Utf8.encode (Rfc8259.Array.empty ws).text)).p.rest =
        openBracket :: (Utf8.encode ws.text ++ [closeBracket]) := by
      rw [hstart, Rfc8259.Array.text, encode_brackets]
      rfl
    obtain ⟨e', hend⟩ := Elements.next_empty rfl rfl h
    rw [Elements.collect, hend]
    rfl
  | of es =>
    refine Elements.collect_eq es (w := []) (y := []) rfl ?_ ?_
    · rw [Rfc8259.Array.text, encode_brackets]
      simp only [List.length_append, List.length_cons, List.length_nil]
      omega
    · rw [hstart, Rfc8259.Array.text, encode_brackets]
      rfl

/-- A brace is no bracket. -/
theorem elements_object (o : Object) : elements (Utf8.encode o.text) = [] := by
  obtain ⟨y, hy⟩ : ∃ y, Utf8.encode o.text = openBrace :: y := by
    cases o with
    | empty ws => exact ⟨_, encode_braces _⟩
    | of ms => exact ⟨_, encode_braces _⟩
  have hrest : Parser.rest ⟨Utf8.encode o.text, 0⟩ = openBrace :: y := hy
  have hskip : Parser.skipWs ⟨Utf8.encode o.text, 0⟩ = ⟨Utf8.encode o.text, 0⟩ :=
    Parser.skipWs_eq (b := []) hrest (head_cons (by decide) _)
  have hne : (some openBrace : Option UInt8) ≠ some openBracket := by decide
  refine elements_eq_nil ?_
  rw [hskip, Parser.peek_eq, hrest]
  exact hne

end Lando.Json
