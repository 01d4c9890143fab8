/-
Lando/Rfc8259.lean

JSON texts (RFC 8259): the grammar, and what a text denotes.

The grammar is a type of syntax trees that keep everything the text says: blanks,
escapes, the digits of numbers.  A tree has a text and a meaning,

    text : Value → List Char          what stands in the document
    tree : Value → Option Tree        what a decoder makes of it

and the values of RFC 8259 are just the texts of trees: each constructor is one
production.  The meaning fails only at a surrogate that is not half of a pair.
-/
import Mathlib.Algebra.Field.Rat
import Mathlib.Data.List.Basic

namespace Rfc8259

/-! ### Blanks -/

/-- The four characters of `ws`. -/
inductive Space
  | space
  | tab
  | newline
  | carriageReturn
  deriving DecidableEq

/-- The character. -/
def Space.char : Space → Char
  | space => ' '
  | tab => '\t'
  | newline => '\n'
  | carriageReturn => '\r'

/-- `ws`. -/
abbrev Blank := List Space

/-- `ws`, as it stands. -/
def Blank.text (b : Blank) : List Char := b.map Space.char

/-! ### Strings -/

/-- `unescaped`. -/
def Unescaped (c : Char) : Prop := 0x20 ≤ c.toNat ∧ c ≠ '"' ∧ c ≠ '\\'

instance (c : Char) : Decidable (Unescaped c) := inferInstanceAs (Decidable (_ ∧ _ ∧ _))

/-- The escapes of one letter. -/
inductive Escape
  | quotationMark
  | reverseSolidus
  | solidus
  | backspace
  | formFeed
  | lineFeed
  | carriageReturn
  | tab
  deriving DecidableEq

namespace Escape

/-- What stands behind the backslash. -/
def letter : Escape → Char
  | quotationMark => '"'
  | reverseSolidus => '\\'
  | solidus => '/'
  | backspace => 'b'
  | formFeed => 'f'
  | lineFeed => 'n'
  | carriageReturn => 'r'
  | tab => 't'

/-- What is meant. -/
def char : Escape → Char
  | quotationMark => '"'
  | reverseSolidus => '\\'
  | solidus => '/'
  | backspace => '\x08'
  | formFeed => '\x0c'
  | lineFeed => '\n'
  | carriageReturn => '\r'
  | tab => '\t'

end Escape

/-- The value of a hexadecimal digit. -/
def hexValue (c : Char) : Option ℕ :=
  if '0' ≤ c ∧ c ≤ '9' then some (c.toNat - 0x30)
  else if 'a' ≤ c ∧ c ≤ 'f' then some (c.toNat - 0x61 + 10)
  else if 'A' ≤ c ∧ c ≤ 'F' then some (c.toNat - 0x41 + 10)
  else none

/-- `HEXDIG`. -/
structure HexDigit where
  char : Char
  valid : (hexValue char).isSome
  deriving DecidableEq

/-- Its value, in either case. -/
def HexDigit.value (d : HexDigit) : ℕ := (hexValue d.char).get d.valid

/-- `char`: a character, or an escape. -/
inductive Piece
  | plain (c : Char) (h : Unescaped c)
  | escape (e : Escape)
  | unicode (a b c d : HexDigit)
  deriving DecidableEq

/-- The piece as it stands. -/
def Piece.text : Piece → List Char
  | plain c _ => [c]
  | escape e => ['\\', e.letter]
  | unicode a b c d => ['\\', 'u', a.char, b.char, c.char, d.char]

/-- `string`, without its quotation marks. -/
abbrev Str := List Piece

namespace Str

/-- What stands between the quotation marks. -/
def raw (s : Str) : List Char := s.flatMap Piece.text

/-- The string in its quotation marks. -/
def text (s : Str) : List Char := '"' :: (raw s ++ ['"'])

/-- A code unit of UTF-16. -/
def codeUnit (a b c d : HexDigit) : ℕ :=
  ((a.value * 16 + b.value) * 16 + c.value) * 16 + d.value

/-- The first half of a surrogate pair. -/
def isHigh (n : ℕ) : Bool := 0xd800 ≤ n && n < 0xdc00

/-- The second half of a surrogate pair. -/
def isLow (n : ℕ) : Bool := 0xdc00 ≤ n && n < 0xe000

/-- The character of a surrogate pair. -/
def pair (high low : ℕ) : Char := .ofNat (0x10000 + (high - 0xd800) * 0x400 + (low - 0xdc00))

/-- The string that is meant.  A code unit that is half of a pair needs the other
half behind it. -/
def decode : Str → Option (List Char)
  | [] => some []
  | .plain c _ :: ps => (decode ps).map (c :: ·)
  | .escape e :: ps => (decode ps).map (e.char :: ·)
  | .unicode a b c d :: ps =>
      if isHigh (codeUnit a b c d) then
        match ps with
        | .unicode a' b' c' d' :: ps =>
            if isLow (codeUnit a' b' c' d') then
              (decode ps).map (pair (codeUnit a b c d) (codeUnit a' b' c' d') :: ·)
            else none
        | _ => none
      else if isLow (codeUnit a b c d) then none
      else (decode ps).map (Char.ofNat (codeUnit a b c d) :: ·)

end Str

/-! ### Numbers -/

/-- `DIGIT`. -/
abbrev Digit := Fin 10

/-- The character. -/
def Digit.char (d : Digit) : Char := .ofNat (0x30 + d.val)

/-- The last digit of a number. -/
def Digit.ofNat (n : ℕ) : Digit := Fin.ofNat 10 n

/-- `1*DIGIT`. -/
structure Digits where
  list : List Digit
  nonempty : list ≠ []
  deriving DecidableEq

namespace Digits

/-- The digits as they stand. -/
def text (ds : Digits) : List Char := ds.list.map Digit.char

/-- Their value, in decimal. -/
def value (ds : Digits) : ℕ := ds.list.foldl (fun n d => 10 * n + d.val) 0

/-- No leading zeros. -/
def Proper (ds : Digits) : Prop := ds.list.head? = some 0 → ds.list.length = 1

instance (ds : Digits) : Decidable ds.Proper := inferInstanceAs (Decidable (_ → _))

end Digits

/-- `exp`. -/
structure Exponent where
  upper : Bool
  sign : Option Bool
  digits : Digits
  deriving DecidableEq

/-- The sign, if there is one. -/
def signText : Option Bool → List Char
  | none => []
  | some true => ['-']
  | some false => ['+']

namespace Exponent

/-- `exp`, as it stands. -/
def text (e : Exponent) : List Char :=
  (if e.upper then 'E' else 'e') :: (signText e.sign ++ e.digits.text)

/-- Its value. -/
def value (e : Exponent) : ℤ := if e.sign = some true then -e.digits.value else e.digits.value

end Exponent

/-- `frac`, which may be absent. -/
def fracText : Option Digits → List Char
  | none => []
  | some ds => '.' :: ds.text

/-- `exp`, which may be absent. -/
def expText : Option Exponent → List Char
  | none => []
  | some e => e.text

/-- `number`. -/
structure Number where
  minus : Bool
  int : Digits
  proper : int.Proper
  frac : Option Digits
  exp : Option Exponent
  deriving DecidableEq

namespace Number

/-- `number`, as it stands. -/
def text (n : Number) : List Char :=
  (if n.minus then ['-'] else []) ++ (n.int.text ++ (fracText n.frac ++ expText n.exp))

/-- Its value, exactly. -/
def value (n : Number) : ℚ :=
  (if n.minus then -1 else 1) *
    (n.int.value + (match n.frac with
      | none => 0
      | some ds => ds.value / 10 ^ ds.list.length)) *
    match n.exp with
      | none => 1
      | some e => 10 ^ e.value

end Number

/-! ### Values -/

mutual

/-- `value`. -/
inductive Value
  | null
  | bool (b : Bool)
  | number (n : Number)
  | string (s : Str)
  | array (a : Array)
  | object (o : Object)

/-- `array`. -/
inductive Array
  | empty (ws : Blank)
  | of (es : Elements)

/-- `object`. -/
inductive Object
  | empty (ws : Blank)
  | of (ms : Members)

/-- The values of an array, each with its blanks. -/
inductive Elements
  | one (a : Blank) (v : Value) (b : Blank)
  | more (a : Blank) (v : Value) (b : Blank) (es : Elements)

/-- The members of an object, each with its blanks. -/
inductive Members
  | one (a : Blank) (key : Str) (b c : Blank) (v : Value) (d : Blank)
  | more (a : Blank) (key : Str) (b c : Blank) (v : Value) (d : Blank) (ms : Members)

end

mutual

/-- `value`, as it stands. -/
def Value.text : Value → List Char
  | .null => "null".toList
  | .bool true => "true".toList
  | .bool false => "false".toList
  | .number n => n.text
  | .string s => s.text
  | .array a => a.text
  | .object o => o.text

/-- `array`, as it stands. -/
def Array.text : Array → List Char
  | .empty ws => '[' :: (ws.text ++ [']'])
  | .of es => '[' :: (es.text ++ [']'])

/-- `object`, as it stands. -/
def Object.text : Object → List Char
  | .empty ws => '{' :: (ws.text ++ ['}'])
  | .of ms => '{' :: (ms.text ++ ['}'])

/-- The elements and the commas between them. -/
def Elements.text : Elements → List Char
  | .one a v b => a.text ++ (v.text ++ b.text)
  | .more a v b es => a.text ++ (v.text ++ (b.text ++ ',' :: es.text))

/-- The members and the commas between them. -/
def Members.text : Members → List Char
  | .one a key b c v d => a.text ++ (key.text ++ (b.text ++ ':' :: (c.text ++ (v.text ++ d.text))))
  | .more a key b c v d ms =>
      a.text ++ (key.text ++ (b.text ++ ':' :: (c.text ++ (v.text ++ (d.text ++ ',' :: ms.text)))))

end

/-- The values of an array. -/
def Elements.toList : Elements → List Value
  | .one _ v _ => [v]
  | .more _ v _ es => v :: es.toList

/-- The elements, in order. -/
def Array.toList : Array → List Value
  | .empty _ => []
  | .of es => es.toList

/-- The members of an object. -/
def Members.toList : Members → List (Str × Value)
  | .one _ key _ _ v _ => [(key, v)]
  | .more _ key _ _ v _ ms => (key, v) :: ms.toList

/-- The members, in order. -/
def Object.toList : Object → List (Str × Value)
  | .empty _ => []
  | .of ms => ms.toList

/-- The value of the first member whose key is written like this. -/
def Object.first (o : Object) (name : List Char) : Option Value :=
  (o.toList.find? fun m => m.1.raw = name).map Prod.snd

/-- `JSON-text`. -/
structure Document where
  before : Blank
  value : Value
  after : Blank

/-- `JSON-text`, as it stands. -/
def Document.text (d : Document) : List Char := d.before.text ++ (d.value.text ++ d.after.text)

/-! ### Meaning -/

/-- What a text denotes.  The members of an object keep their order. -/
inductive Tree
  | null
  | bool (b : Bool)
  | number (q : ℚ)
  | string (s : List Char)
  | array (values : List Tree)
  | object (members : List (List Char × Tree))

mutual

/-- What the value means; a string with half of a surrogate pair means nothing. -/
def Value.tree : Value → Option Tree
  | .null => some .null
  | .bool b => some (.bool b)
  | .number n => some (.number n.value)
  | .string s => s.decode.map .string
  | .array a => a.trees.map .array
  | .object o => o.trees.map .object

/-- What the elements mean. -/
def Array.trees : Array → Option (List Tree)
  | .empty _ => some []
  | .of es => es.trees

/-- What the members mean. -/
def Object.trees : Object → Option (List (List Char × Tree))
  | .empty _ => some []
  | .of ms => ms.trees

/-- What the elements mean. -/
def Elements.trees : Elements → Option (List Tree)
  | .one _ v _ => v.tree.map ([·])
  | .more _ v _ es => do return (← v.tree) :: (← es.trees)

/-- What the members mean. -/
def Members.trees : Members → Option (List (List Char × Tree))
  | .one _ key _ _ v _ => do return [(← key.decode, ← v.tree)]
  | .more _ key _ _ v _ ms => do return (← key.decode, ← v.tree) :: (← ms.trees)

end

/-! ### Escapes -/

namespace Str

theorem length_raw_cons (p : Piece) (ps : Str) :
    (raw (p :: ps)).length = p.text.length + (raw ps).length := List.length_append

/-- A string is at least as long as what it means, and longer if it has an escape. -/
theorem length_decode {s : Str} {u : List Char} (h : s.decode = some u) :
    u.length ≤ s.raw.length ∧ ('\\' ∈ s.raw → u.length < s.raw.length) := by
  have hescape : ∀ (e : Escape), (Piece.escape e).text.length = 2 := fun e => rfl
  have hunicode : ∀ a b c d : HexDigit, (Piece.unicode a b c d).text.length = 6 :=
    fun a b c d => rfl
  induction s using Str.decode.induct generalizing u with
  | case1 =>
    obtain rfl := Option.some.inj h
    exact ⟨Nat.le_refl _, fun hmem => absurd hmem List.not_mem_nil⟩
  -- a character that stands for itself
  | case2 c hc ps ih =>
    obtain ⟨v, hv, rfl⟩ := Option.map_eq_some_iff.mp h
    obtain ⟨hle, hlt⟩ := ih hv
    have hlen : (raw (.plain c hc :: ps)).length = (raw ps).length + 1 := rfl
    refine ⟨by rw [hlen, List.length_cons]; omega, fun hmem => ?_⟩
    rcases List.mem_cons.mp hmem with hsame | hmem
    · exact absurd hsame.symm hc.2.2
    · have := hlt hmem
      rw [hlen, List.length_cons]
      omega
  | case3 e ps ih =>
    obtain ⟨v, hv, rfl⟩ := Option.map_eq_some_iff.mp h
    -- an escape takes two characters, or six, or twelve for one that is past 16 bits
    have hle := (ih hv).1
    rw [length_raw_cons, hescape, List.length_cons]
    omega
  | case4 a b c d hhigh a' b' c' d' ps hlow ih =>
    rw [decode, if_pos hhigh, if_pos hlow] at h
    obtain ⟨v, hv, rfl⟩ := Option.map_eq_some_iff.mp h
    have hle := (ih hv).1
    rw [length_raw_cons, length_raw_cons, hunicode, hunicode, List.length_cons]
    omega
  | case5 a b c d hhigh a' b' c' d' ps hlow =>
    rw [decode, if_pos hhigh, if_neg hlow] at h
    cases h
  | case6 a b c d ps hhigh hnot =>
    rw [decode.eq_def] at h
    simp only [if_pos hhigh] at h
    cases h
  | case7 a b c d ps hhigh hlow =>
    rw [decode.eq_def] at h
    simp only [if_neg hhigh, if_pos hlow] at h
    cases h
  | case8 a b c d ps hhigh hlow ih =>
    rw [decode.eq_def] at h
    simp only [if_neg hhigh, if_neg hlow] at h
    obtain ⟨v, hv, rfl⟩ := Option.map_eq_some_iff.mp h
    have hle := (ih hv).1
    rw [length_raw_cons, hunicode, List.length_cons]
    omega

/-- A string without escapes means what it says. -/
theorem decode_of_plain {s : Str} (h : '\\' ∉ s.raw) : s.decode = some s.raw := by
  induction s with
  | nil => rfl
  | cons p ps ih =>
    have hps : decode ps = some (raw ps) := ih fun hmem => h (List.mem_append_right _ hmem)
    cases p with
    | plain c hc =>
      rw [decode, hps]
      rfl
    | escape e => exact absurd (List.mem_append_left _ List.mem_cons_self) h
    | unicode a b c d => exact absurd (List.mem_append_left _ List.mem_cons_self) h

/-- **A string is written as it is meant just if it has no escape.** -/
theorem raw_eq_iff {s : Str} {u : List Char} (h : s.decode = some u) :
    s.raw = u ↔ '\\' ∉ s.raw := by
  constructor
  · rintro rfl hmem
    exact Nat.lt_irrefl _ ((length_decode h).2 hmem)
  · intro hplain
    exact Option.some.inj ((decode_of_plain hplain).symm.trans h)

end Str

end Rfc8259
