/-
Lando/Rfc8259Parser.lean

A reference parser for JSON texts (RFC 8259), and that it is one:

    parse cs = some d  ↔  d.text = cs

for every text and every syntax tree.  So a text has one tree at most, and what
it means is well defined.

The parser reads the longest run of blanks and of digits; the completeness of
each part therefore asks for what stands behind the part.  A value is followed
by a blank, a comma, a closing bracket, or nothing (`Ends`).
-/
import Lando.Rfc8259
import Lando.Utf8

namespace Rfc8259

/-! ### Runs -/

section Run

variable {α : Type} {f : Char → Option α} {g : α → Char}

/-- The longest run of characters that `f` reads. -/
def run (f : Char → Option α) : List Char → List α × List Char
  | [] => ([], [])
  | c :: cs =>
      match f c with
      | none => ([], c :: cs)
      | some x => (x :: (run f cs).1, (run f cs).2)

theorem run_append (hf : ∀ x, f (g x) = some x) (xs : List α) {rest : List Char}
    (h : ∀ c ∈ rest.head?, f c = none) : run f (xs.map g ++ rest) = (xs, rest) := by
  induction xs with
  | nil =>
    rcases rest with - | ⟨c, cs⟩
    · rfl
    · rw [List.map_nil, List.nil_append, run, h c rfl]
  | cons x xs ih => rw [List.map_cons, List.cons_append, run, hf, ih]

theorem run_sound (hf : ∀ c x, f c = some x → g x = c) (cs : List Char) :
    (run f cs).1.map g ++ (run f cs).2 = cs := by
  induction cs with
  | nil => rfl
  | cons c cs ih =>
    rw [run]
    rcases hc : f c with - | x
    · rfl
    · show g x :: ((run f cs).1.map g ++ (run f cs).2) = c :: cs
      rw [ih, hf c x hc]

end Run

/-! ### The parser -/

/-- The space that the character is. -/
def Space.read (c : Char) : Option Space :=
  if c = ' ' then some .space
  else if c = '\t' then some .tab
  else if c = '\n' then some .newline
  else if c = '\r' then some .carriageReturn
  else none

/-- `ws`, as far as it goes. -/
def blanks (cs : List Char) : Blank × List Char := run Space.read cs

/-- The hexadecimal digit that the character is. -/
def HexDigit.read (c : Char) : Option HexDigit :=
  if h : (hexValue c).isSome then some ⟨c, h⟩ else none

/-- The escape that the letter stands for. -/
def Escape.read (c : Char) : Option Escape :=
  if c = '"' then some .quotationMark
  else if c = '\\' then some .reverseSolidus
  else if c = '/' then some .solidus
  else if c = 'b' then some .backspace
  else if c = 'f' then some .formFeed
  else if c = 'n' then some .lineFeed
  else if c = 'r' then some .carriageReturn
  else if c = 't' then some .tab
  else none

/-- A string, behind its opening quotation mark. -/
def str : List Char → Option (Str × List Char)
  | [] => none
  | c :: cs =>
      if c = '"' then some ([], cs)
      else if c = '\\' then
        match cs with
        | [] => none
        | e :: cs =>
            if e = 'u' then
              match cs with
              | a :: b :: c :: d :: cs => do
                  let a ← HexDigit.read a
                  let b ← HexDigit.read b
                  let c ← HexDigit.read c
                  let d ← HexDigit.read d
                  let (s, cs) ← str cs
                  return (.unicode a b c d :: s, cs)
              | _ => none
            else do
              let e ← Escape.read e
              let (s, cs) ← str cs
              return (.escape e :: s, cs)
      else if h : Unescaped c then do
        let (s, cs) ← str cs
        return (.plain c h :: s, cs)
      else none

/-- The digit that the character is. -/
def Digit.read (c : Char) : Option Digit :=
  if h : 0x30 ≤ c.toNat ∧ c.toNat ≤ 0x39 then some ⟨c.toNat - 0x30, by omega⟩ else none

/-- At least one digit. -/
def digits (cs : List Char) : Option (Digits × List Char) :=
  if h : (run Digit.read cs).1 ≠ [] then some (⟨(run Digit.read cs).1, h⟩, (run Digit.read cs).2)
  else none

/-- `frac`, if there is one. -/
def fraction : List Char → Option (Option Digits × List Char)
  | [] => some (none, [])
  | c :: cs =>
      if c = '.' then (digits cs).map fun r => (some r.1, r.2)
      else some (none, c :: cs)

/-- The sign of an exponent, if there is one. -/
def sign : List Char → Option Bool × List Char
  | [] => (none, [])
  | c :: cs =>
      if c = '-' then (some true, cs)
      else if c = '+' then (some false, cs)
      else (none, c :: cs)

/-- `exp`, if there is one. -/
def exponent : List Char → Option (Option Exponent × List Char)
  | [] => some (none, [])
  | c :: cs =>
      if c = 'e' ∨ c = 'E' then
        (digits (sign cs).2).map fun r => (some ⟨c = 'E', (sign cs).1, r.1⟩, r.2)
      else some (none, c :: cs)

/-- The sign of a number, if there is one. -/
def minus : List Char → Bool × List Char
  | [] => (false, [])
  | c :: cs => if c = '-' then (true, cs) else (false, c :: cs)

/-- `number`, without leading zeros. -/
def number (cs : List Char) : Option (Number × List Char) := do
  let (int, cs') ← digits (minus cs).2
  if h : int.Proper then
    let (frac, cs') ← fraction cs'
    let (exp, cs') ← exponent cs'
    return (⟨(minus cs).1, int, h, frac, exp⟩, cs')
  else none

/-- One of the three names. -/
def literal (lit : List Char) (v : Value) (cs : List Char) : Option (Value × List Char) :=
  (lit.isPrefixOf? cs).map fun cs => (v, cs)

mutual

/-- A value, with `k` levels and items at most. -/
def value : ℕ → List Char → Option (Value × List Char)
  | 0, _ => none
  | _, [] => none
  | k + 1, c :: cs =>
      if c = '"' then (str cs).map fun r => (.string r.1, r.2)
      else if c = '[' then
        if (blanks cs).2.head? = some ']' then
          some (.array (.empty (blanks cs).1), (blanks cs).2.tail)
        else (elements k cs).map fun r => (.array (.of r.1), r.2)
      else if c = '{' then
        if (blanks cs).2.head? = some '}' then
          some (.object (.empty (blanks cs).1), (blanks cs).2.tail)
        else (members k cs).map fun r => (.object (.of r.1), r.2)
      else if c = 'n' then literal "null".toList .null (c :: cs)
      else if c = 't' then literal "true".toList (.bool true) (c :: cs)
      else if c = 'f' then literal "false".toList (.bool false) (c :: cs)
      else (number (c :: cs)).map fun r => (.number r.1, r.2)

/-- The values of an array, with its closing bracket. -/
def elements : ℕ → List Char → Option (Elements × List Char)
  | 0, _ => none
  | k + 1, cs => do
      let (v, cs') ← value k (blanks cs).2
      match (blanks cs').2 with
      | ',' :: cs'' => do
          let (es, rest) ← elements k cs''
          return (.more (blanks cs).1 v (blanks cs').1 es, rest)
      | ']' :: rest => return (.one (blanks cs).1 v (blanks cs').1, rest)
      | _ => none

/-- The members of an object, with its closing bracket. -/
def members : ℕ → List Char → Option (Members × List Char)
  | 0, _ => none
  | k + 1, cs =>
      match (blanks cs).2 with
      | '"' :: cs₁ => do
          let (key, cs₂) ← str cs₁
          match (blanks cs₂).2 with
          | ':' :: cs₃ => do
              let (v, cs₄) ← value k (blanks cs₃).2
              match (blanks cs₄).2 with
              | ',' :: cs₅ => do
                  let (ms, rest) ← members k cs₅
                  return (.more (blanks cs).1 key (blanks cs₂).1 (blanks cs₃).1 v
                    (blanks cs₄).1 ms, rest)
              | '}' :: rest =>
                  return (.one (blanks cs).1 key (blanks cs₂).1 (blanks cs₃).1 v
                    (blanks cs₄).1, rest)
              | _ => none
          | _ => none
      | _ => none

end

/-- The syntax tree of a text. -/
def parse (cs : List Char) : Option Document := do
  let (v, cs') ← value cs.length (blanks cs).2
  if (blanks cs').2 = [] then return ⟨(blanks cs).1, v, (blanks cs').1⟩ else none

/-! ### Completeness: the parts -/

theorem Space.read_char (s : Space) : Space.read s.char = some s := by
  cases s <;> rfl

theorem blanks_text (b : Blank) {rest : List Char} (h : ∀ c ∈ rest.head?, Space.read c = none) :
    blanks (b.text ++ rest) = (b, rest) := run_append Space.read_char b h

theorem HexDigit.read_char (d : HexDigit) : HexDigit.read d.char = some d := by
  rw [HexDigit.read, dif_pos d.valid]

theorem Escape.read_letter (e : Escape) : Escape.read e.letter = some e := by
  cases e <;> rfl

theorem Escape.letter_ne (e : Escape) : e.letter ≠ 'u' := by
  cases e <;> decide

theorem str_raw (s : Str) (rest : List Char) : str (s.raw ++ '"' :: rest) = some (s, rest) := by
  have quote_ne : ¬ '\\' = '"' := by decide
  induction s with
  | nil =>
    show str ('"' :: rest) = _
    rw [str.eq_def]
    exact if_pos rfl
  | cons p s ih =>
    have hraw : Str.raw (p :: s) ++ '"' :: rest = p.text ++ (Str.raw s ++ '"' :: rest) := by
      rw [Str.raw, List.flatMap_cons, List.append_assoc]
      rfl
    rw [hraw]
    cases p with
    | plain c h =>
      show str (c :: (Str.raw s ++ '"' :: rest)) = _
      rw [str.eq_def]
      simp only [if_neg h.2.1, if_neg h.2.2, dif_pos h, ih]
      rfl
    | escape e =>
      show str ('\\' :: e.letter :: (Str.raw s ++ '"' :: rest)) = _
      rw [str.eq_def]
      simp only [quote_ne, if_false, if_true, if_neg e.letter_ne, e.read_letter, ih]
      rfl
    | unicode a b c d =>
      show str ('\\' :: 'u' :: a.char :: b.char :: c.char :: d.char ::
        (Str.raw s ++ '"' :: rest)) = _
      rw [str.eq_def]
      simp only [quote_ne, if_false, if_true, HexDigit.read_char, ih]
      rfl

theorem Digit.read_char (d : Digit) : Digit.read d.char = some d := by
  revert d
  decide +kernel

theorem digits_text (ds : Digits) {rest : List Char} (h : ∀ c ∈ rest.head?, Digit.read c = none) :
    digits (ds.text ++ rest) = some (ds, rest) := by
  have hrun : run Digit.read (ds.text ++ rest) = (ds.list, rest) := run_append Digit.read_char _ h
  unfold digits
  simp only [hrun]
  rw [dif_pos ds.nonempty]

/-- The first character of digits. -/
theorem Digits.head_text (ds : Digits) (rest : List Char) :
    ∃ (d : Digit) (cs : List Char), ds.text ++ rest = d.char :: cs := by
  obtain ⟨list, h⟩ := ds
  rcases list with - | ⟨d, list⟩
  · exact (h rfl).elim
  · exact ⟨d, _, rfl⟩

theorem Digit.char_ne (d : Digit) : d.char ≠ '-' ∧ d.char ≠ '+' := by
  revert d
  decide +kernel

/-- What may stand behind a number. -/
def NumberEnds (rest : List Char) : Prop :=
  ∀ c ∈ rest.head?, Digit.read c = none ∧ c ≠ '.' ∧ c ≠ 'e' ∧ c ≠ 'E'

theorem sign_text (s : Option Bool) (ds : Digits) (rest : List Char) :
    sign (signText s ++ (ds.text ++ rest)) = (s, ds.text ++ rest) := by
  obtain ⟨d, cs, hcs⟩ := ds.head_text rest
  rw [hcs]
  rcases s with - | - | -
  · show sign (d.char :: cs) = _
    rw [sign, if_neg d.char_ne.1, if_neg d.char_ne.2]
  · rfl
  · rfl

theorem exponent_text (e : Option Exponent) {rest : List Char} (h : NumberEnds rest) :
    exponent (expText e ++ rest) = some (e, rest) := by
  cases e with
  | none =>
    rcases rest with - | ⟨c, cs⟩
    · rfl
    · obtain ⟨-, -, he, hE⟩ := h c rfl
      show exponent (c :: cs) = _
      rw [exponent, if_neg (not_or.mpr ⟨he, hE⟩)]
  | some e =>
    obtain ⟨upper, s, ds⟩ := e
    have hds := digits_text ds fun c hc => (h c hc).1
    have htext : expText (some ⟨upper, s, ds⟩) ++ rest =
        (if upper then 'E' else 'e') :: (signText s ++ (ds.text ++ rest)) := by
      rw [expText, Exponent.text, List.cons_append, List.append_assoc]
    rw [htext, exponent, sign_text, hds]
    cases upper
    · rfl
    · rfl

theorem fraction_text (f : Option Digits) {rest : List Char}
    (h : ∀ c ∈ rest.head?, Digit.read c = none ∧ c ≠ '.') :
    fraction (fracText f ++ rest) = some (f, rest) := by
  cases f with
  | none =>
    rcases rest with - | ⟨c, cs⟩
    · rfl
    · show fraction (c :: cs) = _
      rw [fraction, if_neg (h c rfl).2]
  | some ds =>
    have hds := digits_text ds fun c hc => (h c hc).1
    show fraction ('.' :: (ds.text ++ rest)) = _
    rw [fraction, if_pos rfl, hds]
    rfl

/-- What stands behind the digits of a number. -/
theorem head_expText (e : Option Exponent) {rest : List Char} (h : NumberEnds rest) :
    ∀ c ∈ (expText e ++ rest).head?, Digit.read c = none ∧ c ≠ '.' := by
  intro c hc
  cases e with
  | none => exact ⟨(h c hc).1, (h c hc).2.1⟩
  | some e =>
    obtain ⟨upper, s, ds⟩ := e
    obtain rfl := Option.some.inj hc
    cases upper
    · show Digit.read 'e' = none ∧ 'e' ≠ '.'
      decide +kernel
    · show Digit.read 'E' = none ∧ 'E' ≠ '.'
      decide +kernel

theorem head_fracText (f : Option Digits) (e : Option Exponent) {rest : List Char}
    (h : NumberEnds rest) :
    ∀ c ∈ (fracText f ++ (expText e ++ rest)).head?, Digit.read c = none := by
  intro c hc
  cases f with
  | none => exact (head_expText e h c hc).1
  | some ds =>
    obtain rfl := Option.some.inj hc
    decide +kernel

theorem number_text (n : Number) {rest : List Char} (h : NumberEnds rest) :
    number (n.text ++ rest) = some (n, rest) := by
  obtain ⟨neg, int, proper, frac, exp⟩ := n
  have htext : Number.text ⟨neg, int, proper, frac, exp⟩ ++ rest =
      (if neg then ['-'] else []) ++
        (int.text ++ (fracText frac ++ (expText exp ++ rest))) := by
    simp only [Number.text, List.append_assoc]
  have hminus : minus (Number.text ⟨neg, int, proper, frac, exp⟩ ++ rest) =
      (neg, int.text ++ (fracText frac ++ (expText exp ++ rest))) := by
    rw [htext]
    cases neg
    · obtain ⟨d, cs, hcs⟩ := int.head_text (fracText frac ++ (expText exp ++ rest))
      show minus (int.text ++ (fracText frac ++ (expText exp ++ rest))) = _
      rw [hcs, minus, if_neg d.char_ne.1]
    · rfl
  unfold number
  simp only [hminus, digits_text int (head_fracText frac exp h), Option.bind_eq_bind,
    Option.bind_some, dif_pos proper, fraction_text frac (head_expText exp h),
    exponent_text exp h]
  rfl

/-! ### Completeness: values -/

/-- What stands behind a value: a blank, a comma, a closing bracket, or nothing. -/
def Ends (rest : List Char) : Prop :=
  ∀ c ∈ rest.head?, c ∈ [' ', '\t', '\n', '\r', ',', ']', '\x7d']

theorem Ends.number {rest : List Char} (h : Ends rest) : NumberEnds rest := by
  have htable : ∀ c ∈ [' ', '\t', '\n', '\r', ',', ']', '\x7d'],
      Digit.read c = none ∧ c ≠ '.' ∧ c ≠ 'e' ∧ c ≠ 'E' := Utf8.forall_table (by decide +kernel)
  exact fun c hc => htable c (h c hc)

theorem Ends.blank (b : Blank) {rest : List Char} (h : Ends rest) : Ends (b.text ++ rest) := by
  rcases b with - | ⟨s, b⟩
  · exact h
  · intro c hc
    obtain rfl := Option.some.inj hc
    cases s <;> decide

/-- What a value may start with. -/
def starts : List Char := ['"', '[', '\x7b', 'n', 't', 'f', '-', '0', '1', '2', '3', '4', '5', '6',
  '7', '8', '9']

theorem Digit.char_mem (d : Digit) : d.char ∈ starts ∧
    d.char ∉ ['"', '[', '\x7b', 'n', 't', 'f'] := by
  revert d
  decide +kernel

theorem Number.head_text (n : Number) (rest : List Char) : ∃ c ∈ starts, ∃ cs,
    n.text ++ rest = c :: cs ∧ c ∉ ['"', '[', '\x7b', 'n', 't', 'f'] := by
  obtain ⟨neg, int, proper, frac, exp⟩ := n
  cases neg
  · obtain ⟨d, cs, hcs⟩ := int.head_text (fracText frac ++ expText exp ++ rest)
    refine ⟨d.char, d.char_mem.1, cs, ?_, d.char_mem.2⟩
    rw [← hcs]
    simp only [Number.text, List.append_assoc]
    rfl
  · exact ⟨'-', by decide, _, rfl, by decide⟩

theorem Value.head_text (v : Value) (rest : List Char) :
    ∃ c ∈ starts, ∃ cs, v.text ++ rest = c :: cs := by
  cases v with
  | null => exact ⟨'n', by decide, _, rfl⟩
  | bool b =>
    cases b
    · exact ⟨'f', by decide, _, rfl⟩
    · exact ⟨'t', by decide, _, rfl⟩
  | number n =>
    obtain ⟨c, hc, cs, hcs, -⟩ := n.head_text rest
    exact ⟨c, hc, cs, hcs⟩
  | string s => exact ⟨'"', by decide, _, rfl⟩
  | array a =>
    cases a
    · exact ⟨'[', by decide, _, rfl⟩
    · exact ⟨'[', by decide, _, rfl⟩
  | object o =>
    cases o
    · exact ⟨'\x7b', by decide, _, rfl⟩
    · exact ⟨'\x7b', by decide, _, rfl⟩

theorem Value.text_length (v : Value) : 0 < v.text.length := by
  obtain ⟨c, -, cs, hcs⟩ := v.head_text []
  rw [List.append_nil] at hcs
  rw [hcs]
  exact Nat.succ_pos _

/-- Blanks in front of a value. -/
theorem blanks_value (b : Blank) (v : Value) (rest : List Char) :
    blanks (b.text ++ (v.text ++ rest)) = (b, v.text ++ rest) := by
  have htable : ∀ c ∈ starts, Space.read c = none := Utf8.forall_table (by decide +kernel)
  obtain ⟨c, hc, cs, hcs⟩ := v.head_text rest
  rw [hcs]
  apply blanks_text
  intro c' hc'
  obtain rfl := Option.some.inj hc'
  exact htable c hc

/-- Blanks in front of a character that is none. -/
theorem blanks_char (b : Blank) {c : Char} (h : Space.read c = none) (rest : List Char) :
    blanks (b.text ++ c :: rest) = (b, c :: rest) := by
  apply blanks_text
  intro c' hc'
  obtain rfl := Option.some.inj hc'
  exact h

theorem ends_cons {c : Char} (h : c ∈ [' ', '\t', '\n', '\r', ',', ']', '\x7d']) (rest : List Char) :
    Ends (c :: rest) := by
  intro c' hc'
  obtain rfl := Option.some.inj hc'
  exact h

theorem Elements.head_blanks (es : Elements) (rest : List Char) :
    ∃ c ∈ starts, ∃ cs, (blanks (es.text ++ rest)).2 = c :: cs := by
  cases es with
  | one a v b =>
    obtain ⟨c, hc, cs, hcs⟩ := v.head_text (b.text ++ rest)
    refine ⟨c, hc, cs, ?_⟩
    rw [Elements.text, List.append_assoc, List.append_assoc, blanks_value, hcs]
  | more a v b es =>
    obtain ⟨c, hc, cs, hcs⟩ := v.head_text (b.text ++ ',' :: es.text ++ rest)
    refine ⟨c, hc, cs, ?_⟩
    rw [Elements.text, List.append_assoc, List.append_assoc, blanks_value, hcs]

theorem Members.head_blanks (ms : Members) (rest : List Char) :
    ∃ cs, (blanks (ms.text ++ rest)).2 = '"' :: cs := by
  cases ms with
  | one a key b c v d =>
    rw [Members.text, Str.text, List.append_assoc, List.cons_append, List.cons_append,
      blanks_char a (by decide)]
    exact ⟨_, rfl⟩
  | more a key b c v d ms =>
    rw [Members.text, Str.text, List.append_assoc, List.cons_append, List.cons_append,
      blanks_char a (by decide)]
    exact ⟨_, rfl⟩

mutual

theorem value_text (v : Value) {k : ℕ} {rest : List Char} (hk : v.text.length ≤ k)
    (h : Ends rest) : value k (v.text ++ rest) = some (v, rest) := by
  have hpos := v.text_length
  obtain ⟨k, rfl⟩ : ∃ j, k = j + 1 := ⟨k - 1, by omega⟩
  match v with
  | .null => rfl
  | .bool true => rfl
  | .bool false => rfl
  | .number n =>
    obtain ⟨c, -, cs, hcs, hc⟩ := n.head_text rest
    have hnum := number_text n h.number
    simp only [List.mem_cons, List.not_mem_nil, or_false, not_or] at hc
    obtain ⟨h₁, h₂, h₃, h₄, h₅, h₆⟩ := hc
    rw [hcs] at hnum
    rw [Value.text, hcs, value, if_neg h₁, if_neg h₂, if_neg h₃, if_neg h₄, if_neg h₅, if_neg h₆,
      hnum]
    rfl
  | .string s =>
    have htext : Value.text (.string s) ++ rest = '"' :: (s.raw ++ '"' :: rest) := by
      rw [Value.text, Str.text, List.cons_append, List.append_assoc]
      rfl
    rw [htext, value, if_pos rfl, str_raw]
    rfl
  | .array a => exact array_text a hk
  | .object o => exact object_text o hk

theorem array_text (a : Array) {k : ℕ} {rest : List Char} (hk : a.text.length ≤ k + 1) :
    value (k + 1) (a.text ++ rest) = some (.array a, rest) := by
  match a with
  | .empty ws =>
    have htext : Array.text (.empty ws) ++ rest = '[' :: (ws.text ++ ']' :: rest) := by
      rw [Array.text, List.cons_append, List.append_assoc]
      rfl
    rw [htext, value, if_neg (by decide), if_pos rfl, blanks_char ws (by decide)]
    rfl
  | .of es =>
    have htext : Array.text (.of es) ++ rest = '[' :: (es.text ++ ']' :: rest) := by
      rw [Array.text, List.cons_append, List.append_assoc]
      rfl
    have hes : es.text.length < k := by
      rw [Array.text, List.length_cons, List.length_append, List.length_singleton] at hk
      omega
    have hhead : ¬ (blanks (es.text ++ ']' :: rest)).2.head? = some ']' := by
      have htable : ∀ c ∈ starts, c ≠ ']' := Utf8.forall_table (by decide)
      obtain ⟨c, hc, cs, hcs⟩ := es.head_blanks (']' :: rest)
      rw [hcs]
      exact fun h => htable c hc (Option.some.inj h)
    rw [htext, value, if_neg (by decide), if_pos rfl, if_neg hhead, elements_text es hes]
    rfl

theorem object_text (o : Object) {k : ℕ} {rest : List Char} (hk : o.text.length ≤ k + 1) :
    value (k + 1) (o.text ++ rest) = some (.object o, rest) := by
  match o with
  | .empty ws =>
    have htext : Object.text (.empty ws) ++ rest = '\x7b' :: (ws.text ++ '\x7d' :: rest) := by
      rw [Object.text, List.cons_append, List.append_assoc]
      rfl
    rw [htext, value, if_neg (by decide), if_neg (by decide), if_pos rfl,
      blanks_char ws (by decide)]
    rfl
  | .of ms =>
    have htext : Object.text (.of ms) ++ rest = '\x7b' :: (ms.text ++ '\x7d' :: rest) := by
      rw [Object.text, List.cons_append, List.append_assoc]
      rfl
    have hms : ms.text.length < k := by
      rw [Object.text, List.length_cons, List.length_append, List.length_singleton] at hk
      omega
    have hhead : ¬ (blanks (ms.text ++ '\x7d' :: rest)).2.head? = some '\x7d' := by
      obtain ⟨cs, hcs⟩ := ms.head_blanks ('\x7d' :: rest)
      rw [hcs]
      exact fun h => absurd (Option.some.inj h) (by decide)
    rw [htext, value, if_neg (by decide), if_neg (by decide), if_pos rfl, if_neg hhead,
      members_text ms hms]
    rfl

theorem elements_text (es : Elements) {k : ℕ} {rest : List Char} (hk : es.text.length < k) :
    elements k (es.text ++ ']' :: rest) = some (es, rest) := by
  obtain ⟨k, rfl⟩ : ∃ j, k = j + 1 := ⟨k - 1, by omega⟩
  match es with
  | .one a v b =>
    have htext : Elements.text (.one a v b) ++ ']' :: rest =
        a.text ++ (v.text ++ (b.text ++ ']' :: rest)) := by
      simp only [Elements.text, List.append_assoc]
    have hv : v.text.length ≤ k := by
      simp only [Elements.text, List.length_append] at hk
      omega
    have hends : Ends (b.text ++ ']' :: rest) := .blank b (ends_cons (by decide) rest)
    rw [htext, elements, blanks_value, value_text v hv hends]
    simp only [Option.bind_eq_bind, Option.bind_some, blanks_char b (show Space.read ']' = none by decide)]
    rfl
  | .more a v b es =>
    have htext : Elements.text (.more a v b es) ++ ']' :: rest =
        a.text ++ (v.text ++ (b.text ++ ',' :: (es.text ++ ']' :: rest))) := by
      simp only [Elements.text, List.append_assoc, List.cons_append]
    have hpos := v.text_length
    have hlen : v.text.length ≤ k ∧ es.text.length < k := by
      simp only [Elements.text, List.length_append, List.length_cons] at hk
      omega
    have hends : Ends (b.text ++ ',' :: (es.text ++ ']' :: rest)) :=
      .blank b (ends_cons (by decide) _)
    rw [htext, elements, blanks_value, value_text v hlen.1 hends]
    simp only [Option.bind_eq_bind, Option.bind_some, blanks_char b (show Space.read ',' = none by decide),
      elements_text es hlen.2]
    rfl

theorem members_text (ms : Members) {k : ℕ} {rest : List Char} (hk : ms.text.length < k) :
    members k (ms.text ++ '\x7d' :: rest) = some (ms, rest) := by
  obtain ⟨k, rfl⟩ : ∃ j, k = j + 1 := ⟨k - 1, by omega⟩
  match ms with
  | .one a key b c v d =>
    have htext : Members.text (.one a key b c v d) ++ '\x7d' :: rest =
        a.text ++ '"' :: (key.raw ++ '"' :: (b.text ++ ':' :: (c.text ++ (v.text ++
          (d.text ++ '\x7d' :: rest))))) := by
      simp only [Members.text, Str.text, List.append_assoc, List.cons_append, List.nil_append]
    have hv : v.text.length ≤ k := by
      simp only [Members.text, List.length_append, List.length_cons] at hk
      omega
    have hends : Ends (d.text ++ '\x7d' :: rest) := .blank d (ends_cons (by decide) rest)
    rw [htext, members]
    simp only [blanks_char _ (show Space.read '"' = none by decide), str_raw, Option.bind_eq_bind,
      Option.bind_some, blanks_char _ (show Space.read ':' = none by decide), blanks_value,
      value_text v hv hends, blanks_char _ (show Space.read '\x7d' = none by decide)]
    rfl
  | .more a key b c v d ms =>
    have htext : Members.text (.more a key b c v d ms) ++ '\x7d' :: rest =
        a.text ++ '"' :: (key.raw ++ '"' :: (b.text ++ ':' :: (c.text ++ (v.text ++
          (d.text ++ ',' :: (ms.text ++ '\x7d' :: rest)))))) := by
      simp only [Members.text, Str.text, List.append_assoc, List.cons_append, List.nil_append]
    have hlen : v.text.length ≤ k ∧ ms.text.length < k := by
      simp only [Members.text, List.length_append, List.length_cons] at hk
      omega
    have hends : Ends (d.text ++ ',' :: (ms.text ++ '\x7d' :: rest)) :=
      .blank d (ends_cons (by decide) _)
    rw [htext, members]
    simp only [blanks_char _ (show Space.read '"' = none by decide), str_raw, Option.bind_eq_bind,
      Option.bind_some, blanks_char _ (show Space.read ':' = none by decide), blanks_value,
      value_text v hlen.1 hends, blanks_char _ (show Space.read ',' = none by decide),
      members_text ms hlen.2]
    rfl

end

/-- **Every text is parsed**, to the tree it is the text of. -/
theorem parse_text (d : Document) : parse d.text = some d := by
  obtain ⟨a, v, b⟩ := d
  have hnil : ∀ c ∈ ([] : List Char).head?, Space.read c = none := fun c hc => nomatch hc
  have hstart : blanks (Document.text ⟨a, v, b⟩) = (a, v.text ++ b.text) := blanks_value a v b.text
  have hend : blanks b.text = (b, []) := by
    rw [← List.append_nil b.text]
    exact blanks_text b hnil
  have hends : Ends b.text := by
    rw [← List.append_nil b.text]
    exact .blank b fun c hc => nomatch hc
  have hk : v.text.length ≤ (Document.text ⟨a, v, b⟩).length := by
    simp only [Document.text, List.length_append]
    omega
  unfold parse
  simp only [hstart, value_text v hk hends, Option.bind_eq_bind, Option.bind_some, hend]
  rfl

/-! ### Soundness -/

theorem Space.char_of_read (c : Char) (s : Space) (h : Space.read c = some s) : s.char = c := by
  unfold read at h
  split_ifs at h with h₁ h₂ h₃ h₄
  all_goals
    obtain rfl := Option.some.inj h
    symm
    assumption

theorem blanks_sound (cs : List Char) : (blanks cs).1.text ++ (blanks cs).2 = cs :=
  run_sound Space.char_of_read cs

theorem HexDigit.char_of_read {c : Char} {d : HexDigit} (h : HexDigit.read c = some d) :
    d.char = c := by
  unfold read at h
  split_ifs at h
  obtain rfl := Option.some.inj h
  rfl

theorem Escape.letter_of_read {c : Char} {e : Escape} (h : Escape.read c = some e) :
    e.letter = c := by
  unfold read at h
  split_ifs at h
  all_goals
    obtain rfl := Option.some.inj h
    symm
    assumption

theorem str_sound {cs : List Char} {s : Str} {rest : List Char} (h : str cs = some (s, rest)) :
    s.raw ++ '"' :: rest = cs := by
  induction cs using str.induct generalizing s rest with
  | case1 => cases h
  | case2 cs =>
    rw [str.eq_def] at h
    simp only [if_true, Option.some.injEq, Prod.mk.injEq] at h
    obtain ⟨rfl, rfl⟩ := h
    rfl
  | case3 hq =>
    rw [str.eq_def] at h
    simp only [if_neg hq, if_true] at h
    cases h
  | case4 a b c d cs hq ih =>
    rw [str.eq_def] at h
    simp only [if_neg hq, if_true, Option.bind_eq_bind, Option.bind_eq_some_iff, Option.pure_def,
      Option.some.injEq, Prod.mk.injEq] at h
    obtain ⟨a', ha, b', hb, c', hc, d', hd, ⟨s', r⟩, hs, rfl, rfl⟩ := h
    show '\\' :: 'u' :: a'.char :: b'.char :: c'.char :: d'.char :: (Str.raw s' ++ '"' :: r) = _
    rw [HexDigit.char_of_read ha, HexDigit.char_of_read hb, HexDigit.char_of_read hc,
      HexDigit.char_of_read hd, ih hs]
  | case5 cs hcs hq =>
    rw [str.eq_def] at h
    simp only [if_neg hq, if_true] at h
    cases h
  | case6 e cs he hq ih =>
    rw [str.eq_def] at h
    simp only [if_neg hq, if_true, if_neg he, Option.bind_eq_bind, Option.bind_eq_some_iff,
      Option.pure_def, Option.some.injEq, Prod.mk.injEq] at h
    obtain ⟨e', he', ⟨s', r⟩, hs, rfl, rfl⟩ := h
    show '\\' :: e'.letter :: (Str.raw s' ++ '"' :: r) = _
    rw [Escape.letter_of_read he', ih hs]
  | case7 c cs hq hb hc ih =>
    rw [str.eq_def] at h
    simp only [if_neg hq, if_neg hb, dif_pos hc, Option.bind_eq_bind, Option.bind_eq_some_iff,
      Option.pure_def, Option.some.injEq, Prod.mk.injEq] at h
    obtain ⟨⟨s', r⟩, hs, rfl, rfl⟩ := h
    show c :: (Str.raw s' ++ '"' :: r) = _
    rw [ih hs]
  | case8 c cs hq hb hc =>
    rw [str.eq_def] at h
    simp only [if_neg hq, if_neg hb, dif_neg hc] at h
    cases h

theorem Digit.char_of_read (c : Char) (d : Digit) (h : Digit.read c = some d) : d.char = c := by
  unfold read at h
  split_ifs at h with hc
  obtain rfl := Option.some.inj h
  show Char.ofNat (0x30 + (c.toNat - 0x30)) = c
  rw [Nat.add_sub_cancel' hc.1, Char.ofNat_toNat]

theorem digits_sound {cs : List Char} {ds : Digits} {rest : List Char}
    (h : digits cs = some (ds, rest)) : ds.text ++ rest = cs := by
  unfold digits at h
  split_ifs at h
  obtain ⟨rfl, rfl⟩ := Prod.mk.inj (Option.some.inj h)
  exact run_sound Digit.char_of_read cs

theorem sign_sound (cs : List Char) : signText (sign cs).1 ++ (sign cs).2 = cs := by
  rcases cs with - | ⟨c, cs⟩
  · rfl
  · rw [sign]
    split_ifs with h₁ h₂
    · rw [h₁]
      rfl
    · rw [h₂]
      rfl
    · rfl

theorem minus_sound (cs : List Char) : (if (minus cs).1 then ['-'] else []) ++ (minus cs).2 = cs := by
  rcases cs with - | ⟨c, cs⟩
  · rfl
  · rw [minus]
    by_cases hc : c = '-'
    · rw [if_pos hc, hc]
      rfl
    · rw [if_neg hc]
      rfl

theorem fraction_sound {cs : List Char} {f : Option Digits} {rest : List Char}
    (h : fraction cs = some (f, rest)) : fracText f ++ rest = cs := by
  rcases cs with - | ⟨c, cs⟩
  · obtain ⟨rfl, rfl⟩ := Prod.mk.inj (Option.some.inj h)
    rfl
  · rw [fraction] at h
    split_ifs at h with hc
    · obtain ⟨⟨ds, r⟩, hds, heq⟩ := Option.map_eq_some_iff.mp h
      obtain ⟨rfl, rfl⟩ := Prod.mk.inj heq
      rw [hc, ← digits_sound hds]
      rfl
    · obtain ⟨rfl, rfl⟩ := Prod.mk.inj (Option.some.inj h)
      rfl

theorem exponent_sound {cs : List Char} {e : Option Exponent} {rest : List Char}
    (h : exponent cs = some (e, rest)) : expText e ++ rest = cs := by
  rcases cs with - | ⟨c, cs⟩
  · obtain ⟨rfl, rfl⟩ := Prod.mk.inj (Option.some.inj h)
    rfl
  · rw [exponent] at h
    split_ifs at h with hc
    · obtain ⟨⟨ds, r⟩, hds, heq⟩ := Option.map_eq_some_iff.mp h
      obtain ⟨rfl, rfl⟩ := Prod.mk.inj heq
      have hcs := sign_sound cs
      rw [← digits_sound hds] at hcs
      rw [expText, Exponent.text, List.cons_append, List.append_assoc, hcs]
      rcases hc with rfl | rfl
      · rfl
      · rfl
    · obtain ⟨rfl, rfl⟩ := Prod.mk.inj (Option.some.inj h)
      rfl

theorem number_sound {cs : List Char} {n : Number} {rest : List Char}
    (h : number cs = some (n, rest)) : n.text ++ rest = cs := by
  unfold number at h
  obtain ⟨⟨int, cs₁⟩, hint, h⟩ := Option.bind_eq_some_iff.mp h
  simp only at h
  split_ifs at h with hproper
  obtain ⟨⟨frac, cs₂⟩, hfrac, h⟩ := Option.bind_eq_some_iff.mp h
  obtain ⟨⟨exp, cs₃⟩, hexp, h⟩ := Option.bind_eq_some_iff.mp h
  obtain ⟨rfl, rfl⟩ := Prod.mk.inj (Option.some.inj h)
  simp only [Number.text, List.append_assoc]
  rw [exponent_sound hexp, fraction_sound hfrac, digits_sound hint, minus_sound]

theorem literal_sound {lit cs : List Char} {v w : Value} {rest : List Char} (hv : v.text = lit)
    (h : literal lit v cs = some (w, rest)) : w.text ++ rest = cs := by
  obtain ⟨r, hr, heq⟩ := Option.map_eq_some_iff.mp h
  obtain ⟨rfl, rfl⟩ := Prod.mk.inj heq
  rw [hv]
  exact List.isPrefixOf?_eq_some_iff_append_eq.mp hr

section Sound

variable {k : ℕ}

theorem elements_succ_sound
    (ihv : ∀ cs v rest, value k cs = some (v, rest) → v.text ++ rest = cs)
    (ihe : ∀ cs es rest, elements k cs = some (es, rest) → es.text ++ ']' :: rest = cs) :
    ∀ cs es rest, elements (k + 1) cs = some (es, rest) → es.text ++ ']' :: rest = cs := by
  intro cs es rest h
  rw [elements] at h
  obtain ⟨⟨v, cs'⟩, hv, h⟩ := Option.bind_eq_some_iff.mp h
  have hcs := blanks_sound cs
  rw [← ihv _ _ _ hv, ← blanks_sound cs'] at hcs
  simp only at h
  split at h
  · -- a comma: more elements
    rename_i cs'' hc
    obtain ⟨⟨es', r⟩, hes, heq⟩ := Option.bind_eq_some_iff.mp h
    obtain ⟨rfl, rfl⟩ := Prod.mk.inj (Option.some.inj heq)
    rw [hc, ← ihe _ _ _ hes] at hcs
    refine Eq.trans ?_ hcs
    simp only [Elements.text, List.cons_append, List.append_assoc]
  · -- the closing bracket
    rename_i r hc
    obtain ⟨rfl, rfl⟩ := Prod.mk.inj (Option.some.inj h)
    rw [hc] at hcs
    refine Eq.trans ?_ hcs
    simp only [Elements.text, List.append_assoc]
  · cases h

theorem members_succ_sound
    (ihv : ∀ cs v rest, value k cs = some (v, rest) → v.text ++ rest = cs)
    (ihm : ∀ cs ms rest, members k cs = some (ms, rest) → ms.text ++ '\x7d' :: rest = cs) :
    ∀ cs ms rest, members (k + 1) cs = some (ms, rest) → ms.text ++ '\x7d' :: rest = cs := by
  intro cs ms rest h
  rw [members] at h
  have hcs := blanks_sound cs
  split at h
  case h_2 => cases h
  rename_i cs₁ hc₁
  -- the name in quotes, then the colon, then the value
  obtain ⟨⟨key, cs₂⟩, hkey, h⟩ := Option.bind_eq_some_iff.mp h
  have hcs₂ := blanks_sound cs₂
  simp only at h
  split at h
  case h_2 => cases h
  rename_i cs₃ hc₃
  have hcs₃ := blanks_sound cs₃
  obtain ⟨⟨v, cs₄⟩, hv, h⟩ := Option.bind_eq_some_iff.mp h
  have hcs₄ := blanks_sound cs₄
  rw [hc₁, ← str_sound hkey, ← hcs₂, hc₃, ← hcs₃, ← ihv _ _ _ hv, ← hcs₄] at hcs
  simp only at h
  split at h
  · -- a comma: more members
    rename_i cs₅ hc₅
    obtain ⟨⟨ms', r⟩, hms, heq⟩ := Option.bind_eq_some_iff.mp h
    obtain ⟨rfl, rfl⟩ := Prod.mk.inj (Option.some.inj heq)
    rw [hc₅, ← ihm _ _ _ hms] at hcs
    refine Eq.trans ?_ hcs
    simp only [Members.text, Str.text, List.cons_append, List.append_assoc, List.nil_append]
  · -- the closing brace
    rename_i r hc₅
    obtain ⟨rfl, rfl⟩ := Prod.mk.inj (Option.some.inj h)
    rw [hc₅] at hcs
    refine Eq.trans ?_ hcs
    simp only [Members.text, Str.text, List.cons_append, List.append_assoc, List.nil_append]
  · cases h

theorem value_succ_sound
    (ihe : ∀ cs es rest, elements k cs = some (es, rest) → es.text ++ ']' :: rest = cs)
    (ihm : ∀ cs ms rest, members k cs = some (ms, rest) → ms.text ++ '\x7d' :: rest = cs) :
    ∀ cs v rest, value (k + 1) cs = some (v, rest) → v.text ++ rest = cs := by
  rintro (- | ⟨c, cs⟩) v rest h
  · cases h
  rw [value] at h
  split_ifs at h with h₁ h₂ h₃ h₄ h₅ h₆ h₇ h₈
  · -- a string
    obtain ⟨⟨s, r⟩, hs, heq⟩ := Option.map_eq_some_iff.mp h
    obtain ⟨rfl, rfl⟩ := Prod.mk.inj heq
    rw [h₁, ← str_sound hs]
    simp only [Value.text, Str.text, List.cons_append, List.append_assoc, List.nil_append]
  · -- an array without elements
    obtain ⟨rfl, rfl⟩ := Prod.mk.inj (Option.some.inj h)
    obtain ⟨r, hr⟩ := List.head?_eq_some_iff.mp h₃
    have hcs := blanks_sound cs
    rw [hr] at hcs
    rw [h₂]
    refine Eq.trans ?_ (congrArg ('[' :: ·) hcs)
    rw [hr]
    simp only [Value.text, Array.text, List.cons_append, List.append_assoc, List.nil_append,
      List.tail_cons]
  · obtain ⟨⟨es, r⟩, hes, heq⟩ := Option.map_eq_some_iff.mp h
    obtain ⟨rfl, rfl⟩ := Prod.mk.inj heq
    rw [h₂, ← ihe _ _ _ hes]
    simp only [Value.text, Array.text, List.cons_append, List.append_assoc, List.nil_append]
  · -- an object without members
    obtain ⟨rfl, rfl⟩ := Prod.mk.inj (Option.some.inj h)
    obtain ⟨r, hr⟩ := List.head?_eq_some_iff.mp h₅
    have hcs := blanks_sound cs
    rw [hr] at hcs
    rw [h₄]
    refine Eq.trans ?_ (congrArg ('\x7b' :: ·) hcs)
    rw [hr]
    simp only [Value.text, Object.text, List.cons_append, List.append_assoc, List.nil_append,
      List.tail_cons]
  · obtain ⟨⟨ms, r⟩, hms, heq⟩ := Option.map_eq_some_iff.mp h
    obtain ⟨rfl, rfl⟩ := Prod.mk.inj heq
    rw [h₄, ← ihm _ _ _ hms]
    simp only [Value.text, Object.text, List.cons_append, List.append_assoc, List.nil_append]
  · -- the three literal names, then a number
    exact literal_sound rfl h
  · exact literal_sound rfl h
  · exact literal_sound rfl h
  · obtain ⟨⟨n, r⟩, hn, heq⟩ := Option.map_eq_some_iff.mp h
    obtain ⟨rfl, rfl⟩ := Prod.mk.inj heq
    rw [← number_sound hn]
    rfl

end Sound

/-- What the three parsers of one fuel read is what they return. -/
theorem values_sound (k : ℕ) :
    (∀ cs v rest, value k cs = some (v, rest) → v.text ++ rest = cs) ∧
    (∀ cs es rest, elements k cs = some (es, rest) → es.text ++ ']' :: rest = cs) ∧
    ∀ cs ms rest, members k cs = some (ms, rest) → ms.text ++ '\x7d' :: rest = cs := by
  induction k with
  | zero =>
    refine ⟨fun cs v rest h => ?_, fun cs es rest h => ?_, fun cs ms rest h => ?_⟩
    · rw [value] at h
      cases h
    · rw [elements] at h
      cases h
    · rw [members] at h
      cases h
  | succ k ih =>
    obtain ⟨ihv, ihe, ihm⟩ := ih
    exact ⟨value_succ_sound ihe ihm, elements_succ_sound ihv ihe, members_succ_sound ihv ihm⟩

/-- **The parser decides the grammar.** -/
theorem parse_eq_some_iff {cs : List Char} {d : Document} : parse cs = some d ↔ d.text = cs := by
  constructor
  · intro h
    unfold parse at h
    obtain ⟨⟨v, cs'⟩, hv, h⟩ := Option.bind_eq_some_iff.mp h
    simp only at h
    split_ifs at h with hend
    obtain rfl := Option.some.inj h
    have hcs := blanks_sound cs
    have hcs' := blanks_sound cs'
    rw [hend, List.append_nil] at hcs'
    rw [← (values_sound _).1 _ _ _ hv, ← hcs'] at hcs
    exact hcs
  · rintro rfl
    exact parse_text d

/-! ### Bytes -/

theorem encode_digits (ds : List Digit) :
    Utf8.encode (ds.map Digit.char) = ds.map fun d => 48 + .ofNat d.val := by
  have htable : ∀ d : Digit, String.utf8EncodeChar d.char = [48 + .ofNat d.val] := by
    decide +kernel
  induction ds with
  | nil => rfl
  | cons d ds ih => rw [List.map_cons, Utf8.encode_cons, htable, ih, List.singleton_append,
      List.map_cons]

/-- What the bytes of a text denote. -/
def decode (bytes : List UInt8) : Option Tree := do
  let cs ← Utf8.decode bytes
  let d ← parse cs
  d.value.tree

theorem decode_text (d : Document) : decode (Utf8.encode d.text) = d.value.tree := by
  unfold decode
  simp only [Utf8.decode_encode, parse_text, Option.bind_eq_bind, Option.bind_some]

end Rfc8259
