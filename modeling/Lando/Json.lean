/-
Lando/Json.lean

The JSON extractor (`json.rs`, reading): `field` and `elements` over a complete
buffer.

A `Parser` is the buffer and an index into it.  The source indexes slices, and
takes one off indices and off the nesting depth; either could panic.  The
functions of the parser say so where it could happen (`Failure.panic`), and
where a loop of theirs could go on forever (`Failure.hang`).  Neither does: in a
buffer, a call that takes something off the input leaves the parser further on
in the same buffer, or is an error (`Moves`).  So `field` and `elements` have
the types they have in the source.

A value is returned as the slice of the buffer it stands in.  A string keeps
its escapes, and is checked to be UTF-8.
-/
import Lando.Bytes
import Mathlib.Tactic.SplitIfs

namespace Lando.Json

open Bytes

/-! ### Values -/

/-- `JsonError`, of the reader and the writer. -/
inductive JsonError
  | shortBuffer
  /-- Input ended mid-value. -/
  | truncated
  /-- Input is not valid JSON in a way that matters to us. -/
  | malformed
  deriving DecidableEq

/-- A JSON value located inside a buffer. -/
inductive Value
  /-- String contents, with escapes still encoded. -/
  | str (contents : List UInt8)
  | number (text : List UInt8)
  | bool (b : Bool)
  | null
  /-- A nested object or array. -/
  | raw (slice : List UInt8)
  deriving DecidableEq

namespace Value

/-- `as_str`: the text between the quotation marks. -/
def asStr : Value → Option (List UInt8)
  | str s => some s
  | _ => none

/-- `as_bool`: the value, if it is one of the two names. -/
def asBool : Value → Option Bool
  | bool b => some b
  | _ => none

end Value

/-- `core::str::from_utf8` accepts these bytes. -/
def isUtf8 (bytes : List UInt8) : Bool := (ByteArray.mk bytes.toArray).validateUTF8

/-- The quotation mark. -/
def quote : UInt8 := 0x22

/-- The backslash. -/
def backslash : UInt8 := 0x5c

/-- The comma. -/
def comma : UInt8 := 0x2c

/-- The colon. -/
def colon : UInt8 := 0x3a

/-- The brace that opens an object. -/
def openBrace : UInt8 := 0x7b

/-- The brace that closes an object. -/
def closeBrace : UInt8 := 0x7d

/-- The bracket that opens a list. -/
def openBracket : UInt8 := 0x5b

/-- The bracket that closes a list. -/
def closeBracket : UInt8 := 0x5d

/-- Space, tab, newline and carriage return. -/
def isSpace (b : UInt8) : Bool := b = 0x20 || b = 0x09 || b = 0x0a || b = 0x0d

/-- `-`, `+`, `.`, `e`, `E` and the digits. -/
def isNumeric (b : UInt8) : Bool :=
  b = 0x2d || b = 0x2b || b = 0x2e || b = 0x65 || b = 0x45 || (0x30 ≤ b && b ≤ 0x39)

/-! ### The parser -/

/-- Why a function of the parser has no result. -/
inductive Failure
  | error (e : JsonError)
  /-- An index out of range, or one less than zero. -/
  | panic
  /-- A loop that does not end. -/
  | hang
  deriving DecidableEq

/-- A result of the parser, which may panic. -/
abbrev Parsed (α : Type) := Except Failure α

/-- `n - 1` in a `usize`. -/
def decrement : ℕ → Parsed ℕ
  | 0 => .error .panic
  | n + 1 => .ok n

/-- `Parser`: a text and a place in it. -/
structure Parser where
  s : List UInt8
  i : ℕ
  deriving DecidableEq

/-- The loop of `parse_string` on what is left from index `i`: the index behind
the closing quote. -/
def closingQuote : List UInt8 → ℕ → Parsed ℕ
  | [], _ => .error (.error .truncated)
  | b :: rest, i =>
      if b = quote then .ok (i + 1)
      else if b = backslash then
        -- skip the escaped byte, so that an escaped quote does not terminate
        match rest with
        | [] => .error (.error .truncated)
        | _ :: rest => closingQuote rest (i + 2)
      else closingQuote rest (i + 1)

namespace Parser

/-- `peek`: the byte at the place. -/
def peek (p : Parser) : Option UInt8 := p.s[p.i]?

/-- `next`: the byte at the place, and the place moves on. -/
def next (p : Parser) : Option UInt8 × Parser :=
  match p.peek with
  | some b => (some b, { p with i := p.i + 1 })
  | none => (none, p)

/-- `expect`: the byte `b` and no other. -/
def expect (p : Parser) (b : UInt8) : Parsed Parser :=
  if p.next.1 = some b then .ok p.next.2 else .error (.error .malformed)

/-- `skip_ws`. -/
def skipWs (p : Parser) : Parser :=
  { p with i := p.i + ((p.s.drop p.i).takeWhile isSpace).length }

/-- The slice `s[lo..hi]`. -/
def sub (p : Parser) (lo hi : ℕ) : Parsed (List UInt8) :=
  if lo ≤ hi ∧ hi ≤ p.s.length then .ok (slice p.s lo hi) else .error .panic

/-- The same as a `str`. -/
def text (p : Parser) (lo hi : ℕ) : Parsed (List UInt8) := do
  let bytes ← p.sub lo hi
  if isUtf8 bytes then return bytes else throw (.error .malformed)

/-- Parses a quoted string, returning its contents with escapes intact. -/
def parseString (p : Parser) : Parsed (List UInt8 × Parser) := do
  let p ← p.expect quote
  let i ← closingQuote (p.s.drop p.i) p.i
  let last ← decrement i
  let contents ← p.text p.i last
  return (contents, { p with i := i })

/-- `literal`: the bytes `lit` and no others. -/
def literal (p : Parser) (lit : List UInt8) : Parsed Parser := do
  if p.s.length < p.i + lit.length then throw (.error .malformed)
  if (← p.sub p.i (p.i + lit.length)) ≠ lit then throw (.error .malformed)
  return { p with i := p.i + lit.length }

/-- The loop of `skip_nested`, for at most `k` turns. -/
def nested (opening closing : UInt8) (start : ℕ) :
    ℕ → ℕ → Parser → Parsed (List UInt8 × Parser)
  | 0, _, _ => .error .hang
  | k + 1, depth, p =>
      match p.next with
      | (none, _) => .error (.error .truncated)
      | (some b, p) =>
          if b = quote then do
            let i ← decrement p.i
            let (_, p) ← parseString { p with i := i }
            nested opening closing start k depth p
          else if b = opening then nested opening closing start k (depth + 1) p
          else if b = closing then do
            let depth ← decrement depth
            if depth = 0 then return (← p.sub start p.i, p)
            else nested opening closing start k depth p
          else nested opening closing start k depth p

/-- Consumes a balanced object or array, honouring strings.  Every turn of the
loop takes something off the input. -/
def skipNested (p : Parser) (opening closing : UInt8) : Parsed (List UInt8 × Parser) :=
  nested opening closing p.i (p.s.length - p.i + 1) 0 p

/-- The number arm of `parse_value`: as long as the bytes could be of a number. -/
def parseNumber (p : Parser) : Parsed (Value × Parser) := do
  let stop := p.i + ((p.s.drop p.i).takeWhile isNumeric).length
  if stop = p.i then throw (.error .malformed)
  return (.number (← p.text p.i stop), { p with i := stop })

/-- `parse_value`: a scalar, or the text of an object or a list. -/
def parseValue (p : Parser) : Parsed (Value × Parser) :=
  match p.peek with
  | none => .error (.error .truncated)
  | some b =>
      if b = quote then return ((← p.parseString).map .str id)
      else if b = openBrace then return ((← p.skipNested openBrace closeBrace).map .raw id)
      else if b = openBracket then return ((← p.skipNested openBracket closeBracket).map .raw id)
      else if b = 0x74 then return (.bool true, ← p.literal "true".toUTF8.toList)
      else if b = 0x66 then return (.bool false, ← p.literal "false".toUTF8.toList)
      else if b = 0x6e then return (.null, ← p.literal "null".toUTF8.toList)
      else p.parseNumber

/-- The loop of `field`, for at most `k` members. -/
def member (want : List UInt8) : ℕ → Parser → Parsed (Option Value)
  | 0, _ => .error .hang
  | k + 1, p => do
      let (key, p) ← p.skipWs.parseString
      let p ← p.skipWs.expect colon
      let (value, p) ← p.skipWs.parseValue
      if key = want then return some value
      match p.skipWs.next with
      | (some b, p) =>
          if b = comma then member want k p
          else if b = closeBrace then return none
          else throw (.error .malformed)
      | (none, _) => throw (.error .malformed)

end Parser

/-! ### Neither panic nor hang -/

/-- The call is an error of the source, or has a result with this property. -/
def Settles {α : Type} (r : Parsed α) (Q : α → Prop) : Prop :=
  (∃ e, r = .error (.error e)) ∨ ∃ a, r = .ok a ∧ Q a

namespace Settles

variable {α β : Type} {r : Parsed α} {Q R : α → Prop} {S : β → Prop}

theorem ok {a : α} (h : Q a) : Settles (.ok a) Q := .inr ⟨a, rfl, h⟩

theorem error (e : JsonError) : Settles (.error (.error e)) Q := .inl ⟨e, rfl⟩

theorem bind {f : α → Parsed β} (h : Settles r Q) (hf : ∀ a, Q a → Settles (f a) S) :
    Settles (r >>= f) S := by
  rcases h with ⟨e, rfl⟩ | ⟨a, rfl, ha⟩
  · exact error e
  · exact hf a ha

theorem imp (h : Settles r Q) (hQ : ∀ a, Q a → R a) : Settles r R :=
  h.imp_right fun ⟨a, ha, hq⟩ => ⟨a, ha, hQ a hq⟩

/-- The result that the source has. -/
def result {α : Type} {r : Parsed α} (h : Settles r fun _ => True) : Except JsonError α :=
  match r with
  | .ok a => .ok a
  | .error (.error e) => .error e
  | .error .panic => absurd h (by rintro (⟨_, h⟩ | ⟨_, h, _⟩) <;> cases h)
  | .error .hang => absurd h (by rintro (⟨_, h⟩ | ⟨_, h, _⟩) <;> cases h)

end Settles

namespace Parser

/-- The index is in the buffer, or at its end. -/
def Within (p : Parser) : Prop := p.i ≤ p.s.length

/-- `p'` is further on in the same buffer. -/
structure Moves (p p' : Parser) : Prop where
  same : p'.s = p.s
  forth : p.i < p'.i
  within : p'.Within

variable {p p' p'' : Parser}

theorem Moves.trans (h : Moves p p') (h' : Moves p' p'') : Moves p p'' :=
  ⟨h'.same.trans h.same, h.forth.trans h'.forth, h'.within⟩

theorem next_some {b : UInt8} (h : p.next = (some b, p')) :
    p.peek = some b ∧ p' = { p with i := p.i + 1 } := by
  unfold next at h
  rcases hp : p.peek with - | c
  · rw [hp] at h
    cases h
  · rw [hp] at h
    obtain ⟨hb, rfl⟩ := Prod.mk.inj h
    exact ⟨hb, rfl⟩

theorem next_moves {b : UInt8} (h : p.next = (some b, p')) : p.peek = some b ∧ Moves p p' := by
  obtain ⟨hp, rfl⟩ := next_some h
  obtain ⟨hlt, -⟩ := List.getElem?_eq_some_iff.mp hp
  exact ⟨hp, rfl, Nat.lt_succ_self _, hlt⟩

theorem expect_settles (p : Parser) (b : UInt8) :
    Settles (p.expect b) fun p' => p.peek = some b ∧ Moves p p' := by
  unfold expect
  split_ifs with h
  · exact .ok (next_moves (Prod.ext h rfl))
  · exact .error _

/-- Skipping blanks stays in the buffer. -/
theorem skipWs_within (h : p.Within) : p.skipWs.s = p.s ∧ p.i ≤ p.skipWs.i ∧ p.skipWs.Within := by
  refine ⟨rfl, Nat.le_add_right _ _, ?_⟩
  have hlen := (List.takeWhile_sublist isSpace (l := p.s.drop p.i)).length_le
  rw [List.length_drop] at hlen
  unfold Within at h ⊢
  show p.i + _ ≤ p.s.length
  omega

/-- What moves on behind blanks moves on. -/
theorem Moves.of_skipWs (h : p.Within) (hm : Moves p.skipWs p') : Moves p p' :=
  ⟨hm.same, (skipWs_within h).2.1.trans_lt hm.forth, hm.within⟩

theorem text_settles {lo hi : ℕ} (h : lo ≤ hi) (h' : hi ≤ p.s.length) :
    Settles (p.text lo hi) fun _ => True := by
  unfold text sub
  rw [if_pos ⟨h, h'⟩]
  show Settles (if isUtf8 (slice p.s lo hi) then _ else _) _
  split_ifs
  · exact .ok trivial
  · exact .error _

theorem decrement_settles {n : ℕ} (h : 0 < n) : Settles (decrement n) fun m => m + 1 = n := by
  cases n with
  | zero => exact absurd h (Nat.lt_irrefl 0)
  | succ n => exact .ok rfl

theorem closingQuote_settles (rest : List UInt8) (i : ℕ) :
    Settles (closingQuote rest i) fun j => i < j ∧ j ≤ i + rest.length := by
  induction rest using List.twoStepInduction generalizing i with
  | nil => exact .error _
  | singleton b =>
    unfold closingQuote
    split_ifs
    · exact .ok ⟨Nat.lt_succ_self i, Nat.le_refl _⟩
    · exact .error _
    · exact .error _
  | cons_cons b c rest ih ih' =>
    unfold closingQuote
    split_ifs
    · refine .ok ⟨Nat.lt_succ_self i, ?_⟩
      simp only [List.length_cons]
      omega
    · -- an escaped byte is skipped with its backslash
      refine (ih (i + 2)).imp ?_
      rintro j ⟨hlt, hle⟩
      simp only [List.length_cons]
      omega
    · refine (ih' c (i + 1)).imp ?_
      rintro j ⟨hlt, hle⟩
      simp only [List.length_cons] at hle ⊢
      omega

theorem parseString_settles (p : Parser) : Settles p.parseString fun r => Moves p r.2 := by
  refine (p.expect_settles quote).bind ?_
  rintro q ⟨-, hq⟩
  refine (closingQuote_settles _ _).bind ?_
  rintro i ⟨hlt, hle⟩
  have hwithin := hq.within
  unfold Within at hwithin
  rw [List.length_drop] at hle
  refine (decrement_settles (Nat.zero_lt_of_lt hlt)).bind ?_
  rintro last hlast
  refine (text_settles (by omega) (by omega)).bind ?_
  intro contents _
  refine .ok ⟨hq.same, hq.forth.trans hlt, ?_⟩
  show i ≤ q.s.length
  omega

theorem literal_settles {lit : List UInt8} (h : 0 < lit.length) :
    Settles (p.literal lit) (Moves p) := by
  unfold literal
  by_cases hlen : p.s.length < p.i + lit.length
  · rw [if_pos hlen]
    exact .error _
  · rw [if_neg hlen, sub, if_pos (by omega)]
    show Settles (if slice p.s p.i (p.i + lit.length) ≠ lit then _ else _) _
    split_ifs
    · exact .error _
    · exact .ok ⟨rfl, Nat.lt_add_of_pos_right h, Nat.not_lt.mp hlen⟩

/-- The loop below depth zero, with turns enough for what is left. -/
theorem nested_settles {opening closing : UInt8} {start k depth : ℕ} (hin : p.Within)
    (hstart : start ≤ p.i) (hk : p.s.length - p.i < k) (hdepth : 0 < depth) :
    Settles (nested opening closing start k depth p) fun r => Moves p r.2 := by
  induction k generalizing p depth with
  | zero => exact absurd hk (Nat.not_lt_zero _)
  | succ k ih =>
    rw [nested]
    rcases hn : p.next with ⟨b, q⟩
    rcases b with - | b
    · exact .error _
    obtain ⟨-, hq⟩ := next_moves hn
    have hforth := hq.forth
    have hwithin := hq.within
    have hlater : ∀ {q' : Parser} {depth}, Moves p q' → 0 < depth →
        Settles (nested opening closing start k depth q') fun r => Moves p r.2 := by
      intro q' depth hq' hdepth
      have := hq'.forth
      have := hq'.within
      unfold Within at this
      rw [hq'.same] at this
      exact (ih hq'.within (by omega) (by rw [hq'.same]; omega) hdepth).imp
        fun r hr => hq'.trans hr
    simp only
    split_ifs
    · -- a string: the index goes back to its quote, where `p` still is
      refine (decrement_settles (by omega)).bind ?_
      intro i hi
      have hback : ({ q with i := i } : Parser) = p := by
        obtain ⟨-, rfl⟩ := next_some hn
        rw [show i = p.i from Nat.succ.inj hi]
      rw [hback]
      exact (p.parseString_settles).bind fun r hr => hlater hr hdepth
    · exact hlater hq (Nat.succ_pos _)
    · -- closing: the depth is positive, so one less is no underflow
      refine (decrement_settles hdepth).bind ?_
      intro depth' _
      split_ifs with hzero
      · unfold Within at hwithin
        rw [sub, if_pos ⟨by omega, hwithin⟩]
        exact .ok hq
      · exact hlater hq (Nat.pos_of_ne_zero hzero)
    · exact hlater hq hdepth

theorem skipNested_settles {opening : UInt8} (closing : UInt8) (hp : p.peek = some opening)
    (hne : opening ≠ quote) :
    Settles (p.skipNested opening closing) fun r => Moves p r.2 := by
  have hn : p.next = (some opening, { p with i := p.i + 1 }) := by
    rw [next, hp]
  obtain ⟨-, hq⟩ := next_moves hn
  -- the first turn takes the opening bracket, and the depth is one from then on
  unfold skipNested
  rw [nested, hn]
  simp only [if_neg hne, if_true]
  have hlt : p.i + 1 ≤ p.s.length := hq.within
  have hturns : p.s.length - (p.i + 1) < p.s.length - p.i := by omega
  exact (nested_settles hq.within (Nat.le_succ _) hturns Nat.one_pos).imp fun r hr => hq.trans hr

theorem parseNumber_settles (hin : p.Within) : Settles p.parseNumber fun r => Moves p r.2 := by
  unfold parseNumber
  generalize htake : ((p.s.drop p.i).takeWhile isNumeric).length = n
  have hn := (List.takeWhile_sublist isNumeric (l := p.s.drop p.i)).length_le
  rw [htake, List.length_drop] at hn
  unfold Within at hin
  simp only
  by_cases hstop : p.i + n = p.i
  · rw [if_pos hstop]
    exact .error _
  · rw [if_neg hstop]
    refine (text_settles (Nat.le_add_right _ _) (by omega)).bind ?_
    intro contents _
    refine .ok ⟨rfl, by show p.i < p.i + n; omega, ?_⟩
    show p.i + n ≤ p.s.length
    omega

/-- **A value takes something off the input.** -/
theorem parseValue_settles (p : Parser) : Settles p.parseValue fun r => Moves p r.2 := by
  unfold parseValue
  rcases hp : p.peek with - | b
  · exact .error _
  obtain ⟨hlt, -⟩ := List.getElem?_eq_some_iff.mp hp
  have hin : p.Within := Nat.le_of_lt hlt
  simp only
  split_ifs with h₁ h₂ h₃ h₄ h₅ h₆
  · exact p.parseString_settles.bind fun r hr => .ok hr
  · exact (skipNested_settles _ (by rw [hp, h₂]) (by decide)).bind fun r hr => .ok hr
  · exact (skipNested_settles _ (by rw [hp, h₃]) (by decide)).bind fun r hr => .ok hr
  · exact (literal_settles (by decide +kernel)).bind fun r hr => .ok hr
  · exact (literal_settles (by decide +kernel)).bind fun r hr => .ok hr
  · exact (literal_settles (by decide +kernel)).bind fun r hr => .ok hr
  · exact parseNumber_settles hin

theorem member_settles (want : List UInt8) {k : ℕ} (hin : p.Within) (hk : p.s.length - p.i < k) :
    Settles (member want k p) fun _ => True := by
  induction k generalizing p with
  | zero => exact absurd hk (Nat.not_lt_zero _)
  | succ k ih =>
    rw [member]
    refine p.skipWs.parseString_settles.bind ?_
    rintro ⟨key, p₁⟩ h₁
    refine (p₁.skipWs.expect_settles colon).bind ?_
    rintro p₂ ⟨-, h₂⟩
    refine p₂.skipWs.parseValue_settles.bind ?_
    rintro ⟨value, p₃⟩ h₃
    -- key, colon and value together
    have hmoves : Moves p p₃ := (Moves.of_skipWs hin h₁).trans
      ((Moves.of_skipWs h₁.within h₂).trans (Moves.of_skipWs h₂.within h₃))
    simp only
    by_cases hkey : key = want
    · rw [if_pos hkey]
      exact .ok trivial
    rw [if_neg hkey]
    rcases hn : p₃.skipWs.next with ⟨b, p₄⟩
    rcases b with - | b
    · exact .error _
    have h₄ := hmoves.trans (Moves.of_skipWs hmoves.within (next_moves hn).2)
    simp only
    split_ifs
    · have hforth := h₄.forth
      have hwithin := h₄.within
      unfold Within at hwithin
      rw [h₄.same] at hwithin
      exact ih h₄.within (by rw [h₄.same]; omega)
    · exact .ok trivial
    · exact .error _

end Parser

/-! ### Fields and elements -/

/-- `field`, before it is known to return. -/
def lookup (json want : List UInt8) : Parsed (Option Value) := do
  let p ← (Parser.skipWs ⟨json, 0⟩).expect openBrace
  let p := p.skipWs
  if p.peek = some closeBrace then return none
  p.member want (json.length + 1)

theorem lookup_settles (json want : List UInt8) : Settles (lookup json want) fun _ => True := by
  have hstart : Parser.Within ⟨json, 0⟩ := Nat.zero_le _
  refine (Parser.expect_settles _ openBrace).bind ?_
  rintro p ⟨-, hp⟩
  obtain ⟨hsame, -, hwithin⟩ := Parser.skipWs_within hp.within
  simp only
  split_ifs
  · exact .ok trivial
  · refine Parser.member_settles want hwithin ?_
    rw [hsame, hp.same]
    show json.length - _ < json.length + 1
    omega

/-- Looks up a field of the top-level JSON object. -/
def field (json want : List UInt8) : Except JsonError (Option Value) :=
  (lookup_settles json want).result

/-- The iterator over the elements of an array. -/
structure Elements where
  p : Parser
  started : Bool
  done : Bool

namespace Elements

/-- `elements`: in front of the bracket. -/
def new (raw : List UInt8) : Elements := ⟨⟨raw, 0⟩, false, false⟩

/-- The end of the iteration; where the parser is then is never looked at. -/
def finished (p : Parser) : Option Value × Elements := (none, ⟨p, true, true⟩)

/-- `Elements::next`: what is malformed ends the list. -/
def next (e : Elements) : Parsed (Option Value × Elements) :=
  if e.done then return (none, e)
  else
    match e.p.skipWs.next with
    | (none, p) => return finished p
    | (some b, p) =>
        if b ≠ (if e.started then comma else openBracket) then return finished p
        else
          let p := p.skipWs
          if p.peek = some closeBracket then return finished p
          else
            match p.parseValue with
            | .ok (value, p) => return (some value, ⟨p, true, false⟩)
            | .error (.error _) => return finished p
            | .error f => .error f

/-- What is left of the iteration, for at most `k` calls. -/
def collect : ℕ → Elements → Parsed (List Value)
  | 0, _ => .error .hang
  | k + 1, e => do
      match ← e.next with
      | (none, _) => return []
      | (some value, e) => return value :: (← collect k e)

theorem next_returns {e : Elements} (hin : e.p.Within) :
    ∃ r, e.next = .ok r ∧ ∀ v, r.1 = some v → Parser.Moves e.p r.2.p := by
  have hend : ∀ p v, (finished p).1 = some v → Parser.Moves e.p (finished p).2.p := by
    intro p v h
    cases h
  unfold next
  generalize (if e.started then comma else openBracket) = delimiter
  by_cases hdone : e.done
  · rw [if_pos hdone]
    exact ⟨_, rfl, fun v h => by cases h⟩
  rw [if_neg hdone]
  rcases hn : e.p.skipWs.next with ⟨b, q⟩
  rcases b with - | b
  · exact ⟨_, rfl, hend q⟩
  have hq := Parser.Moves.of_skipWs hin (Parser.next_moves hn).2
  simp only
  split_ifs
  · exact ⟨_, rfl, hend _⟩
  · exact ⟨_, rfl, hend _⟩
  · -- an element, or what is none and ends the iteration
    rcases q.skipWs.parseValue_settles with ⟨err, he⟩ | ⟨⟨value, q'⟩, he, hv⟩
    · rw [he]
      exact ⟨_, rfl, hend _⟩
    · rw [he]
      exact ⟨_, rfl, fun v _ => hq.trans (Parser.Moves.of_skipWs hq.within hv)⟩

theorem collect_returns {k : ℕ} {e : Elements} (hin : e.p.Within)
    (hk : e.p.s.length - e.p.i < k) : ∃ values, collect k e = .ok values := by
  induction k generalizing e with
  | zero => exact absurd hk (Nat.not_lt_zero _)
  | succ k ih =>
    obtain ⟨⟨v, e'⟩, he, hv⟩ := next_returns hin
    rw [collect, he]
    rcases v with - | v
    · exact ⟨[], rfl⟩
    · have hm := hv v rfl
      have hforth := hm.forth
      have hwithin := hm.within
      unfold Parser.Within at hwithin
      rw [hm.same] at hwithin
      obtain ⟨values, hvalues⟩ := ih hm.within (by rw [hm.same]; omega)
      refine ⟨v :: values, ?_⟩
      show (do return v :: (← collect k e')) = _
      rw [hvalues]
      rfl

theorem collect_new (raw : List UInt8) :
    ∃ values, collect (raw.length + 1) (new raw) = .ok values :=
  collect_returns (Nat.zero_le _) (Nat.lt_succ_self _)

end Elements

/-- What a call returns that is known to. -/
def returned {α : Type} {r : Parsed α} (h : ∃ a, r = .ok a) : α :=
  match r with
  | .ok a => a
  | .error _ => absurd h (by rintro ⟨_, h⟩; cases h)

/-- The elements of a JSON array. -/
def elements (raw : List UInt8) : List Value := returned (Elements.collect_new raw)

theorem returned_eq {α : Type} {r : Parsed α} {h : ∃ a, r = .ok a} {a : α} (ha : r = .ok a) :
    returned h = a := by
  subst ha
  rfl

/-- The iteration ends at once on what does not start like an array. -/
theorem elements_eq_nil {raw : List UInt8}
    (h : (Parser.skipWs ⟨raw, 0⟩).peek ≠ some openBracket) : elements raw = [] := by
  have hend : ∃ e, (Elements.new raw).next = .ok (none, e) := by
    unfold Elements.next
    rw [if_neg (show ¬ (Elements.new raw).done = true from Bool.false_ne_true)]
    rcases hn : (Elements.new raw).p.skipWs.next with ⟨b, q⟩
    rcases b with - | b
    · exact ⟨_, rfl⟩
    · have hne : b ≠ openBracket := by
        rintro rfl
        exact h (Parser.next_moves hn).1
      refine ⟨_, if_pos ?_⟩
      exact hne
  obtain ⟨e, he⟩ := hend
  refine returned_eq ?_
  rw [Elements.collect, he]
  rfl

/-- Braces and quotes inside strings do not count. -/
example : field "\x7b\"A\":\x7b\"s\":\"\x7d\x7b[]\\\"\"\x7d, \"B\":\"found\"\x7d".toUTF8.toList
    "B".toUTF8.toList = .ok (some (.str "found".toUTF8.toList)) := by decide +kernel

end Lando.Json
