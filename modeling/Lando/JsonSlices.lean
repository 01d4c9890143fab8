/-
Lando/JsonSlices.lean

What the JSON extractor hands out, on every input (`json.rs`, reading).

`Json` shows that no function of the parser panics or hangs.  Here is what the
results are: slices of the input.  An object or array is moreover one whose
closing bracket is that of its opening bracket: with brackets of its kind
counted, and those in strings not, the count of a text that `Unwinds` from 1
comes down to zero exactly at its end.

The iterator over an array may be asked again and again, also behind its end.
Each value takes something off the input, so there are at most as many as there
are bytes.
-/
import Lando.Json
import Mathlib.Data.List.Infix

namespace Lando.Json

open Bytes

/-! ### Slices and brackets -/

/-- What is left of a string behind its opening quote, up to the closing one. -/
inductive StringTail : List UInt8 → Prop
  | close : StringTail [quote]
  | escape (b : UInt8) {x : List UInt8} : StringTail x → StringTail (backslash :: b :: x)
  | byte {b : UInt8} {x : List UInt8} :
      b ≠ quote → b ≠ backslash → StringTail x → StringTail (b :: x)

/-- From this depth of nesting, the text comes to depth zero, at its end and not
before. -/
inductive Unwinds (opening closing : UInt8) : ℕ → List UInt8 → Prop
  | last : Unwinds opening closing 1 [closing]
  | close {depth : ℕ} {x : List UInt8} : Unwinds opening closing (depth + 1) x →
      Unwinds opening closing (depth + 2) (closing :: x)
  | nest {depth : ℕ} {x : List UInt8} : Unwinds opening closing (depth + 1) x →
      Unwinds opening closing depth (opening :: x)
  | string {depth : ℕ} {s x : List UInt8} : StringTail s → Unwinds opening closing depth x →
      Unwinds opening closing depth (quote :: (s ++ x))
  | byte {depth : ℕ} {b : UInt8} {x : List UInt8} : b ≠ quote → b ≠ opening → b ≠ closing →
      Unwinds opening closing depth x → Unwinds opening closing depth (b :: x)

/-- An opening bracket, and what it encloses, and the bracket that closes it. -/
def Enclosed (opening closing : UInt8) (slice : List UInt8) : Prop :=
  ∃ inner, slice = opening :: (inner ++ [closing]) ∧
    Unwinds opening closing 1 (inner ++ [closing])

/-- The value is a slice of the input, or has none. -/
def Value.StandsIn (json : List UInt8) : Value → Prop
  | .str contents => contents <:+: json
  | .number text => text <:+: json
  | .bool _ => True
  | .null => True
  | .raw slice => slice <:+: json ∧
      (Enclosed openBrace closeBrace slice ∨ Enclosed openBracket closeBracket slice)

theorem Unwinds.ends {opening closing : UInt8} {depth : ℕ} {x : List UInt8}
    (h : Unwinds opening closing depth x) : ∃ inner, x = inner ++ [closing] := by
  induction h with
  | last => exact ⟨[], rfl⟩
  | close _ ih =>
    obtain ⟨inner, rfl⟩ := ih
    exact ⟨closing :: inner, rfl⟩
  | nest _ ih =>
    obtain ⟨inner, rfl⟩ := ih
    exact ⟨opening :: inner, rfl⟩
  | string _ _ ih =>
    rename_i s x _ _
    obtain ⟨inner, rfl⟩ := ih
    exact ⟨quote :: (s ++ inner), by rw [List.cons_append, List.append_assoc]⟩
  | byte _ _ _ _ ih =>
    rename_i b x _ _ _ _
    obtain ⟨inner, rfl⟩ := ih
    exact ⟨b :: inner, rfl⟩

theorem slice_isInfix (s : List UInt8) (lo hi : ℕ) : slice s lo hi <:+: s :=
  (List.take_prefix _ _).isInfix.trans (List.drop_suffix _ _).isInfix

/-! ### The text behind a result -/

theorem bind_eq_ok {α β : Type} {r : Parsed α} {f : α → Parsed β} {b : β}
    (h : (r >>= f) = .ok b) : ∃ a, r = .ok a ∧ f a = .ok b := by
  cases r with
  | error e => cases h
  | ok a => exact ⟨a, rfl, h⟩

theorem Settles.of_ok {α : Type} {r : Parsed α} {Q : α → Prop} (h : Settles r Q) {a : α}
    (ha : r = .ok a) : Q a := by
  rcases h with ⟨e, he⟩ | ⟨a', ha', hq⟩
  · rw [he] at ha
    cases ha
  · rw [ha'] at ha
    rwa [← Except.ok.inj ha]

/-- A call that settles is neither a panic nor a hang. -/
theorem Settles.eq_result {α : Type} {r : Parsed α} (h : Settles r fun _ => True) :
    r = h.result.mapError .error := by
  rcases id h with ⟨e, rfl⟩ | ⟨a, rfl, -⟩
  · rfl
  · rfl

theorem closingQuote_text {rest : List UInt8} {i j : ℕ} (h : closingQuote rest i = .ok j) :
    ∃ s y, rest = s ++ y ∧ StringTail s ∧ j = i + s.length := by
  induction rest using List.twoStepInduction generalizing i with
  | nil => cases h
  | singleton b =>
    unfold closingQuote at h
    split_ifs at h with hquote hbackslash
    · subst hquote
      exact ⟨[quote], [], rfl, .close, (Except.ok.inj h).symm⟩
    · cases h
  | cons_cons b c rest ih ih' =>
    unfold closingQuote at h
    split_ifs at h with hquote hbackslash
    · subst hquote
      exact ⟨[quote], c :: rest, rfl, .close, (Except.ok.inj h).symm⟩
    · subst hbackslash
      obtain ⟨s, y, rfl, hs, hj⟩ := ih h
      refine ⟨backslash :: c :: s, y, rfl, .escape c hs, ?_⟩
      simp only [List.length_cons]
      omega
    · obtain ⟨s, y, hrest, hs, hj⟩ := ih' c h
      refine ⟨b :: s, y, by rw [hrest, List.cons_append], .byte hquote hbackslash hs, ?_⟩
      rw [List.length_cons]
      omega

namespace Parser

variable {p p' : Parser} {opening closing : UInt8}

theorem drop_of_next {b : UInt8} (h : p.next = (some b, p')) :
    p' = { p with i := p.i + 1 } ∧ p.s.drop p.i = b :: p'.s.drop p'.i := by
  obtain ⟨hpeek, rfl⟩ := next_some h
  obtain ⟨hlt, hb⟩ := List.getElem?_eq_some_iff.mp hpeek
  exact ⟨rfl, by rw [List.drop_eq_getElem_cons hlt, hb]⟩

theorem sub_eq_ok {lo hi : ℕ} {bytes : List UInt8} (h : p.sub lo hi = .ok bytes) :
    bytes = slice p.s lo hi := by
  unfold sub at h
  split_ifs at h
  exact (Except.ok.inj h).symm

theorem text_isInfix {lo hi : ℕ} {bytes : List UInt8} (h : p.text lo hi = .ok bytes) :
    bytes <:+: p.s := by
  obtain ⟨bytes', hsub, h⟩ := bind_eq_ok h
  split_ifs at h
  · obtain rfl := Except.ok.inj h
    rw [sub_eq_ok hsub]
    exact slice_isInfix _ _ _

/-- A string takes its quotes and what is between them off the input. -/
theorem parseString_text {contents : List UInt8} (h : p.parseString = .ok (contents, p')) :
    contents <:+: p.s ∧ ∃ s, StringTail s ∧
      p' = { p with i := p.i + (quote :: s).length } ∧
      p.s.drop p.i = quote :: (s ++ p'.s.drop p'.i) := by
  obtain ⟨q, hexpect, h⟩ := bind_eq_ok h
  obtain ⟨i, hi, h⟩ := bind_eq_ok h
  obtain ⟨last, -, h⟩ := bind_eq_ok h
  obtain ⟨contents', htext, h⟩ := bind_eq_ok h
  obtain ⟨rfl, rfl⟩ := Prod.mk.inj (Except.ok.inj h)
  unfold expect at hexpect
  split_ifs at hexpect with hquote
  obtain ⟨hq, hdrop⟩ := drop_of_next (Prod.ext hquote rfl : p.next = (some quote, p.next.2))
  obtain rfl := Except.ok.inj hexpect
  obtain ⟨s, y, hrest, hs, rfl⟩ := closingQuote_text hi
  have hcontents := text_isInfix htext
  rw [hrest] at hdrop
  rw [hq] at hcontents hrest ⊢
  have hlen : p.i + 1 + s.length = p.i + (quote :: s).length := by
    rw [List.length_cons]
    omega
  refine ⟨hcontents, s, hs, by rw [← hlen], ?_⟩
  rw [hdrop]
  show quote :: (s ++ y) = quote :: (s ++ p.s.drop (p.i + 1 + s.length))
  rw [← List.drop_drop, hrest, List.drop_left]

/-- The loop takes off the input what unwinds from its depth. -/
theorem nested_text {start k depth : ℕ} {raw : List UInt8}
    (h : nested opening closing start k depth p = .ok (raw, p')) :
    ∃ x y, p.s.drop p.i = x ++ y ∧ Unwinds opening closing depth x ∧
      raw = slice p.s start (p.i + x.length) := by
  induction k generalizing p depth with
  | zero => cases h
  | succ k ih =>
    rw [nested] at h
    rcases hn : p.next with ⟨b, q⟩
    rw [hn] at h
    rcases b with - | b
    · cases h
    obtain ⟨hq, hdrop⟩ := drop_of_next hn
    -- one byte, and the rest of the loop behind it
    have hlater : ∀ {depth'}, nested opening closing start k depth' q = .ok (raw, p') →
        ∃ x y, p.s.drop p.i = b :: (x ++ y) ∧ Unwinds opening closing depth' x ∧
          raw = slice p.s start (p.i + (b :: x).length) := by
      intro depth' h'
      obtain ⟨x, y, hrest, hx, hraw⟩ := ih h'
      refine ⟨x, y, by rw [hdrop, hrest], hx, ?_⟩
      rw [hraw, hq, List.length_cons]
      congr 1
      show p.i + 1 + x.length = p.i + (x.length + 1)
      omega
    simp only at h
    split_ifs at h with hquote hopening hclosing
    · -- a string, from the quote that the index went back to
      obtain ⟨i, hi, h⟩ := bind_eq_ok h
      have hback : ({ q with i := i } : Parser) = p := by
        rw [hq] at hi ⊢
        rw [← Except.ok.inj hi]
      rw [hback] at h
      obtain ⟨⟨contents, r⟩, hstring, h⟩ := bind_eq_ok h
      obtain ⟨-, s, hs, hr, htext⟩ := parseString_text hstring
      obtain ⟨x, y, hrest, hx, hraw⟩ := ih h
      refine ⟨quote :: (s ++ x), y, ?_, .string hs hx, ?_⟩
      · rw [htext, hrest, List.cons_append, List.append_assoc]
      · rw [hraw, hr]
        congr 1
        simp only [List.length_cons, List.length_append]
        omega
    · obtain ⟨x, y, hrest, hx, hraw⟩ := hlater h
      subst hopening
      exact ⟨b :: x, y, hrest, .nest hx, hraw⟩
    · obtain ⟨depth', hdepth, hrest⟩ := bind_eq_ok h
      obtain rfl : depth = depth' + 1 := by
        cases depth with
        | zero => cases hdepth
        | succ d => rw [Except.ok.inj hdepth]
      subst hclosing
      split_ifs at hrest with hzero
      · -- the bracket that closes
        obtain ⟨bytes, hsub, hend⟩ := bind_eq_ok hrest
        obtain ⟨rfl, rfl⟩ := Prod.mk.inj (Except.ok.inj hend)
        subst hzero
        refine ⟨[b], q.s.drop q.i, hdrop, .last, ?_⟩
        rw [sub_eq_ok hsub, hq]
        rfl
      · obtain ⟨x, y, htext, hx, hraw⟩ := hlater hrest
        obtain ⟨d, rfl⟩ := Nat.exists_eq_succ_of_ne_zero hzero
        exact ⟨b :: x, y, htext, .close hx, hraw⟩
    · obtain ⟨x, y, hrest, hx, hraw⟩ := hlater h
      exact ⟨b :: x, y, hrest, .byte hquote hopening hclosing hx, hraw⟩

/-- A nested value is enclosed by its brackets. -/
theorem skipNested_text {raw : List UInt8} (hp : p.peek = some opening) (hne : opening ≠ quote)
    (h : p.skipNested opening closing = .ok (raw, p')) :
    raw <:+: p.s ∧ Enclosed opening closing raw := by
  obtain ⟨x, y, hrest, hx, hraw⟩ := nested_text h
  rw [slice, Nat.add_sub_cancel_left, hrest, List.take_left] at hraw
  subst hraw
  have hwithin : raw <:+: p.s := by
    refine List.IsInfix.trans ?_ (List.drop_suffix p.i p.s).isInfix
    rw [hrest]
    exact (List.prefix_append raw y).isInfix
  refine ⟨hwithin, ?_⟩
  obtain ⟨hlt, hb⟩ := List.getElem?_eq_some_iff.mp hp
  rw [List.drop_eq_getElem_cons hlt, hb] at hrest
  -- from depth zero only the opening bracket leads on
  cases hx with
  | nest hx =>
    obtain ⟨inner, rfl⟩ := hx.ends
    exact ⟨inner, rfl, hx⟩
  | string hs hx =>
    rw [List.cons_append, List.cons.injEq] at hrest
    exact absurd hrest.1 hne
  | byte hquote hopening hclosing hx =>
    rw [List.cons_append, List.cons.injEq] at hrest
    exact absurd hrest.1.symm hopening

theorem parseNumber_text {v : Value} (h : p.parseNumber = .ok (v, p')) : v.StandsIn p.s := by
  unfold parseNumber at h
  generalize htake : ((p.s.drop p.i).takeWhile isNumeric).length = n at h
  simp only at h
  by_cases hstop : p.i + n = p.i
  · rw [if_pos hstop] at h
    cases h
  · rw [if_neg hstop] at h
    obtain ⟨text, htext, h⟩ := bind_eq_ok h
    obtain ⟨rfl, -⟩ := Prod.mk.inj (Except.ok.inj h)
    exact text_isInfix htext

/-- **A value stands in the input.** -/
theorem parseValue_text {v : Value} (h : p.parseValue = .ok (v, p')) : v.StandsIn p.s := by
  unfold parseValue at h
  rcases hp : p.peek with - | b
  · rw [hp] at h
    cases h
  rw [hp] at h
  simp only at h
  split_ifs at h with h₁ h₂ h₃ h₄ h₅ h₆
  · obtain ⟨⟨contents, q⟩, hstring, h⟩ := bind_eq_ok h
    obtain ⟨rfl, -⟩ := Prod.mk.inj (Except.ok.inj h)
    exact (parseString_text hstring).1
  · obtain ⟨⟨raw, q⟩, hnested, h⟩ := bind_eq_ok h
    obtain ⟨rfl, -⟩ := Prod.mk.inj (Except.ok.inj h)
    obtain ⟨hwithin, hclosed⟩ := skipNested_text (by rw [hp, h₂]) (by decide) hnested
    exact ⟨hwithin, .inl hclosed⟩
  · obtain ⟨⟨raw, q⟩, hnested, h⟩ := bind_eq_ok h
    obtain ⟨rfl, -⟩ := Prod.mk.inj (Except.ok.inj h)
    obtain ⟨hwithin, hclosed⟩ := skipNested_text (by rw [hp, h₃]) (by decide) hnested
    exact ⟨hwithin, .inr hclosed⟩
  · obtain ⟨q, -, h⟩ := bind_eq_ok h
    obtain ⟨rfl, -⟩ := Prod.mk.inj (Except.ok.inj h)
    trivial
  · obtain ⟨q, -, h⟩ := bind_eq_ok h
    obtain ⟨rfl, -⟩ := Prod.mk.inj (Except.ok.inj h)
    trivial
  · obtain ⟨q, -, h⟩ := bind_eq_ok h
    obtain ⟨rfl, -⟩ := Prod.mk.inj (Except.ok.inj h)
    trivial
  · exact parseNumber_text h

theorem member_text {want : List UInt8} {k : ℕ} {v : Value}
    (h : member want k p = .ok (some v)) : v.StandsIn p.s := by
  induction k generalizing p with
  | zero => cases h
  | succ k ih =>
    obtain ⟨⟨key, p₁⟩, hkey, h⟩ := bind_eq_ok h
    obtain ⟨p₂, hcolon, h⟩ := bind_eq_ok h
    obtain ⟨⟨value, p₃⟩, hvalue, h⟩ := bind_eq_ok h
    -- all of them are parsers of the same input
    have h₁ : p₁.s = p.s := ((p.skipWs.parseString_settles).of_ok hkey).same
    have h₂ : p₂.s = p₁.s := ((p₁.skipWs.expect_settles colon).of_ok hcolon).2.same
    have h₃ : p₃.s = p₂.s := ((p₂.skipWs.parseValue_settles).of_ok hvalue).same
    simp only at h
    split_ifs at h with hwant
    · obtain rfl := Option.some.inj (Except.ok.inj h)
      have hv : value.StandsIn p₂.skipWs.s := parseValue_text hvalue
      rw [show p₂.skipWs.s = p₂.s from rfl] at hv
      rwa [h₂, h₁] at hv
    · rcases hn : p₃.skipWs.next with ⟨b, p₄⟩
      rw [hn] at h
      rcases b with - | b
      · cases h
      simp only at h
      split_ifs at h with hcomma hbrace
      · have h₄ : p₄.s = p₃.s := (next_moves hn).2.same
        have hv := ih h
        rwa [h₄, h₃, h₂, h₁] at hv
      · cases h

end Parser

/-- A field is looked up without panic and without end, and the value found stands
in the input. -/
theorem lookup_eq (json want : List UInt8) :
    lookup json want = (field json want).mapError .error ∧
      ∀ v, field json want = .ok (some v) → v.StandsIn json := by
  have hlookup : lookup json want = (field json want).mapError .error :=
    (lookup_settles json want).eq_result
  refine ⟨hlookup, fun v hv => ?_⟩
  rw [hv] at hlookup
  obtain ⟨p, hp, h⟩ := bind_eq_ok hlookup
  have hs : p.s = json := ((Parser.expect_settles _ openBrace).of_ok hp).2.same
  simp only at h
  split_ifs at h
  · cases h
  · have hstands := Parser.member_text h
    rwa [show p.skipWs.s = json from hs] at hstands

/-! ### Elements, as often as they are asked for -/

namespace Elements

/-- The results of `n` calls in a row. -/
def calls : ℕ → Elements → Parsed (List (Option Value))
  | 0, _ => .ok []
  | n + 1, e => do
      let (value, e) ← e.next
      return value :: (← calls n e)

theorem next_text {e e' : Elements} {v : Value} (h : e.next = .ok (some v, e')) :
    v.StandsIn e.p.s := by
  unfold next at h
  generalize (if e.started then comma else openBracket) = delimiter at h
  by_cases hdone : e.done
  · rw [if_pos hdone] at h
    cases h
  rw [if_neg hdone] at h
  rcases hn : e.p.skipWs.next with ⟨b, q⟩
  rw [hn] at h
  rcases b with - | b
  · cases h
  have hq : q.s = e.p.s := (Parser.next_moves hn).2.same
  simp only at h
  split_ifs at h
  · cases h
  · cases h
  · rcases hv : q.skipWs.parseValue with f | ⟨value, q'⟩
    · rw [hv] at h
      cases f <;> cases h
    · rw [hv] at h
      obtain ⟨hvalue, -⟩ := Prod.mk.inj (Except.ok.inj h)
      obtain rfl := Option.some.inj hvalue
      have hstands := Parser.parseValue_text hv
      rwa [show q.skipWs.s = e.p.s from hq] at hstands

theorem next_none {e e' : Elements} (h : e.next = .ok (none, e')) : e'.done = true := by
  unfold next at h
  generalize (if e.started then comma else openBracket) = delimiter at h
  by_cases hdone : e.done
  · rw [if_pos hdone] at h
    obtain ⟨-, rfl⟩ := Prod.mk.inj (Except.ok.inj h)
    exact hdone
  rw [if_neg hdone] at h
  rcases hn : e.p.skipWs.next with ⟨b, q⟩
  rw [hn] at h
  rcases b with - | b
  · obtain ⟨-, rfl⟩ := Prod.mk.inj (Except.ok.inj h)
    rfl
  simp only at h
  split_ifs at h
  · obtain ⟨-, rfl⟩ := Prod.mk.inj (Except.ok.inj h)
    rfl
  · obtain ⟨-, rfl⟩ := Prod.mk.inj (Except.ok.inj h)
    rfl
  · rcases hv : q.skipWs.parseValue with f | ⟨value, q'⟩
    · rw [hv] at h
      cases f with
      | error err =>
        obtain ⟨-, rfl⟩ := Prod.mk.inj (Except.ok.inj h)
        rfl
      | panic => cases h
      | hang => cases h
    · rw [hv] at h
      cases h

/-- Behind the end there is nothing more. -/
theorem calls_done {e : Elements} (h : e.done = true) (n : ℕ) :
    calls n e = .ok (List.replicate n none) := by
  induction n with
  | zero => rfl
  | succ n ih =>
    have hnext : e.next = .ok (none, e) := if_pos h
    rw [calls, hnext, List.replicate_succ]
    show (do return none :: (← calls n e)) = _
    rw [ih]
    rfl

theorem filterMap_none (n : ℕ) :
    (none :: List.replicate n (none : Option Value)).filterMap id = [] := by
  rw [List.filterMap_eq_nil_iff]
  intro r hr
  rcases List.mem_cons.mp hr with rfl | hr
  · rfl
  · exact List.eq_of_mem_replicate hr

/-- From the first call without a value on there is none. -/
theorem calls_none {e e' : Elements} (h : e.next = .ok (none, e')) (n : ℕ) :
    calls (n + 1) e = .ok (none :: List.replicate n none) := by
  rw [calls, h]
  show (do return none :: (← calls n e')) = _
  rw [calls_done (next_none h)]
  rfl

theorem calls_some {e e' : Elements} {v : Value} (h : e.next = .ok (some v, e')) {n : ℕ}
    {results : List (Option Value)} (hresults : calls n e' = .ok results) :
    calls (n + 1) e = .ok (some v :: results) := by
  rw [calls, h]
  show (do return some v :: (← calls n e')) = _
  rw [hresults]
  rfl

/-- The calls return, and their values take something off the input each. -/
theorem calls_spec (n : ℕ) {e : Elements} (hin : e.p.Within) :
    ∃ results, calls n e = .ok results ∧
      (results.filterMap id).length + e.p.i ≤ e.p.s.length ∧
      ∀ v, some v ∈ results → v.StandsIn e.p.s := by
  induction n generalizing e with
  | zero =>
    refine ⟨[], rfl, ?_, nofun⟩
    rw [List.filterMap_nil, List.length_nil, Nat.zero_add]
    exact hin
  | succ n ih =>
    obtain ⟨⟨v, e'⟩, he, hv⟩ := next_returns hin
    rcases v with - | v
    · -- the end: all that follows is nothing
      refine ⟨none :: List.replicate n none, calls_none he n, ?_, ?_⟩
      · rw [filterMap_none, List.length_nil, Nat.zero_add]
        exact hin
      · intro v hmem
        rcases List.mem_cons.mp hmem with h | h
        · cases h
        · cases List.eq_of_mem_replicate h
    · have hm := hv v rfl
      have hforth := hm.forth
      obtain ⟨results, hresults, hlen, hstands⟩ := ih hm.within
      refine ⟨some v :: results, calls_some he hresults, ?_, ?_⟩
      · have hcons : (some v :: results).filterMap id = v :: results.filterMap id := rfl
        have hsame : e'.p.s = e.p.s := hm.same
        rw [hsame] at hlen
        rw [hcons, List.length_cons]
        have : e.p.i < e'.p.i := hforth
        omega
      · intro w hmem
        rcases List.mem_cons.mp hmem with h | h
        · obtain rfl := Option.some.inj h
          exact next_text he
        · rw [← hm.same]
          exact hstands w h

/-- The iteration is what the calls give. -/
theorem calls_of_collect {k : ℕ} {e : Elements} {values : List Value}
    (h : collect k e = .ok values) :
    ∃ results, calls k e = .ok results ∧ results.filterMap id = values := by
  induction k generalizing e values with
  | zero => cases h
  | succ k ih =>
    obtain ⟨⟨v, e'⟩, he, h⟩ := bind_eq_ok h
    rcases v with - | v
    · obtain rfl := Except.ok.inj h
      exact ⟨none :: List.replicate k none, calls_none he k, filterMap_none k⟩
    · obtain ⟨rest, hrest, h⟩ := bind_eq_ok h
      obtain rfl := Except.ok.inj h
      obtain ⟨results, hresults, hvalues⟩ := ih hrest
      refine ⟨some v :: results, calls_some he hresults, ?_⟩
      rw [← hvalues]
      rfl

end Elements

theorem calls_elements (json : List UInt8) :
    ∃ results, Elements.calls (json.length + 1) (.new json) = .ok results ∧
      results.filterMap id = elements json := by
  obtain ⟨values, hvalues⟩ := Elements.collect_new json
  have helements : elements json = values := returned_eq hvalues
  rw [helements]
  exact Elements.calls_of_collect hvalues

/-- **Only slices of the input.**  Whatever the bytes are: `field`, for every key, and
every number of calls of the iterator over the elements return; the values that
they return stand in the input, and the iterator gives one for each byte at most. -/
theorem field_elements_slices (json : List UInt8) :
    (∀ want, lookup json want = (field json want).mapError .error ∧
      ∀ v, field json want = .ok (some v) → v.StandsIn json) ∧
    (∀ n, ∃ results, Elements.calls n (.new json) = .ok results ∧
      (results.filterMap id).length ≤ json.length ∧
      ∀ v, some v ∈ results → v.StandsIn json) ∧
    (elements json).length ≤ json.length ∧ ∀ v ∈ elements json, v.StandsIn json := by
  have hcalls : ∀ n, ∃ results, Elements.calls n (.new json) = .ok results ∧
      (results.filterMap id).length ≤ json.length ∧
      ∀ v, some v ∈ results → v.StandsIn json :=
    fun n => Elements.calls_spec n (Nat.zero_le _)
  obtain ⟨results, hresults, hvalues⟩ := calls_elements json
  obtain ⟨results', hresults', hlen, hstands⟩ := hcalls (json.length + 1)
  rw [hresults] at hresults'
  obtain rfl := Except.ok.inj hresults'
  refine ⟨lookup_eq json, hcalls, by rwa [← hvalues], ?_⟩
  intro v hv
  rw [← hvalues] at hv
  obtain ⟨r, hr, rfl⟩ := List.mem_filterMap.mp hv
  exact hstands v hr

end Lando.Json
