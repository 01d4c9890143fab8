/-
Lando/Rfc8259Length.lean

How many bytes a JSON text without blanks takes.

The width of a value is the number of bytes of its text.  What stands between
brackets is a sum over the items, with one byte behind each that is its comma or
the closing bracket:

    width (.array vs)   =  1 + Σ (width v + 1)
    width (.object ms)  =  1 + Σ (width key + 4 + width v)
-/
import Lando.Rfc8259Compact
import Lando.Utf8

namespace Rfc8259

/-- The bytes of a string, without its quotation marks. -/
def Str.width (s : Str) : ℕ := (Utf8.encode s.raw).length

/-- The bytes of a value. -/
def Value.width (v : Value) : ℕ := (Utf8.encode v.text).length

/-- Items one after the other, each with a byte behind it. -/
theorem length_joined (before : Bool) (ts : List (List Char)) (h : ts ≠ []) :
    (Utf8.encode (joined before ts)).length + 1 =
      (if before then 1 else 0) + (ts.map fun t => (Utf8.encode t).length + 1).sum := by
  have hcomma : (Utf8.encode [',']).length = 1 := rfl
  induction ts generalizing before with
  | nil => exact absurd rfl h
  | cons t ts ih =>
    rw [joined, Utf8.encode_append, Utf8.encode_append, List.length_append,
      List.length_append, List.map_cons, List.sum_cons]
    have hfirst : (Utf8.encode (if before then [','] else [])).length =
        if before then 1 else 0 := by
      cases before
      · rfl
      · exact hcomma
    rw [hfirst]
    by_cases hts : ts = []
    · subst hts
      rw [joined, List.map_nil, List.sum_nil, Utf8.encode_nil, List.length_nil]
      omega
    · have hrest := ih true hts
      rw [if_pos rfl] at hrest
      omega

theorem Str.length_text (s : Str) : (Utf8.encode s.text).length = s.width + 2 := by
  rw [text, Utf8.encode_cons_ascii (by decide), Utf8.encode_append, List.length_cons,
    List.length_append]
  rfl

@[simp] theorem width_string (s : Str) : (Value.string s).width = s.width + 2 := s.length_text

theorem length_memberText (m : Str × Value) :
    (Utf8.encode (memberText m)).length + 1 = m.1.width + 4 + m.2.width := by
  rw [memberText, Utf8.encode_append, List.length_append,
    Utf8.encode_cons_ascii (by decide), List.length_cons, Str.length_text, Value.width]
  omega

/-- The brackets, and what is between them. -/
theorem length_bracketed {o c : Char} (ho : o.toNat < 0x80) (hc : c.toNat < 0x80)
    {ts : List (List Char)} (h : ts ≠ []) :
    (Utf8.encode (o :: (joined false ts ++ [c]))).length =
      1 + (ts.map fun t => (Utf8.encode t).length + 1).sum := by
  have hjoined := length_joined false ts h
  rw [if_neg Bool.false_ne_true, Nat.zero_add] at hjoined
  rw [Utf8.encode_cons_ascii ho, Utf8.encode_append, List.length_cons,
    List.length_append, Utf8.encode_cons_ascii hc, Utf8.encode_nil,
    List.length_singleton, hjoined, Nat.add_comm]

theorem width_array {vs : List Value} (h : vs ≠ []) :
    (Value.array (.compact vs)).width = 1 + (vs.map fun v => v.width + 1).sum := by
  have hne : vs.map Value.text ≠ [] := by rwa [ne_eq, List.map_eq_nil_iff]
  rw [Value.width, Value.text, Array.text_compact,
    length_bracketed (by decide) (by decide) hne, List.map_map]
  rfl

theorem width_object {ms : List (Str × Value)} (h : ms ≠ []) :
    (Value.object (.compact ms)).width =
      1 + (ms.map fun m => m.1.width + 4 + m.2.width).sum := by
  have hne : ms.map memberText ≠ [] := by rwa [ne_eq, List.map_eq_nil_iff]
  rw [Value.width, Value.text, Object.text_compact,
    length_bracketed (by decide) (by decide) hne, List.map_map]
  simp only [Function.comp_def, length_memberText]

/-! ### Strings -/

theorem Str.width_ofChars_nil : (Str.ofChars []).width = 0 := rfl

theorem Str.width_ofChars_cons (c : Char) (cs : List Char) :
    (Str.ofChars (c :: cs)).width =
      (Utf8.encode (Piece.ofChar c).text).length + (Str.ofChars cs).width := by
  show (Utf8.encode ((Piece.ofChar c).text ++ (Str.ofChars cs).raw)).length = _
  rw [Utf8.encode_append, List.length_append]
  rfl

@[simp] theorem Str.width_ofChars_append (cs ds : List Char) :
    (Str.ofChars (cs ++ ds)).width = (Str.ofChars cs).width + (Str.ofChars ds).width := by
  induction cs with
  | nil => exact (Nat.zero_add _).symm
  | cons c cs ih => rw [List.cons_append, width_ofChars_cons, ih, width_ofChars_cons, Nat.add_assoc]

/-- An unescaped character is written as itself. -/
theorem Piece.text_ofChar {c : Char} (h : Unescaped c) : (Piece.ofChar c).text = [c] := by
  obtain ⟨hle, hquote, hbackslash⟩ := h
  have hne : ∀ d : Char, d.toNat < 0x20 → c ≠ d := fun d hd he => by
    rw [he] at hle
    exact absurd hle (Nat.not_le.mpr hd)
  rw [Piece.ofChar, dif_neg hquote, dif_neg hbackslash, if_neg (hne _ (by decide)),
    if_neg (hne _ (by decide)), if_neg (hne _ (by decide)), dif_pos hle]
  rfl

/-- Without escapes a string takes the bytes of its characters. -/
theorem Str.width_ofChars_unescaped {cs : List Char} (h : ∀ c ∈ cs, Unescaped c) :
    (Str.ofChars cs).width = (Utf8.encode cs).length := by
  induction cs with
  | nil => rfl
  | cons c cs ih =>
    rw [width_ofChars_cons, Piece.text_ofChar (h c List.mem_cons_self),
      ih fun d hd => h d (List.mem_cons_of_mem c hd), ← List.length_append, ← Utf8.encode_append,
      List.singleton_append]

/-- A character that is written as itself, in one byte. -/
def Single (c : Char) : Prop := (Utf8.encode (Piece.ofChar c).text).length = 1

instance (c : Char) : Decidable (Single c) := inferInstanceAs (Decidable (_ = _))

/-- Without escapes a string takes a byte for each character. -/
theorem Str.width_ofChars_single {cs : List Char} (h : ∀ c ∈ cs, Single c) :
    (Str.ofChars cs).width = cs.length := by
  induction cs with
  | nil => rfl
  | cons c cs ih =>
    have hc : (Utf8.encode (Piece.ofChar c).text).length = 1 := h c List.mem_cons_self
    rw [width_ofChars_cons, hc, ih fun d hd => h d (List.mem_cons_of_mem c hd),
      List.length_cons, Nat.add_comm]

end Rfc8259
