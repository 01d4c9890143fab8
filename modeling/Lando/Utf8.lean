/-
Lando/Utf8.lean

UTF-8 as lists: the bytes of a list of characters, and back.

Core has both directions for byte arrays.  What a scanner of bytes needs of them
is one fact more: the bytes below `0x80` are the ASCII characters themselves,

    encode [c] = [c]            if c is below 0x80
    0x80 ≤ b for b in encode [c]   otherwise

so that a scan for an ASCII byte finds the character and nothing else.
-/
import Mathlib.Data.List.Basic
import Mathlib.Data.UInt

namespace Utf8

/-- What holds of a table, item by item. -/
theorem forall_table {α : Type} {table : List α} {p : α → Prop} [DecidablePred p]
    (h : (table.all fun x => decide (p x)) = true) : ∀ x ∈ table, p x :=
  fun x hx => of_decide_eq_true (List.all_eq_true.mp h x hx)

/-- The bytes of a text. -/
def encode (cs : List Char) : List UInt8 := cs.flatMap String.utf8EncodeChar

/-- The text of bytes, if they are one. -/
def decode (bs : List UInt8) : Option (List Char) :=
  ((ByteArray.mk bs.toArray).utf8Decode?).map Array.toList

@[simp] theorem encode_nil : encode [] = [] := rfl

@[simp] theorem encode_append (cs ds : List Char) : encode (cs ++ ds) = encode cs ++ encode ds :=
  List.flatMap_append

theorem encode_cons (c : Char) (cs : List Char) :
    encode (c :: cs) = String.utf8EncodeChar c ++ encode cs := rfl

/-! ### Both directions -/

theorem mk_encode (cs : List Char) : ByteArray.mk (encode cs).toArray = cs.utf8Encode := by
  rw [List.utf8Encode, ByteArray.ext_iff, List.data_toByteArray]
  rfl

@[simp] theorem decode_encode (cs : List Char) : decode (encode cs) = some cs := by
  rw [decode, mk_encode, List.utf8Decode?_utf8Encode]
  rfl

theorem encode_of_decode {bs : List UInt8} {cs : List Char} (h : decode bs = some cs) :
    encode cs = bs := by
  obtain ⟨chars, hchars, rfl⟩ := Option.map_eq_some_iff.mp h
  obtain ⟨ds, hds⟩ := ByteArray.isSome_utf8Decode?_iff.mp (Option.isSome_of_eq_some hchars)
  rw [hds, List.utf8Decode?_utf8Encode] at hchars
  obtain rfl := Option.some.inj hchars
  rw [← mk_encode, ByteArray.mk.injEq] at hds
  exact (List.toArray_inj hds).symm

theorem encode_inj {cs ds : List Char} (h : encode cs = encode ds) : cs = ds := by
  have hd := congrArg decode h
  rw [decode_encode, decode_encode] at hd
  exact Option.some.inj hd

/-- Validation accepts the bytes of texts. -/
theorem validate_iff {bs : List UInt8} :
    (ByteArray.mk bs.toArray).validateUTF8 = true ↔ ∃ cs, encode cs = bs := by
  rw [ByteArray.validateUTF8_eq_true_iff]
  constructor
  · intro h
    obtain ⟨chars, hchars⟩ :=
      Option.isSome_iff_exists.mp (ByteArray.isSome_utf8Decode?_iff.mpr h)
    exact ⟨chars.toList, encode_of_decode (congrArg (Option.map Array.toList) hchars)⟩
  · rintro ⟨cs, rfl⟩
    rw [mk_encode]
    exact ByteArray.isValidUTF8_utf8Encode

/-! ### Strings -/

theorem toList_loop (bs : ByteArray) (i : ℕ) (r : List UInt8) :
    ByteArray.toList.loop bs i r = r.reverse ++ bs.data.toList.drop i := by
  induction hk : bs.size - i generalizing i r with
  | zero =>
    rw [ByteArray.toList.loop, if_neg (by omega), List.drop_eq_nil_of_le, List.append_nil]
    show bs.size ≤ i
    omega
  | succ k ih =>
    have hi : i < bs.data.toList.length := by
      show i < bs.size
      omega
    have hget : bs.get! i = bs.data.toList[i] := getElem!_pos bs.data i hi
    rw [ByteArray.toList.loop, if_pos (by omega), ih _ _ (by omega), List.drop_eq_getElem_cons hi,
      List.reverse_cons, List.append_assoc, hget]
    rfl

theorem toList_eq (bs : ByteArray) : bs.toList = bs.data.toList := toList_loop bs 0 []

/-- The bytes of a string. -/
theorem toList_toUTF8 (s : String) : s.toUTF8.toList = encode s.toList := by
  rw [toList_eq, String.toUTF8_eq_toByteArray, ← String.utf8Encode_toList, ← mk_encode]

/-! ### ASCII -/

theorem utf8EncodeChar_of_ascii {c : Char} (h : c.toNat < 0x80) :
    String.utf8EncodeChar c = [.ofNat c.toNat] := by
  have hle : c.toNat ≤ 0x7f := Nat.le_of_lt_succ h
  unfold String.utf8EncodeChar
  exact if_pos hle

theorem encode_cons_ascii {c : Char} (h : c.toNat < 0x80) (cs : List Char) :
    encode (c :: cs) = .ofNat c.toNat :: encode cs := by
  rw [encode_cons, utf8EncodeChar_of_ascii h, List.singleton_append]

/-- The bytes of a character outside ASCII. -/
theorem bounds_of_mem_utf8EncodeChar {c : Char} (h : 0x80 ≤ c.toNat) {b : UInt8}
    (hb : b ∈ String.utf8EncodeChar c) : 0x80 ≤ b ∧ b < 0xf8 := by
  have high : ∀ n, 0x80 ≤ n → n < 0xf8 → 0x80 ≤ UInt8.ofNat n ∧ UInt8.ofNat n < 0xf8 := by
    intro n hn hlt
    rw [UInt8.le_iff_toNat_le, UInt8.lt_iff_toNat_lt, UInt8.toNat_ofNat',
      Nat.mod_eq_of_lt (Nat.lt_trans hlt (by decide))]
    exact ⟨hn, hlt⟩
  have hc : ¬ c.val.toNat ≤ 0x7f := Nat.not_le.mpr h
  unfold String.utf8EncodeChar at hb
  simp only [if_neg hc] at hb
  split_ifs at hb
  · simp only [List.mem_cons, List.not_mem_nil, or_false] at hb
    rcases hb with rfl | rfl
    · exact high _ (by omega) (by omega)
    · exact high _ (by omega) (by omega)
  · simp only [List.mem_cons, List.not_mem_nil, or_false] at hb
    rcases hb with rfl | rfl | rfl
    · exact high _ (by omega) (by omega)
    · exact high _ (by omega) (by omega)
    · exact high _ (by omega) (by omega)
  · simp only [List.mem_cons, List.not_mem_nil, or_false] at hb
    rcases hb with rfl | rfl | rfl | rfl
    · exact high _ (by omega) (by omega)
    · exact high _ (by omega) (by omega)
    · exact high _ (by omega) (by omega)
    · exact high _ (by omega) (by omega)

/-- A character outside ASCII has no byte in ASCII. -/
theorem le_of_mem_utf8EncodeChar {c : Char} (h : 0x80 ≤ c.toNat) {b : UInt8}
    (hb : b ∈ String.utf8EncodeChar c) : 0x80 ≤ b := (bounds_of_mem_utf8EncodeChar h hb).1

/-- Bytes from `0xf8` on are in no text. -/
theorem decode_eq_none {bs : List UInt8} {b : UInt8} (hb : b ∈ bs) (h : 0xf8 ≤ b) :
    decode bs = none := by
  cases hd : decode bs with
  | none => rfl
  | some cs =>
    rw [← encode_of_decode hd] at hb
    obtain ⟨c, -, hbc⟩ := List.mem_flatMap.mp hb
    rcases Nat.lt_or_ge c.toNat 0x80 with hlt | hge
    · rw [utf8EncodeChar_of_ascii hlt, List.mem_singleton] at hbc
      have hnat : b.toNat = c.toNat := by
        rw [hbc, UInt8.toNat_ofNat', Nat.mod_eq_of_lt (Nat.lt_trans hlt (by decide))]
      have hle : 0xf8 ≤ b.toNat := UInt8.le_iff_toNat_le.mp h
      omega
    · exact absurd (bounds_of_mem_utf8EncodeChar hge hbc).2 (UInt8.not_lt.mpr h)

/-- The text of ASCII bytes. -/
def ascii (bs : List UInt8) : List Char := bs.map fun b => Char.ofNat b.toNat

theorem toNat_ofNat {n : ℕ} (h : n.isValidChar) : (Char.ofNat n).toNat = n := by
  unfold Char.ofNat
  rw [dif_pos h]
  rfl

theorem toNat_ofNat_ascii {b : UInt8} (h : b < 0x80) : (Char.ofNat b.toNat).toNat = b.toNat := by
  have hb : b.toNat < 0x80 := UInt8.lt_iff_toNat_lt.mp h
  exact toNat_ofNat (.inl (by omega))

theorem encode_ascii {bs : List UInt8} (h : ∀ b ∈ bs, b < 0x80) : encode (ascii bs) = bs := by
  induction bs with
  | nil => rfl
  | cons b bs ih =>
    have hb : b < 0x80 := h b List.mem_cons_self
    have hlt : (Char.ofNat b.toNat).toNat < 0x80 := by
      rw [toNat_ofNat_ascii hb]
      exact UInt8.lt_iff_toNat_lt.mp hb
    rw [ascii, List.map_cons, encode_cons_ascii hlt, toNat_ofNat_ascii hb, UInt8.ofNat_toNat,
      ← ascii, ih fun b hb => h b (List.mem_cons_of_mem _ hb)]

end Utf8
