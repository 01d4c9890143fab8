/-
Lando/Rfc7541.lean

Decoding HPACK header blocks (RFC 7541), with a dynamic table of size zero and
without Huffman coding.

A block is a sequence of representations, told apart by the top bits of their
first byte; integers share that byte with the pattern (section 5.1), strings
are octets behind their length (section 5.2).  The encoder's side of an integer
is the format itself: `prefixed` puts a value behind the bits of a pattern, and

    integer n (prefixed n flags v ++ rest) = some (v, rest).
-/
import Mathlib.Data.List.Basic
import Mathlib.Data.UInt

namespace Rfc7541

/-! ### Integers -/

/-- The octets behind a full prefix: seven bits each, the lowest first, and the
top bit on all but the last. -/
def continuation : List UInt8 → Option (ℕ × List UInt8)
  | [] => none
  | b :: bs =>
      if b.toNat < 128 then some (b.toNat, bs)
      else (continuation bs).map fun (v, rest) => (b.toNat % 128 + 128 * v, rest)

/-- An integer with a prefix of `n` bits. -/
def integer (n : ℕ) : List UInt8 → Option (ℕ × List UInt8)
  | [] => none
  | b :: bs =>
      let i := b.toNat % 2 ^ n
      if i < 2 ^ n - 1 then some (i, bs)
      else (continuation bs).map fun (v, rest) => (i + v, rest)

/-- The octets of `v` behind a full prefix. -/
def continued (v : ℕ) : List UInt8 :=
  if 128 ≤ v then (.ofNat (v % 128) + 128) :: continued (v / 128) else [.ofNat v]
termination_by v
decreasing_by omega

/-- The octets of `v`, the top bits of the first being those of `flags`. -/
def prefixed (n : ℕ) (flags : UInt8) (v : ℕ) : List UInt8 :=
  if v < 2 ^ n - 1 then [flags ||| .ofNat v]
  else (flags ||| .ofNat (2 ^ n - 1)) :: continued (v - (2 ^ n - 1))

theorem continuation_continued (v : ℕ) (rest : List UInt8) :
    continuation (continued v ++ rest) = some (v, rest) := by
  induction v using Nat.strong_induction_on with
  | _ v ih =>
    rw [continued]
    split_ifs with h
    · have hbyte : (UInt8.ofNat (v % 128) + 128).toNat = v % 128 + 128 := by
        rw [UInt8.toNat_add, UInt8.toNat_ofNat']
        have h128 : (128 : UInt8).toNat = 128 := rfl
        omega
      have hlow : (v % 128 + 128) % 128 + 128 * (v / 128) = v := by omega
      rw [List.cons_append, continuation, hbyte, if_neg (by omega), ih (v / 128) (by omega)]
      simp only [Option.map_some, hlow]
    · have hbyte : (UInt8.ofNat v).toNat = v := by
        rw [UInt8.toNat_ofNat']
        omega
      rw [List.singleton_append, continuation, hbyte, if_pos (by omega)]

/-- Bits put below the bits of a pattern. -/
theorem toNat_or_of_lt {n v : ℕ} {flags : UInt8} (hn : n ≤ 8) (hflags : flags.toNat % 2 ^ n = 0)
    (hv : v < 2 ^ n) : (flags ||| .ofNat v).toNat = flags.toNat + v := by
  have hpow : 2 ^ n ≤ 2 ^ 8 := Nat.pow_le_pow_right (by decide) hn
  have hbyte : (UInt8.ofNat v).toNat = v := by
    rw [UInt8.toNat_ofNat', Nat.mod_eq_of_lt (Nat.lt_of_lt_of_le hv hpow)]
  have hsplit : flags.toNat = 2 ^ n * (flags.toNat / 2 ^ n) := by
    have hdiv := Nat.div_add_mod flags.toNat (2 ^ n)
    omega
  rw [UInt8.toNat_or, hbyte, hsplit, Nat.two_pow_add_eq_or_of_lt hv]

/-- **Integers are decoded back**, behind any pattern and with anything after
them. -/
theorem integer_prefixed (n : ℕ) (flags : UInt8) (hpos : 1 ≤ n) (hn : n ≤ 8)
    (hflags : flags.toNat % 2 ^ n = 0) (v : ℕ) (rest : List UInt8) :
    integer n (prefixed n flags v ++ rest) = some (v, rest) := by
  have hpow : 2 ≤ 2 ^ n := Nat.pow_le_pow_right Nat.two_pos hpos
  have hlow : ∀ x, x < 2 ^ n → (flags ||| .ofNat x).toNat % 2 ^ n = x := by
    intro x hx
    rw [toNat_or_of_lt hn hflags hx, Nat.add_mod, hflags, Nat.zero_add, Nat.mod_mod,
      Nat.mod_eq_of_lt hx]
  rw [prefixed]
  split_ifs with h
  · rw [List.singleton_append, integer]
    simp only [hlow v (by omega), if_pos h]
  · -- a full prefix, and the rest of the value behind it
    rw [List.cons_append, integer]
    simp only [hlow (2 ^ n - 1) (by omega), Nat.lt_irrefl, if_false, continuation_continued,
      Option.map_some]
    rw [Nat.add_sub_cancel' (Nat.not_lt.mp h)]

/-- The first octet shows the pattern. -/
theorem prefixed_head (n : ℕ) (flags : UInt8) (hn : n ≤ 8) (hflags : flags.toNat % 2 ^ n = 0)
    (v : ℕ) : ∃ b bs, prefixed n flags v = b :: bs ∧ b.toNat / 2 ^ n = flags.toNat / 2 ^ n := by
  have hpow : 0 < 2 ^ n := Nat.two_pow_pos n
  have hdiv : ∀ x, x < 2 ^ n → (flags ||| .ofNat x).toNat / 2 ^ n = flags.toNat / 2 ^ n := by
    intro x hx
    have hsplit := Nat.div_add_mod flags.toNat (2 ^ n)
    rw [hflags, Nat.add_zero] at hsplit
    rw [toNat_or_of_lt hn hflags hx, ← hsplit, Nat.mul_add_div hpow, Nat.div_eq_of_lt hx,
      Nat.add_zero, Nat.mul_div_cancel_left _ hpow]
  rw [prefixed]
  split_ifs with h
  · exact ⟨_, [], rfl, hdiv v (by omega)⟩
  · exact ⟨_, _, rfl, hdiv (2 ^ n - 1) (by omega)⟩

/-! ### Strings -/

/-- A string literal that is not Huffman-coded. -/
def string (bs : List UInt8) : Option (List UInt8 × List UInt8) :=
  match bs with
  | [] => none
  | b :: _ =>
      if 128 ≤ b.toNat then none
      else do
        let (len, rest) ← integer 7 bs
        if rest.length < len then none else some (rest.take len, rest.drop len)

theorem string_prefixed (s rest : List UInt8) :
    string (prefixed 7 0 s.length ++ (s ++ rest)) = some (s, rest) := by
  have hint := integer_prefixed 7 0 (by decide) (by decide) rfl s.length (s ++ rest)
  obtain ⟨b, bs, hhead, hdiv⟩ := prefixed_head 7 0 (by decide) rfl s.length
  have hb : ¬ 128 ≤ b.toNat := by
    have hzero : b.toNat / 2 ^ 7 = 0 := hdiv
    omega
  rw [hhead, List.cons_append] at hint ⊢
  rw [string]
  simp only [if_neg hb, hint, Option.bind_eq_bind, Option.bind_some]
  rw [if_neg (by rw [List.length_append]; omega), List.take_left, List.drop_left]

/-! ### The static table -/

/-- A header field. -/
structure Field where
  name : List UInt8
  value : List UInt8
  deriving DecidableEq

/-- Appendix A. -/
def staticTable : List (String × String) := [
  (":authority", ""), (":method", "GET"), (":method", "POST"), (":path", "/"),
  (":path", "/index.html"), (":scheme", "http"), (":scheme", "https"), (":status", "200"),
  (":status", "204"), (":status", "206"), (":status", "304"), (":status", "400"),
  (":status", "404"), (":status", "500"), ("accept-charset", ""),
  ("accept-encoding", "gzip, deflate"), ("accept-language", ""), ("accept-ranges", ""),
  ("accept", ""), ("access-control-allow-origin", ""), ("age", ""), ("allow", ""),
  ("authorization", ""), ("cache-control", ""), ("content-disposition", ""),
  ("content-encoding", ""), ("content-language", ""), ("content-length", ""),
  ("content-location", ""), ("content-range", ""), ("content-type", ""), ("cookie", ""),
  ("date", ""), ("etag", ""), ("expect", ""), ("expires", ""), ("from", ""), ("host", ""),
  ("if-match", ""), ("if-modified-since", ""), ("if-none-match", ""), ("if-range", ""),
  ("if-unmodified-since", ""), ("last-modified", ""), ("link", ""), ("location", ""),
  ("max-forwards", ""), ("proxy-authenticate", ""), ("proxy-authorization", ""), ("range", ""),
  ("referer", ""), ("refresh", ""), ("retry-after", ""), ("server", ""), ("set-cookie", ""),
  ("strict-transport-security", ""), ("transfer-encoding", ""), ("user-agent", ""), ("vary", ""),
  ("via", ""), ("www-authenticate", "")]

/-- The entry of an index; the first one is 1. -/
def entry (i : ℕ) : Option Field :=
  if i = 0 then none
  else staticTable[i - 1]?.map fun (name, value) => ⟨name.toUTF8.toList, value.toUTF8.toList⟩

/-! ### Representations -/

/-- A literal field behind an index of `n` bits: the name is that of the entry, or
a string for index zero. -/
def literal (n : ℕ) (bs : List UInt8) : Option (Field × List UInt8) := do
  let (i, rest) ← integer n bs
  let (name, rest) ← (if i = 0 then string rest else (entry i).map fun e => (e.name, rest))
  let (value, rest) ← string rest
  return (⟨name, value⟩, rest)

/-- One representation.  An update of the table size has no field, and no size but
zero is allowed. -/
def representation (bs : List UInt8) : Option (Option Field × List UInt8) :=
  match bs with
  | [] => none
  | b :: _ =>
      if 128 ≤ b.toNat then do
        let (i, rest) ← integer 7 bs
        let e ← entry i
        return (some e, rest)
      else if 64 ≤ b.toNat then (literal 6 bs).map fun (f, rest) => (some f, rest)
      else if 32 ≤ b.toNat then do
        let (size, rest) ← integer 5 bs
        if size = 0 then return (none, rest) else none
      -- never indexed and not indexed have the same layout
      else (literal 4 bs).map fun (f, rest) => (some f, rest)

/-- Up to `k` representations. -/
def fields : ℕ → List UInt8 → Option (List Field)
  | _, [] => some []
  | 0, _ :: _ => none
  | k + 1, b :: bs => do
      let (f, rest) ← representation (b :: bs)
      let fs ← fields k rest
      return f.toList ++ fs

/-- A header block. -/
def decode (block : List UInt8) : Option (List Field) := fields block.length block

/-- `bs` is one representation of `f`, whatever follows. -/
def Represents (bs : List UInt8) (f : Field) : Prop :=
  bs ≠ [] ∧ ∀ rest, representation (bs ++ rest) = some (some f, rest)

theorem fields_represents {bs : List UInt8} {f : Field} (h : Represents bs f) (k : ℕ)
    (rest : List UInt8) : fields (k + 1) (bs ++ rest) = (fields k rest).map (f :: ·) := by
  obtain ⟨hne, hrep⟩ := h
  obtain ⟨b, bs, rfl⟩ := List.exists_cons_of_ne_nil hne
  rw [List.cons_append, fields, ← List.cons_append, hrep]
  simp only [Option.bind_eq_bind, Option.bind_some]
  cases fields k rest
  · rfl
  · rfl

/-- **A sequence of representations is decoded field by field.** -/
theorem decode_flatten {parts : List (List UInt8 × Field)}
    (h : ∀ p ∈ parts, Represents p.1 p.2) :
    decode (parts.map Prod.fst).flatten = some (parts.map Prod.snd) := by
  have hfields : ∀ k, parts.length ≤ k →
      fields k (parts.map Prod.fst).flatten = some (parts.map Prod.snd) := by
    induction parts with
    | nil =>
      intro k _
      cases k <;> rfl
    | cons p parts ih =>
      intro k hk
      obtain ⟨k, rfl⟩ : ∃ j, k = j + 1 := ⟨k - 1, by rw [List.length_cons] at hk; omega⟩
      rw [List.map_cons, List.flatten_cons, fields_represents (h p List.mem_cons_self),
        ih (fun q hq => h q (List.mem_cons_of_mem p hq)) k (Nat.le_of_succ_le_succ hk)]
      rfl
  refine hfields _ ?_
  -- no representation is empty
  clear hfields
  induction parts with
  | nil => exact Nat.le_refl 0
  | cons p parts ih =>
    have hpos := List.length_pos_iff.mpr (h p List.mem_cons_self).1
    have hrest := ih fun q hq => h q (List.mem_cons_of_mem p hq)
    rw [List.map_cons, List.flatten_cons, List.length_append, List.length_cons]
    omega

/-- An indexed field. -/
theorem represents_indexed {i : ℕ} {f : Field} (h : entry i = some f) :
    Represents (prefixed 7 0x80 i) f := by
  obtain ⟨b, bs, hhead, hdiv⟩ := prefixed_head 7 0x80 (by decide) rfl i
  have hb : 128 ≤ b.toNat := by
    have hone : b.toNat / 2 ^ 7 = 1 := hdiv
    omega
  refine ⟨by rw [hhead]; exact List.cons_ne_nil b bs, fun rest => ?_⟩
  have hint := integer_prefixed 7 0x80 (by decide) (by decide) rfl i rest
  rw [hhead, List.cons_append] at hint ⊢
  rw [representation]
  simp only [if_pos hb, hint, h, Option.bind_eq_bind, Option.bind_some]
  rfl

/-- The pattern of a literal that is never indexed. -/
theorem representation_literal (i : ℕ) (rest : List UInt8) :
    representation (prefixed 4 0x10 i ++ rest) =
      (literal 4 (prefixed 4 0x10 i ++ rest)).map fun (f, rest) => (some f, rest) := by
  obtain ⟨b, bs, hhead, hdiv⟩ := prefixed_head 4 0x10 (by decide) rfl i
  have hone : b.toNat / 2 ^ 4 = 1 := hdiv
  rw [hhead, List.cons_append, representation, if_neg (by omega), if_neg (by omega),
    if_neg (by omega)]

theorem prefixed_ne_nil {n : ℕ} {flags : UInt8} (v : ℕ) : prefixed n flags v ≠ [] := by
  rw [prefixed]
  split_ifs
  · exact List.cons_ne_nil _ _
  · exact List.cons_ne_nil _ _

/-- A literal field that is never indexed, with a name of the table. -/
theorem represents_literal {i : ℕ} {e : Field} (hi : i ≠ 0) (he : entry i = some e)
    (value : List UInt8) :
    Represents (prefixed 4 0x10 i ++ (prefixed 7 0 value.length ++ value)) ⟨e.name, value⟩ := by
  refine ⟨fun h => prefixed_ne_nil i (List.append_eq_nil_iff.mp h).1, fun rest => ?_⟩
  rw [List.append_assoc, representation_literal, literal,
    integer_prefixed 4 0x10 (by decide) (by decide) rfl]
  simp only [Option.bind_eq_bind, Option.bind_some, if_neg hi, he, Option.map_some,
    List.append_assoc, string_prefixed]
  rfl

/-- A literal field that is never indexed, with a name of its own. -/
theorem represents_literal_named (name value : List UInt8) :
    Represents (prefixed 4 0x10 0 ++ (prefixed 7 0 name.length ++ (name ++
      (prefixed 7 0 value.length ++ value)))) ⟨name, value⟩ := by
  refine ⟨fun h => prefixed_ne_nil 0 (List.append_eq_nil_iff.mp h).1, fun rest => ?_⟩
  rw [List.append_assoc, representation_literal, literal,
    integer_prefixed 4 0x10 (by decide) (by decide) rfl]
  simp only [Option.bind_eq_bind, Option.bind_some, if_true, List.append_assoc, string_prefixed]
  rfl

end Rfc7541
