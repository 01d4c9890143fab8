/-
Lando/Rfc8259Compact.lean

JSON texts without blanks: strings with only the escapes they need, natural
numbers, arrays and objects of given parts.

Each is a way to build a syntax tree from what it shall mean,

    (Str.ofChars cs).decode = some cs
    (Number.ofNat n).value = n

and the texts of arrays and objects are given item by item, so that a program
that writes one item after the other can be followed.
-/
import Lando.Rfc8259

namespace Rfc8259

/-! ### Strings -/

/-- The digit of a number below 16, in lower case. -/
def HexDigit.ofNat (n : Fin 16) : HexDigit where
  char := "0123456789abcdef".toList.get ⟨n.val, n.isLt⟩
  valid := by
    revert n
    decide

/-- A character as it stands in a string: as itself, if it can. -/
def Piece.ofChar (c : Char) : Piece :=
  if hq : c = '"' then .escape .quotationMark
  else if hb : c = '\\' then .escape .reverseSolidus
  else if c = '\n' then .escape .lineFeed
  else if c = '\r' then .escape .carriageReturn
  else if c = '\t' then .escape .tab
  else if hc : 0x20 ≤ c.toNat then .plain c ⟨hc, hq, hb⟩
  else
    .unicode (.ofNat 0) (.ofNat 0) (.ofNat ⟨c.toNat / 16, by omega⟩)
      (.ofNat ⟨c.toNat % 16, by omega⟩)

/-- The string with these characters. -/
def Str.ofChars (cs : List Char) : Str := cs.map Piece.ofChar

/-- The code unit of a control character. -/
theorem codeUnit_ofNat (n : Fin 32) :
    Str.codeUnit (.ofNat 0) (.ofNat 0) (.ofNat ⟨n.val / 16, by omega⟩)
      (.ofNat ⟨n.val % 16, by omega⟩) = n.val := by
  revert n
  decide +kernel

theorem decode_ofChar_cons (c : Char) (s : Str) :
    Str.decode (Piece.ofChar c :: s) = (Str.decode s).map (c :: ·) := by
  unfold Piece.ofChar
  split_ifs with hq hb hn hr ht hc
  · rw [Str.decode, hq]
    rfl
  · rw [Str.decode, hb]
    rfl
  · rw [Str.decode, hn]
    rfl
  · rw [Str.decode, hr]
    rfl
  · rw [Str.decode, ht]
    rfl
  · rw [Str.decode.eq_def]
  · have hlt : c.toNat < 32 := Nat.not_le.mp hc
    have hcode := codeUnit_ofNat ⟨c.toNat, hlt⟩
    have hhigh : ¬ Str.isHigh c.toNat = true := by
      simp only [Str.isHigh, Bool.and_eq_true, decide_eq_true_eq]
      omega
    have hlow : ¬ Str.isLow c.toNat = true := by
      simp only [Str.isLow, Bool.and_eq_true, decide_eq_true_eq]
      omega
    rw [Str.decode.eq_def]
    simp only [hcode, hhigh, hlow, Char.ofNat_toNat]
    rfl

/-- **A string is read back.** -/
theorem Str.decode_ofChars (cs : List Char) : (Str.ofChars cs).decode = some cs := by
  induction cs with
  | nil => rfl
  | cons c cs ih =>
    show Str.decode (Piece.ofChar c :: Str.ofChars cs) = _
    rw [decode_ofChar_cons, ih]
    rfl

/-! ### Natural numbers -/

/-- The digits of a number, without leading zeros. -/
def digitsOf (n : ℕ) : List Digit :=
  if h : n < 10 then [⟨n, h⟩] else digitsOf (n / 10) ++ [⟨n % 10, Nat.mod_lt n (by decide)⟩]
termination_by n
decreasing_by omega

theorem digitsOf_of_lt {n : ℕ} (h : n < 10) : digitsOf n = [⟨n, h⟩] := by
  rw [digitsOf, dif_pos h]

theorem digitsOf_of_ge {n : ℕ} (h : 10 ≤ n) :
    digitsOf n = digitsOf (n / 10) ++ [⟨n % 10, Nat.mod_lt n (by decide)⟩] := by
  rw [digitsOf, dif_neg (Nat.not_lt.mpr h)]

/-- The first digit is no zero, except for zero. -/
theorem head_digitsOf (n : ℕ) :
    ∃ d ds, digitsOf n = d :: ds ∧ (d = 0 → n = 0) := by
  induction n using Nat.strongRecOn with
  | _ n ih =>
    rcases Nat.lt_or_ge n 10 with hlt | hge
    · refine ⟨⟨n, hlt⟩, [], digitsOf_of_lt hlt, fun h => ?_⟩
      exact congrArg Fin.val h
    · obtain ⟨d, ds, hds, hd⟩ := ih (n / 10) (by omega)
      refine ⟨d, ds ++ [⟨n % 10, Nat.mod_lt n (by decide)⟩], ?_, fun h => ?_⟩
      · rw [digitsOf_of_ge hge, hds]
        rfl
      · have hzero := hd h
        omega

/-- The number in decimal. -/
def Digits.ofNat (n : ℕ) : Digits where
  list := digitsOf n
  nonempty := by
    obtain ⟨d, ds, hds, -⟩ := head_digitsOf n
    rw [hds]
    exact List.cons_ne_nil d ds

theorem Digits.proper_ofNat (n : ℕ) : (Digits.ofNat n).Proper := by
  obtain ⟨d, ds, hds, hd⟩ := head_digitsOf n
  intro h
  have hlist : (Digits.ofNat n).list = digitsOf n := rfl
  rw [hlist, hds] at h
  have hzero := hd (Option.some.inj h)
  rw [hlist, hzero, digitsOf_of_lt (by decide)]
  rfl

theorem Digits.value_ofNat (n : ℕ) : (Digits.ofNat n).value = n := by
  show (digitsOf n).foldl (fun n d => 10 * n + d.val) 0 = n
  induction n using Nat.strongRecOn with
  | _ n ih =>
    rcases Nat.lt_or_ge n 10 with hlt | hge
    · rw [digitsOf_of_lt hlt]
      exact Nat.zero_add n
    · rw [digitsOf_of_ge hge, List.foldl_append, ih (n / 10) (by omega)]
      show 10 * (n / 10) + n % 10 = n
      omega

/-- A natural number. -/
def Number.ofNat (n : ℕ) : Number := ⟨false, .ofNat n, Digits.proper_ofNat n, none, none⟩

/-- **A natural number is read back.** -/
theorem Number.value_ofNat (n : ℕ) : (Number.ofNat n).value = n := by
  simp [Number.value, Number.ofNat, Digits.value_ofNat]

theorem Number.text_ofNat (n : ℕ) : (Number.ofNat n).text = (digitsOf n).map Digit.char := by
  rw [Number.text, Number.ofNat]
  simp only [fracText, expText, List.append_nil]
  rfl

/-! ### Arrays and objects -/

/-- Elements without white space. -/
def Elements.compact (v : Value) : List Value → Elements
  | [] => .one [] v []
  | w :: vs => .more [] v [] (compact w vs)

/-- A list without white space. -/
def Array.compact : List Value → Array
  | [] => .empty []
  | v :: vs => .of (.compact v vs)

/-- Members without white space. -/
def Members.compact (key : Str) (v : Value) : List (Str × Value) → Members
  | [] => .one [] key [] [] v []
  | m :: ms => .more [] key [] [] v [] (compact m.1 m.2 ms)

/-- An object without white space. -/
def Object.compact : List (Str × Value) → Object
  | [] => .empty []
  | m :: ms => .of (.compact m.1 m.2 ms)

@[simp] theorem Array.toList_compact (vs : List Value) : (Array.compact vs).toList = vs := by
  have helements : ∀ (vs : List Value) (v : Value), (Elements.compact v vs).toList = v :: vs := by
    intro vs
    induction vs with
    | nil => exact fun v => rfl
    | cons w vs ih =>
      intro v
      rw [Elements.compact, Elements.toList, ih]
  rcases vs with - | ⟨v, vs⟩
  · rfl
  · exact helements vs v

@[simp] theorem Object.toList_compact (ms : List (Str × Value)) :
    (Object.compact ms).toList = ms := by
  have hmembers : ∀ (ms : List (Str × Value)) (key : Str) (v : Value),
      (Members.compact key v ms).toList = (key, v) :: ms := by
    intro ms
    induction ms with
    | nil => exact fun key v => rfl
    | cons m ms ih =>
      intro key v
      rw [Members.compact, Members.toList, ih]
  rcases ms with - | ⟨m, ms⟩
  · rfl
  · exact hmembers ms m.1 m.2

/-- Items one after the other, with a comma in front of each but the first; in front
of that one too, if there are items before it. -/
def joined (before : Bool) : List (List Char) → List Char
  | [] => []
  | t :: ts => (if before then [','] else []) ++ (t ++ joined true ts)

theorem joined_append (before : Bool) (ts us : List (List Char)) :
    joined before (ts ++ us) = joined before ts ++ joined (before || !ts.isEmpty) us := by
  induction ts generalizing before with
  | nil =>
    rw [List.isEmpty_nil, Bool.not_true, Bool.or_false]
    rfl
  | cons t ts ih =>
    rw [List.cons_append, joined, ih, joined, List.isEmpty_cons, Bool.not_false, Bool.or_true,
      Bool.true_or, List.append_assoc, List.append_assoc]

/-- A member without blanks. -/
def memberText (m : Str × Value) : List Char := m.1.text ++ ':' :: m.2.text

theorem Array.text_compact (vs : List Value) :
    (Array.compact vs).text = '[' :: (joined false (vs.map Value.text) ++ [']']) := by
  have helements : ∀ (vs : List Value) (v : Value),
      (Elements.compact v vs).text = v.text ++ joined true (vs.map Value.text) := by
    intro vs
    induction vs with
    | nil => exact fun v => rfl
    | cons w vs ih =>
      intro v
      rw [Elements.compact, Elements.text, ih]
      rfl
  rcases vs with - | ⟨v, vs⟩
  · rfl
  · rw [Array.compact, Array.text, helements]
    rfl

theorem Object.text_compact (ms : List (Str × Value)) :
    (Object.compact ms).text = '\x7b' :: (joined false (ms.map memberText) ++ ['\x7d']) := by
  have hmembers : ∀ (ms : List (Str × Value)) (key : Str) (v : Value),
      (Members.compact key v ms).text =
        memberText (key, v) ++ joined true (ms.map memberText) := by
    intro ms
    induction ms with
    | nil =>
      intro key v
      show key.text ++ ':' :: (v.text ++ []) = (key.text ++ ':' :: v.text) ++ []
      rw [List.append_nil, List.append_nil]
    | cons m ms ih =>
      intro key v
      have hfirst : ∀ cs, memberText (key, v) ++ cs = key.text ++ ':' :: (v.text ++ cs) := by
        intro cs
        rw [memberText, List.append_assoc, List.cons_append]
      rw [Members.compact, Members.text, ih, hfirst]
      rfl
  rcases ms with - | ⟨m, ms⟩
  · rfl
  · rw [Object.compact, Object.text, hmembers]
    rfl

/-- What an array of values means. -/
theorem Array.trees_compact (vs : List Value) :
    (Array.compact vs).trees = vs.mapM Value.tree := by
  have helements : ∀ (vs : List Value) (v : Value),
      (Elements.compact v vs).trees = (v :: vs).mapM Value.tree := by
    intro vs
    induction vs with
    | nil =>
      intro v
      rw [Elements.compact, Elements.trees, List.mapM_cons, List.mapM_nil]
      cases v.tree
      · rfl
      · rfl
    | cons w vs ih =>
      intro v
      rw [Elements.compact, Elements.trees, ih, List.mapM_cons (a := v)]
  rcases vs with - | ⟨v, vs⟩
  · rfl
  · exact helements vs v

/-- What an object of members means. -/
theorem Object.trees_compact (ms : List (Str × Value)) :
    (Object.compact ms).trees =
      ms.mapM fun m => do return (← m.1.decode, ← m.2.tree) := by
  have hmembers : ∀ (ms : List (Str × Value)) (key : Str) (v : Value),
      (Members.compact key v ms).trees =
        ((key, v) :: ms).mapM fun m => do return (← m.1.decode, ← m.2.tree) := by
    intro ms
    induction ms with
    | nil =>
      intro key v
      rw [Members.compact, Members.trees, List.mapM_cons, List.mapM_nil]
      cases key.decode
      · rfl
      cases v.tree
      · rfl
      · rfl
    | cons m ms ih =>
      intro key v
      rw [Members.compact, Members.trees, ih, List.mapM_cons (a := (key, v))]
      cases key.decode
      · rfl
      cases v.tree
      · rfl
      · rfl
  rcases ms with - | ⟨m, ms⟩
  · rfl
  · exact hmembers ms m.1 m.2

end Rfc8259
