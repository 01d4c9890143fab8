/-
Lando/HostState.lean

The identity of the host (`lando-host/src/state.rs`): three private keys, in a
text file of one line a key.

`loadOrCreate` takes every failure to read the file for its absence, and then
draws keys and writes the file.  A file that is there but is not read (the
system refuses, or the bytes are no text) is lost that way, so

    an existing identity is kept  ↔  the file is read, or is not written

up to what a write that breaks off leaves behind: `std::fs::write` empties the
file first.

The surroundings are two outcomes (`Disk`) and the keys that the generator would
draw; both are arguments.
-/
import Mathlib.Data.List.DropRight
import Lando.Disco
import Lando.Hex
import Lando.Utf8

namespace Lando.Host

open Bytes

/-! ### Lines -/

/-- A line without its end, read backwards: a `\r` in front of the `\n` is a part
of the end. -/
def stripReturn : List Char → List Char
  | '\r' :: acc => acc.reverse
  | acc => acc.reverse

/-- `str::lines`, with the part of the current line that was read, backwards.  A
`\r` at the end of the text is left where it is. -/
def linesFrom : List Char → List Char → List (List Char)
  | [], [] => []
  | acc, [] => [acc.reverse]
  | acc, '\n' :: cs => stripReturn acc :: linesFrom [] cs
  | acc, c :: cs => linesFrom (c :: acc) cs

/-- `str::lines`. -/
def lines (text : List Char) : List (List Char) := linesFrom [] text

/-- `char::is_whitespace`. -/
def isWhitespace (c : Char) : Bool :=
  (0x9 ≤ c.toNat && c.toNat ≤ 0xd) || (0x2000 ≤ c.toNat && c.toNat ≤ 0x200a) ||
    [0x20, 0x85, 0xa0, 0x1680, 0x2028, 0x2029, 0x202f, 0x205f, 0x3000].contains c.toNat

/-- `str::trim`. -/
def trim (s : List Char) : List Char := (s.dropWhile isWhitespace).rdropWhile isWhitespace

/-! ### The keys in the file -/

/-- The errors of a state file; each one about a key has its name. -/
inductive StateError
  | missing (name : List Char)
  /-- Not 64 bytes. -/
  | length (name : List Char)
  | badHex (name : List Char)
  | writing
  deriving DecidableEq

/-- `digit`: a hexadecimal digit, in either case. -/
def digit (c : UInt8) : Option UInt8 := Hex.value c

/-- `field`: the first line that starts with the name, as 32 bytes. -/
def field (text name : List Char) : Except StateError Key :=
  match (lines text).findSome? fun l => (name.isPrefixOf? l).map trim with
  | none => .error (.missing name)
  | some line =>
      let bytes := Utf8.encode line
      if bytes.length ≠ 64 then .error (.length name)
      else
        match Hex.decode bytes with
        | none => .error (.badHex name)
        | some out => .ok (read 32 out 0)

/-- `hex`: the digits of a key as they are written. -/
def hex (bytes : List UInt8) : List Char := Utf8.ascii (Hex.encode bytes)

/-- The keys of the host. -/
structure State where
  machineKey : MachinePrivate
  nodeKey : NodePrivate
  discoKey : DiscoPrivate
  deriving DecidableEq

/-- What a call of `std::fs::write` comes to. -/
inductive Wrote
  | done
  /-- The file could not be opened. -/
  | refused
  /-- The file was emptied, and `n` bytes were written. -/
  | cut (n : ℕ)
  deriving DecidableEq

/-- The outcomes of reading a file that exists, and of writing it. -/
structure Disk where
  readable : Bool
  write : Wrote
  deriving DecidableEq

/-- A file: its bytes, if it exists. -/
abbrev File := Option (List UInt8)

/-- `std::fs::read_to_string(path).ok()`. -/
def Disk.readToString (d : Disk) (file : File) : Option (List Char) :=
  if d.readable then file.bind Utf8.decode else none

namespace State

/-- The contents that `save` writes. -/
def body (s : State) : List Char :=
  "machine ".toList ++ hex s.machineKey.bytes.toList ++
    "\nnode ".toList ++ hex s.nodeKey.bytes.toList ++
    "\ndisco ".toList ++ hex s.discoKey.bytes.toList ++ ['\n']

/-- The outcome, and the file afterwards. -/
def save (d : Disk) (file : File) (s : State) : Except StateError Unit × File :=
  match d.write with
  | .done => (.ok (), some (Utf8.encode s.body))
  | .refused => (.error .writing, file)
  | .cut n => (.error .writing, some ((Utf8.encode s.body).take n))

/-- The keys of a text.  A missing disco key is filled in. -/
def ofText (drawn : State) (text : List Char) : Except StateError State := do
  let machine ← field text "machine".toList
  let node ← field text "node".toList
  let disco := match field text "disco".toList with
    | .ok d => ⟨d⟩
    | .error _ => drawn.discoKey
  return ⟨⟨machine⟩, ⟨node⟩, disco⟩

/-- Loads existing keys, or persists the keys that are drawn. -/
def loadOrCreate (d : Disk) (drawn : State) (file : File) :
    Except StateError (State × Bool) × File :=
  match d.readToString file with
  | some text =>
      match ofText drawn text with
      | .error e => (.error e, file)
      | .ok state =>
          let (saved, file) := state.save d file
          (saved.map fun _ => (state, false), file)
  | none =>
      let (saved, file) := drawn.save d file
      (saved.map fun _ => (drawn, true), file)

end State

/-! ### What a file records -/

/-- The first line of a text that starts with `name` spells `key` behind it: 64
hexadecimal digits, between blanks. -/
def Spells (text name : List Char) (key : Key) : Prop :=
  ∃ before rest after, lines text = before ++ (name ++ rest) :: after ∧
    (∀ l ∈ before, ¬ name <+: l) ∧
    (Utf8.encode (trim rest)).length = 64 ∧
    Hex.decode (Utf8.encode (trim rest)) = some key.toList

/-- A file is a text that spells `key` under `name`. -/
def Recorded (content : List UInt8) (name : List Char) (key : Key) : Prop :=
  ∃ text, Utf8.encode text = content ∧ Spells text name key

theorem field_eq_ok_iff {text name : List Char} {key : Key} :
    field text name = .ok key ↔ Spells text name key := by
  have hread : ∀ {bytes out : List UInt8}, bytes.length = 64 → Hex.decode bytes = some out →
      (read 32 out 0 = key ↔ out = key.toList) := by
    intro bytes out hlen hout
    have hsize : out.length = 32 := by
      rw [Hex.length_decode hout, hlen]
    have hslice : (read 32 out 0).toList = out := by
      rw [toList_read (by omega), slice, List.drop_zero, List.take_of_length_le (by omega)]
    constructor
    · rintro rfl
      exact hslice.symm
    · intro h
      apply Vector.toList_inj.mp
      rw [hslice, h]
  constructor
  · intro h
    unfold field at h
    rcases hline : (lines text).findSome? fun l => (name.isPrefixOf? l).map trim with - | line
    · rw [hline] at h
      cases h
    simp only [hline] at h
    by_cases hlen : (Utf8.encode line).length ≠ 64
    · rw [if_pos hlen] at h
      cases h
    rw [if_neg hlen] at h
    rcases hout : Hex.decode (Utf8.encode line) with - | out
    · rw [hout] at h
      cases h
    rw [hout] at h
    -- the first line with the name in front is the one that counts
    obtain ⟨before, l, after, hsplit, hl, hbefore⟩ := List.findSome?_eq_some_iff.mp hline
    obtain ⟨rest, hrest, rfl⟩ := Option.map_eq_some_iff.mp hl
    obtain rfl := List.isPrefixOf?_eq_some_iff_append_eq.mp hrest
    refine ⟨before, rest, after, hsplit, ?_, not_not.mp hlen, ?_⟩
    · -- no line before it has the name
      rintro l hmem ⟨t, rfl⟩
      have hnone := hbefore _ hmem
      rw [List.isPrefixOf?_eq_some_iff_append_eq.mpr rfl] at hnone
      cases hnone
    · rw [hout, (hread (not_not.mp hlen) hout).mp (Except.ok.inj h)]
  · rintro ⟨before, rest, after, hsplit, hbefore, hlen, hout⟩
    have hline : ((lines text).findSome? fun l => (name.isPrefixOf? l).map trim) =
        some (trim rest) := by
      apply List.findSome?_eq_some_iff.mpr
      refine ⟨before, _, after, hsplit, ?_, ?_⟩
      · rw [List.isPrefixOf?_eq_some_iff_append_eq.mpr rfl]
        rfl
      · intro l hl
        rcases hp : name.isPrefixOf? l with - | t
        · rfl
        · exact (hbefore l hl ⟨t, List.isPrefixOf?_eq_some_iff_append_eq.mp hp⟩).elim
    have hkey := (hread hlen hout).mpr rfl
    unfold field
    simp only [hline, hlen, ne_eq, not_true_eq_false, if_false, hout, hkey]

/-- A text spells one key under a name. -/
theorem Spells.unique {text name : List Char} {k k' : Key} (h : Spells text name k)
    (h' : Spells text name k') : k = k' := by
  rw [← field_eq_ok_iff] at h h'
  exact Except.ok.inj (h.symm.trans h')

/-! ### What is kept -/

/-- The bytes are read, as a text. -/
def Disk.Legible (d : Disk) (content : List UInt8) : Prop :=
  d.readable = true ∧ ∃ text, Utf8.encode text = content

theorem Disk.readToString_eq_some_iff {d : Disk} {content : List UInt8} {text : List Char} :
    d.readToString (some content) = some text ↔
      d.readable = true ∧ Utf8.encode text = content := by
  unfold readToString
  by_cases hr : d.readable = true
  · rw [if_pos hr, Option.bind_some]
    constructor
    · exact fun h => ⟨hr, Utf8.encode_of_decode h⟩
    · rintro ⟨-, rfl⟩
      exact Utf8.decode_encode text
  · rw [if_neg hr]
    constructor
    · intro h
      cases h
    · exact fun h => (hr h.1).elim

namespace State

/-- The keys a text spells; the disco key is the one that is drawn if it spells none. -/
structure Spelled (text : List Char) (drawn s : State) : Prop where
  machine : Spells text "machine".toList s.machineKey.bytes
  node : Spells text "node".toList s.nodeKey.bytes
  disco : Spells text "disco".toList s.discoKey.bytes ∨
    (∀ k, ¬ Spells text "disco".toList k) ∧ s.discoKey = drawn.discoKey

theorem ofText_eq_ok_iff {drawn s : State} {text : List Char} :
    ofText drawn text = .ok s ↔ Spelled text drawn s := by
  obtain ⟨⟨machine⟩, ⟨node⟩, disco⟩ := s
  constructor
  · intro h
    unfold ofText at h
    rcases hm : field text "machine".toList with e | k₁
    · rw [hm] at h
      cases h
    rcases hn : field text "node".toList with e | k₂
    · rw [hm, hn] at h
      cases h
    rw [hm, hn] at h
    rcases hd : field text "disco".toList with e | k₃
    · rw [hd] at h
      cases h
      refine ⟨field_eq_ok_iff.mp hm, field_eq_ok_iff.mp hn, .inr ⟨fun k hk => ?_, rfl⟩⟩
      rw [field_eq_ok_iff.mpr hk] at hd
      cases hd
    · rw [hd] at h
      cases h
      exact ⟨field_eq_ok_iff.mp hm, field_eq_ok_iff.mp hn, .inl (field_eq_ok_iff.mp hd)⟩
  · rintro ⟨hm, hn, hd⟩
    unfold ofText
    rw [field_eq_ok_iff.mpr hm, field_eq_ok_iff.mpr hn]
    rcases hd with hd | ⟨hd, hdrawn⟩
    · rw [field_eq_ok_iff.mpr hd]
      rfl
    · rcases hk : field text "disco".toList with e | k
      · rw [show disco = drawn.discoKey from hdrawn]
        rfl
      · exact (hd k (field_eq_ok_iff.mp hk)).elim

/-- What `save` is asked to write over a file that exists. -/
inductive Rewritten (d : Disk) (drawn : State) (content : List UInt8) : State → Prop
  | kept {text s} : d.readable = true → Utf8.encode text = content → Spelled text drawn s →
      Rewritten d drawn content s
  | fresh : ¬ d.Legible content → Rewritten d drawn content drawn

/-- An existing identity is kept: the recorded keys are in use, or there is an error
and the file is as it was. -/
def Kept (content : List UInt8) (r : Except StateError (State × Bool) × File) : Prop :=
  (∃ s, r.1 = .ok (s, false) ∧ Recorded content "machine".toList s.machineKey.bytes ∧
    Recorded content "node".toList s.nodeKey.bytes) ∨
  ∃ e, r.1 = .error e ∧ r.2 = some content

/-- A call over an existing file either has no keys to write, or is a `save` of
them. -/
theorem loadOrCreate_cases (d : Disk) (drawn : State) (content : List UInt8) :
    ((∃ e, loadOrCreate d drawn (some content) = (.error e, some content)) ∧
      d.Legible content ∧ ∀ s, ¬ Rewritten d drawn content s) ∨
    ∃ s fresh, Rewritten d drawn content s ∧ (∀ s', Rewritten d drawn content s' → s' = s) ∧
      (fresh = false ↔ d.Legible content) ∧
      loadOrCreate d drawn (some content) =
        ((s.save d (some content)).1.map fun _ => (s, fresh), (s.save d (some content)).2) := by
  rcases htext : d.readToString (some content) with - | text
  · have hnot : ¬ d.Legible content := by
      rintro ⟨hr, text, ht⟩
      rw [Disk.readToString_eq_some_iff.mpr ⟨hr, ht⟩] at htext
      cases htext
    -- a file that is no text counts as none
    refine .inr ⟨drawn, true, .fresh hnot, ?_, ?_, ?_⟩
    · rintro s' (⟨hr, ht, -⟩ | -)
      · exact (hnot ⟨hr, _, ht⟩).elim
      · rfl
    · constructor
      · intro h
        cases h
      · exact fun h => (hnot h).elim
    · unfold loadOrCreate
      rw [htext]
  · obtain ⟨hr, rfl⟩ := Disk.readToString_eq_some_iff.mp htext
    have hlegible : d.Legible (Utf8.encode text) := ⟨hr, text, rfl⟩
    have hspelled : ∀ s, Rewritten d drawn (Utf8.encode text) s → ofText drawn text = .ok s := by
      rintro s (⟨-, ht, hs⟩ | hnot)
      · rw [Utf8.encode_inj ht] at hs
        exact ofText_eq_ok_iff.mpr hs
      · exact (hnot hlegible).elim
    -- a text that spells no keys is an error, and the file stays
    rcases hs : ofText drawn text with e | s
    · refine .inl ⟨⟨e, ?_⟩, hlegible, fun s h => ?_⟩
      · unfold loadOrCreate
        rw [htext]
        simp only [hs]
      · rw [hspelled s h] at hs
        cases hs
    · refine .inr ⟨s, false, .kept hr rfl (ofText_eq_ok_iff.mp hs), fun s' h => ?_,
        ⟨fun _ => hlegible, fun _ => rfl⟩, ?_⟩
      · rw [hspelled s' h] at hs
        exact Except.ok.inj hs
      · unfold loadOrCreate
        rw [htext]
        simp only [hs]

theorem kept_iff (d : Disk) (drawn : State) (content : List UInt8) :
    Kept content (loadOrCreate d drawn (some content)) ↔
      (d.write = .done → d.Legible content) ∧
      ∀ n s, d.write = .cut n → Rewritten d drawn content s →
        (Utf8.encode s.body).take n = content := by
  rcases loadOrCreate_cases d drawn content with
    ⟨⟨e, he⟩, hlegible, hnone⟩ | ⟨s, fresh, hs, huniq, hfresh, hcall⟩
  · rw [he]
    constructor
    · exact fun _ => ⟨fun _ => hlegible, fun n s _ hs => (hnone s hs).elim⟩
    · exact fun _ => .inr ⟨e, rfl, rfl⟩
  · rw [hcall]
    obtain ⟨readable, write⟩ := d
    cases write with
    | done =>
      constructor
      · rintro (⟨s', hok, -, -⟩ | ⟨e, he, -⟩)
        · obtain ⟨-, hf⟩ := Prod.mk.inj (Except.ok.inj hok)
          exact ⟨fun _ => hfresh.mp hf, fun n s h => nomatch h⟩
        · cases he
      · rintro ⟨hlegible, -⟩
        have hf := hfresh.mpr (hlegible rfl)
        rcases hs with ⟨-, ht, hm, hn, -⟩ | hnot
        · exact .inl ⟨s, by rw [hf]; rfl, ⟨_, ht, hm⟩, ⟨_, ht, hn⟩⟩
        · exact (hnot (hlegible rfl)).elim
    | refused =>
      constructor
      · exact fun _ => ⟨fun h => (nomatch h), fun n s h => (nomatch h)⟩
      · exact fun _ => .inr ⟨.writing, rfl, rfl⟩
    | cut n =>
      constructor
      · rintro (⟨s', hok, -⟩ | ⟨e, -, hfile⟩)
        · cases hok
        · refine ⟨fun h => (nomatch h), fun m s' hm hs' => ?_⟩
          cases hm
          rw [huniq s' hs']
          exact Option.some.inj hfile
      · rintro ⟨-, hcut⟩
        exact .inr ⟨.writing, rfl, congrArg some (hcut n s rfl hs)⟩

end State

/-! ### What is written -/

theorem linesFrom_append {line : List Char} (h : '\n' ∉ line) (acc rest : List Char) :
    linesFrom acc (line ++ '\n' :: rest) = stripReturn (line.reverse ++ acc) :: linesFrom [] rest := by
  induction line generalizing acc with
  | nil => rw [List.nil_append, List.reverse_nil, List.nil_append, linesFrom]
  | cons c cs ih =>
    have hc : c ≠ '\n' := fun hc => h (hc ▸ List.mem_cons_self)
    have hcs : '\n' ∉ cs := fun hcs => h (List.mem_cons_of_mem _ hcs)
    rw [List.cons_append, linesFrom, ih hcs, List.reverse_cons, List.append_assoc,
      List.singleton_append]
    exact hc

/-- A line in front of a text. -/
theorem lines_cons {line : List Char} (hn : '\n' ∉ line) (hr : '\r' ∉ line) (rest : List Char) :
    lines (line ++ '\n' :: rest) = line :: lines rest := by
  have hstrip : stripReturn line.reverse = line := by
    unfold stripReturn
    split
    · rename_i acc hacc
      refine (hr ?_).elim
      rw [← List.mem_reverse, hacc]
      exact List.mem_cons_self
    · rw [List.reverse_reverse]
  rw [lines, linesFrom_append hn, List.append_nil, hstrip, lines]

theorem mem_hex {bs : List UInt8} {c : Char} (h : c ∈ hex bs) : c ∈ "0123456789abcdef".toList := by
  obtain ⟨b, hb, rfl⟩ := List.mem_map.mp h
  have htable : ∀ b ∈ Hex.digits, Char.ofNat b.toNat ∈ "0123456789abcdef".toList :=
    Utf8.forall_table (by decide +kernel)
  exact htable b (Hex.mem_encode hb)

theorem encode_hex (bs : List UInt8) : Utf8.encode (hex bs) = Hex.encode bs := by
  apply Utf8.encode_ascii
  intro b hb
  have htable : ∀ b ∈ Hex.digits, b < 0x80 := Utf8.forall_table (by decide +kernel)
  exact htable b (Hex.mem_encode hb)

theorem trim_hex (bs : List UInt8) : trim (' ' :: hex bs) = hex bs := by
  have hblank : ∀ c ∈ hex bs, ¬ isWhitespace c = true := by
    intro c hc
    have htable : ∀ c ∈ "0123456789abcdef".toList, ¬ isWhitespace c = true :=
      Utf8.forall_table (by decide +kernel)
    exact htable c (mem_hex hc)
  have hfront : (' ' :: hex bs).dropWhile isWhitespace = hex bs := by
    rw [List.dropWhile_cons_of_pos (by decide)]
    exact List.dropWhile_eq_self_iff.mpr fun hlen => hblank _ (List.getElem_mem hlen)
  rw [trim, hfront, List.rdropWhile_eq_self_iff]
  exact fun hne => hblank _ (List.getLast_mem hne)

/-- A line of a state file in front of others. -/
theorem lines_entry {name : List Char} (hn : '\n' ∉ name) (hr : '\r' ∉ name) (bs : List UInt8)
    (rest : List Char) :
    lines ((name ++ ' ' :: hex bs) ++ '\n' :: rest) = (name ++ ' ' :: hex bs) :: lines rest := by
  have hclean : ∀ c, c ∉ "0123456789abcdef".toList → c ≠ ' ' → c ∉ name →
      c ∉ name ++ ' ' :: hex bs := by
    intro c hd hs hc hmem
    rcases List.mem_append.mp hmem with hmem | hmem
    · exact hc hmem
    · rcases List.mem_cons.mp hmem with hmem | hmem
      · exact hs hmem
      · exact hd (mem_hex hmem)
  exact lines_cons (hclean _ (by decide) (by decide) hn) (hclean _ (by decide) (by decide) hr) rest

/-- What such a line spells. -/
theorem spells_entry {text name : List Char} {k : Key} {after : List (List Char)}
    (before : List (List Char))
    (h : lines text = before ++ (name ++ ' ' :: hex k.toList) :: after)
    (hbefore : ∀ l ∈ before, ¬ name <+: l) : Spells text name k := by
  refine ⟨before, _, after, h, hbefore, ?_, ?_⟩
  · rw [trim_hex, encode_hex, Hex.length_encode, Vector.length_toList]
  · rw [trim_hex, encode_hex, Hex.decode_encode]

namespace State

theorem lines_body (s : State) :
    lines s.body =
      ["machine".toList ++ ' ' :: hex s.machineKey.bytes.toList,
        "node".toList ++ ' ' :: hex s.nodeKey.bytes.toList,
        "disco".toList ++ ' ' :: hex s.discoKey.bytes.toList] := by
  have hbody : s.body =
      ("machine".toList ++ ' ' :: hex s.machineKey.bytes.toList) ++ '\n' ::
      (("node".toList ++ ' ' :: hex s.nodeKey.bytes.toList) ++ '\n' ::
      (("disco".toList ++ ' ' :: hex s.discoKey.bytes.toList) ++ '\n' :: [])) := by
    unfold body
    simp
  rw [hbody, lines_entry (by decide) (by decide), lines_entry (by decide) (by decide),
    lines_entry (by decide) (by decide)]
  rfl

/-- A saved text spells its keys. -/
theorem spelled_body (s drawn : State) : Spelled s.body drawn s := by
  have hlines := lines_body s
  refine ⟨spells_entry [] hlines ?_, spells_entry [_] hlines ?_,
    .inl (spells_entry [_, _] hlines ?_)⟩
  · exact fun l hl => nomatch hl
  · intro l hl
    obtain rfl := List.mem_singleton.mp hl
    rintro ⟨t, ht⟩
    cases ht
  · intro l hl
    rcases List.mem_cons.mp hl with rfl | hl
    · rintro ⟨t, ht⟩
      cases ht
    · obtain rfl := List.mem_singleton.mp hl
      rintro ⟨t, ht⟩
      cases ht

/-- **An identity is kept unless its file is written without being read**; and what
was saved is loaded. -/
theorem identity_kept_iff (d : Disk) (drawn : State) (content : List UInt8) (s : State)
    (file : File) :
    (Kept content (loadOrCreate d drawn (some content)) ↔
      (d.write = .done → d.Legible content) ∧
      ∀ n s, d.write = .cut n → Rewritten d drawn content s →
        (Utf8.encode s.body).take n = content) ∧
    ∃ saved, s.save ⟨true, .done⟩ file = (.ok (), saved) ∧
      loadOrCreate ⟨true, .done⟩ drawn saved = (.ok (s, false), saved) := by
  refine ⟨kept_iff d drawn content, ⟨some (Utf8.encode s.body), rfl, ?_⟩⟩
  have htext : Disk.readToString ⟨true, .done⟩ (some (Utf8.encode s.body)) = some s.body :=
    Disk.readToString_eq_some_iff.mpr ⟨rfl, rfl⟩
  have hs := ofText_eq_ok_iff.mpr (spelled_body s drawn)
  unfold loadOrCreate
  rw [htext]
  simp only [hs]
  rfl

/-- A file that is no text is overwritten. -/
theorem overwritten_of_no_text (drawn : State) {content : List UInt8}
    (h : Utf8.decode content = none) :
    loadOrCreate ⟨true, .done⟩ drawn (some content) =
        (.ok (drawn, true), some (Utf8.encode drawn.body)) ∧
      ¬ Kept content (loadOrCreate ⟨true, .done⟩ drawn (some content)) := by
  have htext : Disk.readToString ⟨true, .done⟩ (some content) = none := by
    rw [Disk.readToString, if_pos rfl, Option.bind_some, h]
  have hcall : loadOrCreate ⟨true, .done⟩ drawn (some content) =
      (.ok (drawn, true), some (Utf8.encode drawn.body)) := by
    unfold loadOrCreate
    rw [htext]
    rfl
  refine ⟨hcall, ?_⟩
  rw [hcall]
  rintro (⟨s, hs, -⟩ | ⟨e, he, -⟩)
  · cases hs
  · cases he

/-- A file that records two keys and ends in a byte that is no UTF-8. -/
theorem illegible_file_overwritten :
    let key : Key := Vector.replicate 32 1
    let drawn : State := ⟨⟨Vector.replicate 32 2⟩, ⟨Vector.replicate 32 2⟩, ⟨Vector.replicate 32 2⟩⟩
    let content := Utf8.encode (State.body ⟨⟨key⟩, ⟨key⟩, ⟨key⟩⟩) ++ [0xff]
    loadOrCreate ⟨true, .done⟩ drawn (some content) =
        (.ok (drawn, true), some (Utf8.encode drawn.body)) ∧
      ¬ Kept content (loadOrCreate ⟨true, .done⟩ drawn (some content)) := by
  intro key drawn content
  have hbad : (0xff : UInt8) ∈ content := List.mem_append_right _ List.mem_cons_self
  exact overwritten_of_no_text drawn (Utf8.decode_eq_none hbad (by decide))

end State

end Lando.Host
