/-
Lando/FwConfig.lean

The configuration of a device (`lando-fw/src/config.rs`): one record in a flash
sector.

The record is a magic, a version, five strings with their lengths, and two keys
that may be absent.  `save` writes it into an image of 512 bytes and keeps a
running position that it never compares with anything.  Every write is either in
range or a panic of the source (`write`), so

    image config = the record, padded      if the record has 512 bytes at most
    image config = a panic                 otherwise

and the largest configurations that the types admit have 560.  `load` looks
before it reads, and stays in range on every sector.
-/
import Lando.Crypto
import Lando.Utf8

namespace Lando.Fw

open Bytes

/-! ### The record -/

/-- How a record starts. -/
def magicCfg : List UInt8 := "LANDOCFG".toUTF8.toList

/-- The version of the layout. -/
def version : UInt8 := 3

/-- The longest string, in bytes. -/
def maxField : ℕ := 96

/-- The size of the image. -/
def imageLen : ℕ := 512

/-- `heapless::String<MAX_FIELD>`. -/
structure Field where
  text : List Char
  fits : (Utf8.encode text).length ≤ maxField
  deriving DecidableEq

namespace Field

/-- The string as the record holds it. -/
def asBytes (f : Field) : List UInt8 := Utf8.encode f.text

/-- The empty string. -/
def default : Field := ⟨[], Nat.zero_le _⟩

/-- `String::try_from`. -/
def tryFrom (text : List Char) : Option Field :=
  if h : (Utf8.encode text).length ≤ maxField then some ⟨text, h⟩ else none

end Field

/-- What the device needs to reach the tailnet. -/
structure Config where
  ssid : Field
  password : Field
  authKey : Field
  controlHost : Field
  controlKey : Field
  machineKey : Option Key
  nodeKey : Option Key
  deriving DecidableEq

namespace Config

/-! ### Saving -/

/-- `buf[pos..pos + src.len()].copy_from_slice(src)`; out of range, it panics. -/
def write (buf : List UInt8) (pos : ℕ) (src : List UInt8) : Option (List UInt8) :=
  if pos + src.length ≤ buf.length then some (blit buf pos src) else none

/-- The image so far, and the running position. -/
abbrev Cursor := List UInt8 × ℕ

/-- A length byte and the string. -/
def writeField : Cursor → Field → Option Cursor
  | (buf, pos), field => do
      let bytes := field.asBytes
      let buf ← write buf pos [.ofNat bytes.length]
      let buf ← write buf (pos + 1) bytes
      return (buf, pos + (1 + bytes.length))

/-- A byte that says whether there is a key, and the key. -/
def writeKey : Cursor → Option Key → Option Cursor
  | (buf, pos), some k => do
      let buf ← write buf pos [1]
      let buf ← write buf (pos + 1) k.toList
      return (buf, pos + 33)
  | (buf, pos), none => do
      let buf ← write buf pos [0]
      return (buf, pos + 1)

/-- The strings, in the order of the record. -/
def fields (c : Config) : List Field := [c.ssid, c.password, c.authKey, c.controlHost, c.controlKey]

/-- The keys, in the order of the record. -/
def keys (c : Config) : List (Option Key) := [c.machineKey, c.nodeKey]

/-- The image that is written into the sector. -/
def image (c : Config) : Option (List UInt8) := do
  let buf := List.replicate imageLen 0
  let buf ← write buf 0 magicCfg
  let buf ← write buf 8 [version]
  let cursor ← c.fields.foldlM writeField (buf, 9)
  let cursor ← c.keys.foldlM writeKey cursor
  return cursor.1

/-! ### Loading -/

/-- One string.  An outer `none` is a panic; the inner one is the source's. -/
def readField (buf : List UInt8) (pos : ℕ) : Option (Option Field × ℕ) :=
  match buf[pos]? with
  | none => some (none, pos)
  | some len =>
      let len := len.toNat
      if maxField < len ∨ buf.length < pos + 1 + len then some (none, pos)
      else if pos + 1 + len ≤ buf.length then
        match Utf8.decode (slice buf (pos + 1) (pos + 1 + len)) with
        | none => some (none, pos)
        | some text => some (Field.tryFrom text, pos + (1 + len))
      else none

/-- One key, which may be absent. -/
def readKey (buf : List UInt8) (pos : ℕ) : Option Key × ℕ :=
  match buf[pos]? with
  | none => (none, pos)
  | some present =>
      if present ≠ 1 then (none, pos + 1)
      else if pos + 1 + 32 ≤ buf.length then (some (read 32 buf (pos + 1)), pos + 33)
      else (none, pos + 1)

/-- What the first 512 bytes of a sector say. -/
def parse (buf : List UInt8) : Option (Option Config) := do
  if buf.length < 9 then none
  else if buf.take 8 ≠ magicCfg ∨ buf.getD 8 0 ≠ version then return none
  else
    let (ssid, pos) ← readField buf 9
    let some ssid := ssid | return none
    let (password, pos) ← readField buf pos
    let some password := password | return none
    let (authKey, pos) ← readField buf pos
    let (controlHost, pos) ← readField buf pos
    let (controlKey, pos) ← readField buf pos
    let (machineKey, pos) := readKey buf pos
    let (nodeKey, _) := readKey buf pos
    return some ⟨ssid, password, authKey.getD .default, controlHost.getD .default,
      controlKey.getD .default, machineKey, nodeKey⟩

end Config

/-! ### The store -/

/-- The size of a sector. -/
def eraseSize : ℕ := 4096

/-- The sector that holds the configuration.  What is written is read back. -/
structure Store where
  sector : List UInt8
  size : sector.length = eraseSize
  deriving DecidableEq

namespace Store

/-- A sector after an erase and a write. -/
def program (img : List UInt8) (h : img.length ≤ eraseSize) : Store where
  sector := img ++ List.replicate (eraseSize - img.length) 0xff
  size := by
    rw [List.length_append, List.length_replicate, Nat.add_sub_cancel' h]

/-- Erases the sector and writes the image of `config` into it; a panic, before
the sector is touched, if there is no image. -/
def save (config : Config) : Option Store :=
  config.image.bind fun img =>
    if h : img.length ≤ eraseSize then some (program img h) else none

/-- Reads the stored configuration. -/
def load (s : Store) : Option (Option Config) := Config.parse (s.sector.take imageLen)

end Store

/-! ### What is written -/

/-- A string as it stands in the record. -/
def Field.wire (f : Field) : List UInt8 := .ofNat f.asBytes.length :: f.asBytes

/-- A key as it stands in the record. -/
def keyWire : Option Key → List UInt8
  | some k => 1 :: k.toList
  | none => [0]

namespace Config

/-- The whole record. -/
def record (c : Config) : List UInt8 :=
  magicCfg ++ [version] ++ c.fields.flatMap Field.wire ++ c.keys.flatMap keyWire

/-- The image filled from the front with `a`, if there is room for it. -/
def filled (a : List UInt8) : Option Cursor :=
  if a.length ≤ imageLen then some (a ++ List.replicate (imageLen - a.length) 0, a.length)
  else none

/-- A write at the running position. -/
def put (c : Cursor) (src : List UInt8) : Option Cursor :=
  (write c.1 c.2 src).map fun buf => (buf, c.2 + src.length)

theorem filled_put (a src : List UInt8) :
    ((filled a).bind fun c => put c src) = filled (a ++ src) := by
  unfold filled
  by_cases ha : a.length ≤ imageLen
  · have hlen : (a ++ List.replicate (imageLen - a.length) (0 : UInt8)).length = imageLen := by
      rw [List.length_append, List.length_replicate, Nat.add_sub_cancel' ha]
    rw [if_pos ha, Option.bind_some, put, write, hlen, List.length_append]
    by_cases hroom : a.length + src.length ≤ imageLen
    · have hm : imageLen - a.length = src.length + (imageLen - (a.length + src.length)) := by omega
      rw [if_pos hroom, if_pos hroom, blit_append_replicate rfl hm]
      rfl
    · rw [if_neg hroom, if_neg hroom]
      rfl
  · rw [if_neg ha, if_neg (by rw [List.length_append]; omega)]
    rfl

theorem writeField_eq (c : Cursor) (f : Field) :
    writeField c f = (put c [.ofNat f.asBytes.length]).bind fun c => put c f.asBytes := by
  obtain ⟨buf, pos⟩ := c
  simp only [writeField, put]
  rcases write buf pos [.ofNat f.asBytes.length] with - | buf
  · rfl
  · simp only [Option.map_some, Option.bind_some, List.length_singleton, Option.bind_eq_bind,
      ← Nat.add_assoc]
    rcases write buf (pos + 1) f.asBytes with - | buf
    · rfl
    · rfl

theorem writeKey_eq (c : Cursor) (k : Option Key) :
    writeKey c k = match k with
      | some k => (put c [1]).bind fun c => put c k.toList
      | none => put c [0] := by
  obtain ⟨buf, pos⟩ := c
  cases k with
  | none =>
    simp only [writeKey, put]
    rcases write buf pos [0] with - | buf
    · rfl
    · rfl
  | some k =>
    simp only [writeKey, put]
    rcases write buf pos [1] with - | buf
    · rfl
    · simp only [Option.map_some, Option.bind_some, List.length_singleton, Option.bind_eq_bind,
        Vector.length_toList]
      rcases write buf (pos + 1) k.toList with - | buf
      · rfl
      · rfl

theorem filled_writeField (a : List UInt8) (f : Field) :
    ((filled a).bind fun c => writeField c f) = filled (a ++ f.wire) := by
  have hwire : a ++ f.wire = a ++ [.ofNat f.asBytes.length] ++ f.asBytes := by
    rw [List.append_assoc]
    rfl
  rw [hwire, ← filled_put, ← filled_put, Option.bind_assoc]
  simp only [writeField_eq]

theorem filled_writeKey (a : List UInt8) (k : Option Key) :
    ((filled a).bind fun c => writeKey c k) = filled (a ++ keyWire k) := by
  simp only [writeKey_eq]
  cases k with
  | none => exact filled_put a [0]
  | some k =>
    have hwire : a ++ keyWire (some k) = a ++ [1] ++ k.toList := by
      rw [List.append_assoc]
      rfl
    rw [hwire, ← filled_put, ← filled_put, Option.bind_assoc]

/-- Items written one after the other. -/
theorem filled_foldlM {α : Type} {g : Cursor → α → Option Cursor} {w : α → List UInt8}
    (hg : ∀ a x, ((filled a).bind fun c => g c x) = filled (a ++ w x)) (a : List UInt8)
    (xs : List α) :
    ((filled a).bind fun c => xs.foldlM g c) = filled (a ++ xs.flatMap w) := by
  induction xs generalizing a with
  | nil =>
    rw [List.flatMap_nil, List.append_nil]
    exact Option.bind_fun_some _
  | cons x xs ih =>
    rw [List.flatMap_cons, ← List.append_assoc, ← ih, ← hg, Option.bind_assoc]
    simp only [List.foldlM_cons, Option.bind_eq_bind]

/-- **The image is the record, or a panic.** -/
theorem image_eq (c : Config) : c.image = (filled c.record).map Prod.fst := by
  have hstart : filled (magicCfg ++ [version]) =
      ((write (List.replicate imageLen 0) 0 magicCfg).bind fun buf => write buf 8 [version]).map
        fun buf => (buf, 9) := by decide +kernel
  rw [record, ← filled_foldlM filled_writeKey, ← filled_foldlM filled_writeField, hstart]
  simp only [image, Option.bind_eq_bind]
  rcases write (List.replicate imageLen 0) 0 magicCfg with - | buf
  · rfl
  simp only [Option.bind_some]
  rcases write buf 8 [version] with - | buf
  · rfl
  simp only [Option.bind_some, Option.map_some]
  rcases c.fields.foldlM writeField (buf, 9) with - | cursor
  · rfl
  simp only [Option.bind_some]
  rcases c.keys.foldlM writeKey cursor with - | cursor
  · rfl
  · rfl

/-- The length of a record: nine bytes, each string with its length, each key
with its mark. -/
theorem length_record (c : Config) :
    c.record.length =
      9 + (c.fields.map fun f => 1 + f.asBytes.length).sum +
        (c.keys.map fun k => if k.isSome then 33 else 1).sum := by
  have hmagic : (magicCfg ++ [version]).length = 9 := by decide +kernel
  have hfield : (fun f : Field => f.wire.length) = fun f => 1 + f.asBytes.length := by
    funext f
    exact Nat.add_comm _ _
  have hkey : (fun k => (keyWire k).length) = fun k => if k.isSome then 33 else 1 := by
    funext k
    cases k with
    | none => rfl
    | some k =>
      show k.toList.length + 1 = 33
      rw [Vector.length_toList]
  rw [record, List.length_append, List.length_append, hmagic, List.length_flatMap,
    List.length_flatMap, hfield, hkey]

/-! ### What is read -/

variable {buf a rest : List UInt8}

/-- A string is read where it stands, and what follows stands behind it. -/
theorem readField_wire {f : Field} (hbuf : buf = a ++ (f.wire ++ rest)) :
    readField buf a.length = some (some f, (a ++ f.wire).length) ∧ buf = (a ++ f.wire) ++ rest := by
  have hfits : f.asBytes.length ≤ maxField := f.fits
  have hlen : (UInt8.ofNat f.asBytes.length).toNat = f.asBytes.length :=
    UInt8.toNat_ofNat_of_lt' (Nat.lt_of_le_of_lt hfits (by decide))
  have hget : buf[a.length]? = some (.ofNat f.asBytes.length) := by
    rw [hbuf, List.getElem?_append_right (Nat.le_refl _), Nat.sub_self]
    rfl
  have hroom : a.length + 1 + f.asBytes.length ≤ buf.length := by
    rw [hbuf, List.length_append, List.length_append, Field.wire, List.length_cons]
    omega
  have hslice : slice buf (a.length + 1) (a.length + 1 + f.asBytes.length) = f.asBytes := by
    have hcut : buf = (a ++ [.ofNat f.asBytes.length]) ++ (f.asBytes ++ rest) := by
      rw [hbuf, List.append_assoc]
      rfl
    rw [hcut]
    apply slice_append_mid
    · rw [List.length_append]
      rfl
    · rfl
  have htext : Utf8.decode f.asBytes = some f.text := Utf8.decode_encode f.text
  have htry : Field.tryFrom f.text = some f := dif_pos f.fits
  have hnext : (a ++ f.wire).length = a.length + (1 + f.asBytes.length) := by
    rw [List.length_append, Field.wire, List.length_cons, Nat.add_comm 1]
  constructor
  · simp only [readField, hget, hlen]
    rw [if_neg (by omega), if_pos hroom, hslice, hnext]
    simp only [htext, htry]
  · rw [hbuf, List.append_assoc]

/-- A key likewise. -/
theorem readKey_wire {k : Option Key} (hbuf : buf = a ++ (keyWire k ++ rest)) :
    readKey buf a.length = (k, (a ++ keyWire k).length) ∧ buf = (a ++ keyWire k) ++ rest := by
  refine ⟨?_, by rw [hbuf, List.append_assoc]⟩
  cases k with
  | none =>
    have hget : buf[a.length]? = some 0 := by
      rw [hbuf, List.getElem?_append_right (Nat.le_refl _), Nat.sub_self]
      rfl
    rw [readKey, hget, List.length_append]
    rfl
  | some k =>
    have hget : buf[a.length]? = some 1 := by
      rw [hbuf, List.getElem?_append_right (Nat.le_refl _), Nat.sub_self]
      rfl
    have hcut : buf = (a ++ [1]) ++ (k.toList ++ rest) := by
      rw [hbuf, List.append_assoc]
      rfl
    have hroom : a.length + 1 + 32 ≤ buf.length := by
      rw [hcut, List.length_append, List.length_append, List.length_append,
        Vector.length_toList, List.length_singleton]
      omega
    have hread : read 32 buf (a.length + 1) = k := by
      apply read_eq
      rw [hcut]
      apply slice_append_mid
      · rw [List.length_append]
        rfl
      · rw [Vector.length_toList]
    have hnext : (a ++ keyWire (some k)).length = a.length + 33 := by
      rw [List.length_append, keyWire, List.length_cons, Vector.length_toList]
    simp only [readKey, hget, hread, hnext]
    rw [if_neg (by decide), if_pos hroom]

/-- **A record is read back**, whatever stands behind it. -/
theorem parse_record (c : Config) (rest : List UInt8) : parse (c.record ++ rest) = some (some c) := by
  obtain ⟨ssid, password, authKey, controlHost, controlKey, machineKey, nodeKey⟩ := c
  have hhead : (magicCfg ++ [version]).length = 9 := by decide +kernel
  have hmagic : (magicCfg ++ [version]).take 8 = magicCfg := by decide +kernel
  have hversion : (magicCfg ++ [version])[8]? = some version := by decide +kernel
  generalize hbuf : record _ ++ rest = buf
  replace hbuf := hbuf.symm
  simp only [record, fields, keys, List.flatMap_cons, List.flatMap_nil, List.append_nil,
    List.append_assoc] at hbuf
  rw [← List.append_assoc] at hbuf
  generalize magicCfg ++ [version] = start at hbuf hhead hmagic hversion
  have hlen : ¬ buf.length < 9 := by
    rw [hbuf, List.length_append, hhead]
    omega
  have htake : buf.take 8 = magicCfg := by
    rw [hbuf, List.take_append_of_le_length (by omega), hmagic]
  have hget : buf.getD 8 0 = version := by
    rw [List.getD_eq_getElem?_getD, hbuf, List.getElem?_append_left (by omega), hversion]
    rfl
  obtain ⟨hssid, hbuf⟩ := readField_wire hbuf
  obtain ⟨hpassword, hbuf⟩ := readField_wire hbuf
  obtain ⟨hauth, hbuf⟩ := readField_wire hbuf
  obtain ⟨hhost, hbuf⟩ := readField_wire hbuf
  obtain ⟨hcontrol, hbuf⟩ := readField_wire hbuf
  obtain ⟨hmachine, hbuf⟩ := readKey_wire hbuf
  obtain ⟨hnode, -⟩ := readKey_wire hbuf
  rw [hhead] at hssid
  unfold parse
  rw [if_neg hlen, if_neg (by simp only [htake, hget, ne_eq, not_true_eq_false, or_self,
    not_false_eq_true])]
  simp only [hssid, hpassword, hauth, hhost, hcontrol, hmachine, hnode, Option.bind_eq_bind,
    Option.bind_some, Option.getD_some]
  rfl

/-- A string is looked for inside the buffer only. -/
theorem isSome_readField (buf : List UInt8) (pos : ℕ) : (readField buf pos).isSome := by
  unfold readField
  rcases buf[pos]? with - | len
  · rfl
  by_cases hbad : maxField < len.toNat ∨ buf.length < pos + 1 + len.toNat
  · simp only [if_pos hbad]
    rfl
  · have hroom : pos + 1 + len.toNat ≤ buf.length := by omega
    simp only [if_neg hbad, if_pos hroom]
    rcases Utf8.decode (slice buf (pos + 1) (pos + 1 + len.toNat)) with - | text
    · rfl
    · rfl

/-- So is a configuration, in every buffer that has room for the magic. -/
theorem isSome_parse {buf : List UInt8} (h : 9 ≤ buf.length) : (parse buf).isSome := by
  have hfield : ∀ pos, ∃ r, readField buf pos = some r :=
    fun pos => Option.isSome_iff_exists.mp (isSome_readField buf pos)
  unfold parse
  rw [if_neg (by omega)]
  by_cases hmagic : buf.take 8 ≠ magicCfg ∨ buf.getD 8 0 ≠ version
  · rw [if_pos hmagic]
    rfl
  obtain ⟨⟨ssid, pos₁⟩, hssid⟩ := hfield 9
  obtain ⟨⟨password, pos₂⟩, hpassword⟩ := hfield pos₁
  obtain ⟨⟨auth, pos₃⟩, hauth⟩ := hfield pos₂
  obtain ⟨⟨host, pos₄⟩, hhost⟩ := hfield pos₃
  obtain ⟨⟨control, pos₅⟩, hcontrol⟩ := hfield pos₄
  rw [if_neg hmagic]
  simp only [hssid, Option.bind_eq_bind, Option.bind_some]
  cases ssid with
  | none => rfl
  | some ssid =>
    simp only [hpassword, Option.bind_some]
    cases password with
    | none => rfl
    | some password =>
      simp only [hauth, hhost, hcontrol, Option.bind_some]
      rfl

end Config

/-! ### The largest configurations -/

namespace Store

open Config

theorem save_eq (c : Config) :
    save c = if h : c.record.length ≤ imageLen then
      some (program (c.record ++ List.replicate (imageLen - c.record.length) 0)
        (by rw [List.length_append, List.length_replicate, Nat.add_sub_cancel' h]; decide))
    else none := by
  rw [save, image_eq, filled]
  by_cases h : c.record.length ≤ imageLen
  · have hsize : (c.record ++ List.replicate (imageLen - c.record.length) (0 : UInt8)).length ≤
        eraseSize := by
      rw [List.length_append, List.length_replicate, Nat.add_sub_cancel' h]
      decide
    rw [if_pos h, dif_pos h, Option.map_some, Option.bind_some, dif_pos hsize]
  · rw [if_neg h, dif_neg h]
    rfl

/-- What was saved is loaded. -/
theorem load_of_save {c : Config} {s : Store} (h : save c = some s) : s.load = some (some c) := by
  rw [save_eq] at h
  by_cases hroom : c.record.length ≤ imageLen
  · rw [dif_pos hroom] at h
    obtain rfl := Option.some.inj h
    have himg : (c.record ++ List.replicate (imageLen - c.record.length) (0 : UInt8)).length =
        imageLen := by
      rw [List.length_append, List.length_replicate, Nat.add_sub_cancel' hroom]
    rw [load, program, List.take_append_of_le_length (Nat.le_of_eq himg.symm),
      List.take_of_length_le (Nat.le_of_eq himg), parse_record]
  · rw [dif_neg hroom] at h
    cases h

/-- **A configuration is kept exactly if its record fits into the image**; nothing
that a sector may hold makes a load fail. -/
theorem save_then_load_iff (c : Config) (sector : Store) :
    ((∃ s, save c = some s ∧ s.load = some (some c)) ↔
      9 + (c.fields.map fun f => 1 + f.asBytes.length).sum +
        (c.keys.map fun k => if k.isSome then 33 else 1).sum ≤ imageLen) ∧
    ∃ r, sector.load = some r := by
  constructor
  · rw [← length_record]
    constructor
    · rintro ⟨s, hs, -⟩
      rw [save_eq] at hs
      by_cases hroom : c.record.length ≤ imageLen
      · exact hroom
      · rw [dif_neg hroom] at hs
        cases hs
    · intro hroom
      have hs := save_eq c
      rw [dif_pos hroom] at hs
      exact ⟨_, hs, load_of_save hs⟩
  · apply Option.isSome_iff_exists.mp
    apply isSome_parse
    rw [List.length_take, sector.size]
    decide

/-- A string of 96 bytes. -/
def longest : Field := ⟨List.replicate 96 'a', by decide +kernel⟩

/-- Five strings of 96 bytes and two keys: a record of 560 bytes. -/
theorem full_config_panics :
    save ⟨longest, longest, longest, longest, longest, some (Vector.replicate 32 0),
      some (Vector.replicate 32 0)⟩ = none := by
  have hlen : longest.asBytes.length = 96 := by decide +kernel
  rw [save_eq, dif_neg]
  rw [length_record]
  simp only [fields, keys, List.map_cons, List.map_nil, hlen]
  decide

end Store

end Lando.Fw
