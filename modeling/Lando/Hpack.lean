/-
Lando/Hpack.lean

The header block of a POST request (`h2.rs`, `post_headers`), decoded.

The writer's integers are those of RFC 7541, so each part of the block is one
representation, and a decoder without dynamic table and Huffman coding makes of
the block

    :method, :scheme, :path, :authority, content-type, content-length

in this order.  The lengths of the strings are cast to 32 bits on the way; in a
block of 256 bytes at most there is none that the cast changes.
-/
import Lando.Requests
import Lando.Rfc7541

namespace Lando.H2

open Bytes Writer

/-! ### The writer's integers -/

theorem restBytes_eq (rest : ℕ) : restBytes rest = Rfc7541.continued rest := by
  induction rest using Nat.strong_induction_on with
  | _ rest ih =>
    rw [restBytes, Rfc7541.continued]
    split_ifs with h
    · rw [ih (rest / 128) (by omega)]
    · rfl

theorem integerBytes_eq (value : UInt32) (prefixBits : ℕ) (flags : UInt8) :
    integerBytes value prefixBits flags = Rfc7541.prefixed prefixBits flags value.toNat := by
  rw [integerBytes, Rfc7541.prefixed]
  simp only [restBytes_eq]

/-- The length of a string that has 32 bits of it. -/
theorem integerBytes_length {s : List UInt8} (h : s.length < 2 ^ 32) :
    integerBytes (.ofNat s.length) 7 0 = Rfc7541.prefixed 7 0 s.length := by
  rw [integerBytes_eq, UInt32.toNat_ofNat_of_lt' h]

/-! ### The parts of the block -/

theorem represents_literalBytes {nameIndex : UInt8} {e : Rfc7541.Field} {value : List UInt8}
    (hindex : nameIndex.toNat ≠ 0) (he : Rfc7541.entry nameIndex.toNat = some e)
    (hlen : value.length < 2 ^ 32) :
    Rfc7541.Represents (literalBytes nameIndex value) ⟨e.name, value⟩ := by
  have hname : (UInt32.ofNat nameIndex.toNat).toNat = nameIndex.toNat :=
    UInt32.toNat_ofNat_of_lt' (Nat.lt_trans nameIndex.toNat_lt (by decide))
  rw [literalBytes, integerBytes_eq, hname, integerBytes_length hlen]
  exact Rfc7541.represents_literal hindex he value

theorem represents_literalNamedBytes {name value : List UInt8} (hname : name.length < 2 ^ 32)
    (hlen : value.length < 2 ^ 32) :
    Rfc7541.Represents (literalNamedBytes name value) ⟨name, value⟩ := by
  have hhead : ∀ bs : List UInt8, 0x10 :: bs = Rfc7541.prefixed 4 0x10 0 ++ bs := fun _ => rfl
  rw [literalNamedBytes, integerBytes_length hname, integerBytes_length hlen, hhead]
  exact Rfc7541.represents_literal_named name value

/-- A header field of text. -/
def field (name : String) (value : List UInt8) : Rfc7541.Field := ⟨name.toUTF8.toList, value⟩

/-- The fields of a POST request. -/
def postFields (authority path : List UInt8) (contentLength : UInt64) : List Rfc7541.Field :=
  [field ":method" "POST".toUTF8.toList, field ":scheme" "http".toUTF8.toList,
   field ":path" path, field ":authority" authority,
   field "content-type" "application/json".toUTF8.toList,
   field "content-length" (Decimal.ascii contentLength.toNat)]

theorem writeUsize_eq (v : UInt64) : writeUsize v = Decimal.ascii v.toNat := by
  rw [← writeUsize_ofNat v.toNat_lt, UInt64.ofNat_toNat]

/-- **The block is decoded to the fields of the request.** -/
theorem decode_postBlockBytes {authority path : List UInt8} (contentLength : UInt64)
    (hauthority : authority.length < 2 ^ 32) (hpath : path.length < 2 ^ 32) :
    Rfc7541.decode (postBlockBytes authority path contentLength) =
      some (postFields authority path contentLength) := by
  have hlen : (writeUsize contentLength).length < 2 ^ 32 := by
    have hdigits : (Decimal.ascii contentLength.toNat).length ≤ 20 :=
      Decimal.length_ascii_le (by decide) (Nat.lt_trans contentLength.toNat_lt (by decide))
    rw [writeUsize_eq]
    omega
  let parts : List (List UInt8 × Rfc7541.Field) := [
    ([0x83], field ":method" "POST".toUTF8.toList),
    ([0x86], field ":scheme" "http".toUTF8.toList),
    (literalBytes 4 path, field ":path" path),
    (literalBytes 1 authority, field ":authority" authority),
    (literalNamedBytes "content-type".toUTF8.toList "application/json".toUTF8.toList,
      field "content-type" "application/json".toUTF8.toList),
    (literalNamedBytes "content-length".toUTF8.toList (writeUsize contentLength),
      field "content-length" (writeUsize contentLength))]
  have hparts : ∀ p ∈ parts, Rfc7541.Represents p.1 p.2 := by
    simp only [parts, List.forall_mem_cons]
    refine ⟨Rfc7541.represents_indexed (i := 3) rfl, Rfc7541.represents_indexed (i := 6) rfl,
      represents_literalBytes (by decide) (e := field ":path" "/".toUTF8.toList) rfl hpath,
      represents_literalBytes (by decide) (e := field ":authority" "".toUTF8.toList) rfl hauthority, ?_, ?_,
      List.forall_mem_nil _⟩
    · exact represents_literalNamedBytes (by decide +kernel) (by decide +kernel)
    · exact represents_literalNamedBytes (by decide +kernel) hlen
  have hblock : postBlockBytes authority path contentLength = (parts.map Prod.fst).flatten := by
    simp [parts, postBlockBytes]
  rw [hblock, Rfc7541.decode_flatten hparts, postFields, ← writeUsize_eq]
  rfl

/-- The strings of a block are not longer than the block. -/
theorem length_le_postBlockBytes (authority path : List UInt8) (contentLength : UInt64) :
    authority.length ≤ (postBlockBytes authority path contentLength).length ∧
      path.length ≤ (postBlockBytes authority path contentLength).length := by
  simp only [postBlockBytes, literalBytes, List.length_cons, List.length_append]
  omega

/-! ### The frame -/

/-- A block that fits is written behind the header of its frame. -/
theorem writes_postHeaders {streamId : UInt32} {authority path : String} {contentLength : UInt64}
    (h : (Cmd.postHeaders streamId authority path contentLength).Fits) :
    let block := postBlockBytes authority.toUTF8.toList path.toUTF8.toList contentLength
    Writes (postHeaders streamId authority path contentLength)
      (toBE 3 block.length ++ [frameType.headers, flag.endHeaders] ++ toBE 4 streamId.toNat ++
        block) := by
  intro block
  have hblock : block.length ≤ 256 := h
  have hlen : (UInt32.ofNat block.length).toNat = block.length :=
    UInt32.toNat_ofNat_of_lt' (Nat.lt_of_le_of_lt hblock (by decide))
  have hhead := writes_frameHeader (.ofNat block.length) frameType.headers flag.endHeaders streamId
  rw [hlen] at hhead
  rw [postHeaders_eq streamId authority path contentLength h]
  exact hhead.seq (Writes.put block)

/-- **The HEADERS frame of a POST request.**  Writing it fails exactly if its
block is longer than 256 bytes or the frame than the room that is left; otherwise
the frame declares the length of the block, and the block is decoded to the
fields of the request.  Every integer that the writer encodes is decoded back. -/
theorem postHeaders_decodes :
    (∀ (streamId : UInt32) (authority path : String) (contentLength : UInt64),
      ∃ block, Writes (postBlock authority.toUTF8.toList path.toUTF8.toList contentLength) block ∧
        ∀ w : Writer,
          ((exec (postHeaders streamId authority path contentLength) w).1 = .error .shortBuffer ↔
            256 < block.length ∨ w.buf.length < w.pos + (9 + block.length)) ∧
          ∀ w', exec (postHeaders streamId authority path contentLength) w = (.ok (), w') →
            (∃ length, fromBE length = block.length ∧ length.length = 3 ∧
              w'.written = w.written ++ (length ++ [0x1, 0x4] ++ toBE 4 streamId.toNat ++ block)) ∧
            Rfc7541.decode block =
              some (postFields authority.toUTF8.toList path.toUTF8.toList contentLength)) ∧
    ∀ (value : UInt32) (prefixBits : ℕ) (flags : UInt8), 1 ≤ prefixBits → prefixBits ≤ 8 →
      flags.toNat % 2 ^ prefixBits = 0 →
      ∃ bytes, Writes (encodeInteger value prefixBits flags) bytes ∧
        ∀ rest, Rfc7541.integer prefixBits (bytes ++ rest) = some (value.toNat, rest) := by
  refine ⟨?_, ?_⟩
  · intro streamId authority path contentLength
    refine ⟨_, writes_postBlock _ _ _, fun w => ?_⟩
    by_cases hfits : (Cmd.postHeaders streamId authority path contentLength).Fits
    · have hblock : (postBlockBytes authority.toUTF8.toList path.toUTF8.toList
          contentLength).length ≤ 256 := hfits
      -- a block that fits has strings that fit
      have hdecode : Rfc7541.decode (postBlockBytes authority.toUTF8.toList path.toUTF8.toList
          contentLength) =
          some (postFields authority.toUTF8.toList path.toUTF8.toList contentLength) := by
        have hle := length_le_postBlockBytes authority.toUTF8.toList path.toUTF8.toList contentLength
        exact decode_postBlockBytes contentLength (by omega) (by omega)
      have hwrites := writes_postHeaders hfits
      simp only at hwrites
      generalize postBlockBytes authority.toUTF8.toList path.toUTF8.toList contentLength = block
        at hwrites hblock hdecode
      have hwire : (toBE 3 block.length ++ [frameType.headers, flag.endHeaders] ++
          toBE 4 streamId.toNat ++ block).length = 9 + block.length := by
        simp only [List.length_append, length_toBE, List.length_cons, List.length_nil]
      by_cases hroom : w.pos + (9 + block.length) ≤ w.buf.length
      · obtain ⟨w₁, hw₁, hwritten, -⟩ := hwrites.ok w (by rw [hwire]; exact hroom)
        rw [hw₁]
        refine ⟨iff_of_false nofun (by omega), fun w' hw' => ⟨⟨toBE 3 block.length, ?_⟩, hdecode⟩⟩
        obtain rfl := (Prod.mk.inj hw').2
        exact ⟨fromBE_toBE (by omega), length_toBE 3 _, hwritten⟩
      · obtain ⟨w₁, hw₁⟩ := hwrites.short w (by rw [hwire]; exact Nat.not_le.mp hroom)
        rw [hw₁]
        refine ⟨iff_of_true rfl (.inr (Nat.not_le.mp hroom)), fun w' hw' => ?_⟩
        cases (Prod.mk.inj hw').1
    · -- a longer block is refused before anything is written
      have hexec : exec (postHeaders streamId authority path contentLength) w =
          (.error .shortBuffer, w) := Cmd.write_error hfits w
      rw [hexec]
      refine ⟨iff_of_true rfl (.inl (Nat.not_le.mp hfits)), fun w' hw' => ?_⟩
      cases (Prod.mk.inj hw').1
  · intro value prefixBits flags hpos hbits hflags
    refine ⟨_, writes_encodeInteger value prefixBits flags, fun rest => ?_⟩
    rw [integerBytes_eq]
    exact Rfc7541.integer_prefixed prefixBits flags hpos hbits hflags value.toNat rest

/-- 1337 behind a prefix of five bits. -/
theorem postHeaders_decodes_1337 :
    ∃ bytes, Writes (encodeInteger 1337 5 0) bytes ∧
      ∀ rest, Rfc7541.integer 5 (bytes ++ rest) = some (1337, rest) :=
  postHeaders_decodes.2 1337 5 0 (by decide) (by decide) rfl

end Lando.H2
