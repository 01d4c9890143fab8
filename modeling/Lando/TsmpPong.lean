/-
Lando/TsmpPong.lean

The answer to a TSMP ping (`tsmp.rs`), as the bytes of the output buffer.

The pong is an IPv4 packet of 31 bytes whose checksum a receiver verifies by
summing the whole header.  Folding keeps a sum modulo `65535` and never makes a
positive one zero, so with `s` the sum of the other words

    s + (65535 - fold s)

folds to `65535` whatever `s` is, and the checksum of the header is zero.
-/
import Lando.Disco

namespace Lando

namespace Tsmp

open Bytes

/-! ### The code, on the buffer -/

/-- `write_pong` on the bytes of `out`, with the length it returns. -/
def writePongInto (ping : Ping) (out : List UInt8) : Option (List UInt8 × ℕ) :=
  let total := ipv4HeaderLen + pongPayloadLen
  if out.length < total then none
  else
    let out := blit out 0 (List.replicate total 0)
    let out := blit out 0 [0x45]
    let out := blit out 2 (toBE 2 total)
    let out := blit out 8 [64]
    let out := blit out 9 [ipProtoTsmp]
    let out := blit out 12 ping.dst.toList
    let out := blit out 16 ping.src.toList
    -- the checksum field is still zero here
    let sum := checksum (out.take ipv4HeaderLen)
    let out := blit out 10 (toBE 2 sum.toNat)
    let out := blit out ipv4HeaderLen [typePong]
    some (blit out (ipv4HeaderLen + 1) ping.data.toList, total)

/-- The header of a pong with the checksum field `sum`. -/
def pongHeader (ping : Ping) (sum : List UInt8) : List UInt8 :=
  [0x45, 0, 0, 31, 0, 0, 0, 0, 64, ipProtoTsmp] ++ (sum ++ (ping.dst.toList ++ ping.src.toList))

/-- The pong, laid out. -/
def pongBytes (ping : Ping) : List UInt8 :=
  pongHeader ping (toBE 2 (checksum (pongHeader ping [0, 0])).toNat) ++
    (typePong :: (ping.data.toList ++ [0, 0]))

/-! ### The checksum -/

theorem foldCarries_spec (sum : ℕ) :
    foldCarries sum < 65536 ∧ foldCarries sum % 65535 = sum % 65535 ∧
      (0 < sum → 0 < foldCarries sum) := by
  induction sum using foldCarries.induct with
  | case1 sum hsmall =>
    rw [foldCarries, if_pos hsmall]
    exact ⟨by omega, rfl, id⟩
  | case2 sum hlarge ih =>
    rw [foldCarries, if_neg hlarge]
    obtain ⟨hlt, hmod, hpos⟩ := ih
    exact ⟨hlt, by omega, fun _ => hpos (by omega)⟩

/-- A sum folds to the ones' complement zero of a checksum that verifies. -/
theorem foldCarries_add_complement (sum : ℕ) :
    foldCarries (sum + (65535 - foldCarries sum)) = 65535 := by
  obtain ⟨hlt, hmod, hpos⟩ := foldCarries_spec sum
  obtain ⟨hlt', hmod', hpos'⟩ := foldCarries_spec (sum + (65535 - foldCarries sum))
  have hzero : (sum + (65535 - foldCarries sum)) % 65535 = 0 := by omega
  have hne : 0 < sum + (65535 - foldCarries sum) := by
    rcases Nat.eq_zero_or_pos sum with rfl | h
    · rw [foldCarries, if_pos rfl]
      decide
    · omega
  have := hpos' hne
  omega

theorem toNat_checksum (header : List UInt8) :
    (checksum header).toNat = 65535 - foldCarries (sumWords header) := by
  have hlt := (foldCarries_spec (sumWords header)).1
  have hword : (UInt16.ofNat (foldCarries (sumWords header))).toNat =
      foldCarries (sumWords header) := by
    rw [UInt16.toNat_ofNat', Nat.mod_eq_of_lt hlt]
  have hnot := UInt16.toNat_not (UInt16.ofNat (foldCarries (sumWords header)))
  rw [hword] at hnot
  rw [checksum, hnot, UInt16.size]

theorem sumWords_pongHeader (ping : Ping) (x : ℕ) (hx : x < 65536) :
    sumWords (pongHeader ping (toBE 2 x)) = sumWords (pongHeader ping [0, 0]) + x := by
  have hsum : toBE 2 x = [UInt8.ofNat (x / 256 % 256), UInt8.ofNat (x % 256)] := rfl
  have hword : x / 256 % 256 % 2 ^ 8 * 256 + x % 256 % 2 ^ 8 = x := by omega
  simp only [pongHeader, hsum, List.cons_append, List.nil_append, sumWords, UInt8.toNat_ofNat',
    hword, UInt8.toNat_zero, Nat.zero_mul, Nat.zero_add]
  ring

/-- **The header of a pong verifies**, for all addresses. -/
theorem foldCarries_pongHeader (ping : Ping) :
    foldCarries (sumWords (pongHeader ping (toBE 2 (checksum (pongHeader ping [0, 0])).toNat))) =
      65535 := by
  rw [sumWords_pongHeader ping _ (checksum _).toNat_lt, toNat_checksum]
  exact foldCarries_add_complement _

theorem checksum_eq_zero {header : List UInt8} (h : foldCarries (sumWords header) = 65535) :
    checksum header = 0 := by
  rw [← UInt16.toNat_inj, toNat_checksum, h]
  rfl

/-! ### The layout -/

/-- The steps of `write_pong` on its zeroed bytes, whatever stands behind. -/
theorem blits_eq_pongBytes (ping : Ping) (tail : List UInt8) :
    let out := List.replicate 31 0 ++ tail
    let out := blit out 0 [0x45]
    let out := blit out 2 (toBE 2 31)
    let out := blit out 8 [64]
    let out := blit out 9 [ipProtoTsmp]
    let out := blit out 12 ping.dst.toList
    let out := blit out 16 ping.src.toList
    let sum := checksum (out.take ipv4HeaderLen)
    let out := blit out 10 (toBE 2 sum.toNat)
    let out := blit out ipv4HeaderLen [typePong]
    blit out (ipv4HeaderLen + 1) ping.data.toList = pongBytes ping ++ tail := by
  obtain ⟨d₀, d₁, d₂, d₃, hdst⟩ := List.length_eq_four.mp (ping.dst.length_toList)
  obtain ⟨s₀, s₁, s₂, s₃, hsrc⟩ := List.length_eq_four.mp (ping.src.length_toList)
  have hsum : ∀ x, toBE 2 x = [UInt8.ofNat (x / 256 % 256), UInt8.ofNat (x % 256)] := fun _ => rfl
  have hdata : ping.data.toList.length = (List.replicate 8 (0 : UInt8)).length := by
    rw [Vector.length_toList, List.length_replicate]
  intro out₀ out₁ out₂ out₃ out₄ out₅ out₆ sum out₇ out₈
  have hout₆ : out₆ = pongHeader ping [0, 0] ++ (List.replicate 11 0 ++ tail) := by
    simp only [out₆, out₅, out₄, out₃, out₂, out₁, out₀, pongHeader, hdst, hsrc]
    rfl
  have hhead : out₆.take ipv4HeaderLen = pongHeader ping [0, 0] := by
    rw [hout₆]
    refine List.take_left' ?_
    simp [pongHeader, ipv4HeaderLen]
  -- the sum goes into its two zero bytes, and the type behind the header
  have hout₈ : out₈ = (pongHeader ping (toBE 2 sum.toNat) ++ [typePong]) ++
      (List.replicate 8 0 ++ (0 :: 0 :: tail)) := by
    simp only [out₈, out₇, hout₆, pongHeader, hdst, hsrc, hsum]
    rfl
  have hchecksum : sum = checksum (pongHeader ping [0, 0]) := congrArg checksum hhead
  rw [hout₈, blit_append_mid (by simp [pongHeader, ipv4HeaderLen]) hdata, pongBytes, ← hchecksum]
  simp

theorem writePong_eq (ping : Ping) (outLen : ℕ) :
    writePong ping outLen = if outLen < 31 then none else some (pongBytes ping) := by
  have hblits := blits_eq_pongBytes ping []
  simp only [List.append_nil] at hblits
  rw [writePong]
  split_ifs with hroom hroom'
  · rfl
  · exact absurd hroom hroom'
  · exact absurd ‹_› hroom
  · exact congrArg some hblits

/-- `write_pong` changes the first 31 bytes of the buffer and no others. -/
theorem writePongInto_eq (ping : Ping) (out : List UInt8) :
    writePongInto ping out =
      if out.length < 31 then none else some (pongBytes ping ++ out.drop 31, 31) := by
  have hblits := blits_eq_pongBytes ping (out.drop 31)
  rw [writePongInto]
  split_ifs with hroom hroom'
  · rfl
  · exact absurd hroom hroom'
  · exact absurd ‹_› hroom
  · exact congrArg (fun out => some (out, 31)) hblits

/-! ### Pings answered -/

/-- What `parse_ping` accepts, and where it reads. -/
theorem parsePing_some {packet : List UInt8} {ping : Ping} (h : parsePing packet = some ping) :
    let ihl := (packet.getD 0 0 &&& 0x0f).toNat * 4
    packet.getD 0 0 >>> 4 = 4 ∧ 20 ≤ ihl ∧ ihl + 9 ≤ packet.length ∧
      packet.getD 9 0 = ipProtoTsmp ∧ packet.getD ihl 0 = typePing ∧
      ping.data.toList = slice packet (ihl + 1) (ihl + 9) ∧
      ping.src.toList = slice packet 12 16 ∧ ping.dst.toList = slice packet 16 20 := by
  intro ihl
  rw [parsePing] at h
  simp only at h
  split_ifs at h with hshort hversion hroom hproto htype
  simp only [Option.some.injEq] at h
  have hlen : 20 ≤ packet.length := Nat.le_of_not_lt hshort
  have hihl : 20 ≤ ihl := Nat.le_of_not_lt fun hlt => hroom (.inl hlt)
  have hpayload : ihl + 9 ≤ packet.length := Nat.le_of_not_lt fun hlt => hroom (.inr hlt)
  have hat : (packet.drop ihl).getD 0 0 = packet.getD ihl 0 := by
    rw [List.getD_eq_getElem?_getD, List.getD_eq_getElem?_getD, List.getElem?_drop, Nat.add_zero]
  subst h
  refine ⟨not_not.mp hversion, hihl, hpayload, not_not.mp hproto, ?_, ?_, ?_, ?_⟩
  · rw [← hat]
    exact not_not.mp htype
  · rw [toList_read (by rw [List.length_drop]; omega), slice, slice, List.drop_drop]
    congr 1
    omega
  · exact toList_read (by omega)
  · exact toList_read (by omega)

/-- **A pong answers its ping.**  It fills the first 31 bytes of the buffer: an
IPv4 packet of protocol 99 back to the sender that echoes its 8 bytes, with a
header checksum that verifies. -/
theorem writePongInto_parsePing {packet out : List UInt8} {ping : Ping}
    (h : parsePing packet = some ping) (hroom : 31 ≤ out.length) :
    let ihl := (packet.getD 0 0 &&& 0x0f).toNat * 4
    ∃ pong, writePongInto ping out = some (pong ++ out.drop 31, 31) ∧ pong.length = 31 ∧
      pong.take 1 = [0x45] ∧ fromBE (slice pong 2 4) = 31 ∧ slice pong 9 10 = [99] ∧
      slice pong 12 16 = slice packet 16 20 ∧ slice pong 16 20 = slice packet 12 16 ∧
      packet.getD ihl 0 = 112 ∧
      slice pong 20 31 = 111 :: (slice packet (ihl + 1) (ihl + 9) ++ [0, 0]) ∧
      foldCarries (sumWords (pong.take 20)) = 0xffff ∧ checksum (pong.take 20) = 0 := by
  intro ihl
  obtain ⟨-, -, -, -, htype, hdata, hsrc, hdst⟩ := parsePing_some h
  have hhead : (pongHeader ping (toBE 2 (checksum (pongHeader ping [0, 0])).toNat)).length = 20 := by
    simp [pongHeader]
  have htake : (pongBytes ping).take 20 =
      pongHeader ping (toBE 2 (checksum (pongHeader ping [0, 0])).toNat) := List.take_left' hhead
  -- what stands in front of the addresses
  let front : List UInt8 := [0x45, 0, 0, 31, 0, 0, 0, 0, 64, ipProtoTsmp] ++
    toBE 2 (checksum (pongHeader ping [0, 0])).toNat
  have hfront : front.length = 12 := by simp [front]
  refine ⟨pongBytes ping, by rw [writePongInto_eq, if_neg (Nat.not_lt.mpr hroom)], ?_, rfl, rfl, rfl,
    ?_, ?_, htype, ?_, ?_, ?_⟩
  · simp [pongBytes, hhead]
  · -- the destination of the ping is the source of the pong
    rw [← hdst]
    have hsplit : pongBytes ping = front ++ (ping.dst.toList ++ (ping.src.toList ++
        (typePong :: (ping.data.toList ++ [0, 0])))) := by
      simp [pongBytes, pongHeader, front]
    rw [hsplit]
    exact slice_append_mid hfront.symm (by rw [Vector.length_toList])
  · -- and the other way round
    rw [← hsrc]
    have hsplit : pongBytes ping = (front ++ ping.dst.toList) ++ (ping.src.toList ++
        (typePong :: (ping.data.toList ++ [0, 0]))) := by
      simp [pongBytes, pongHeader, front]
    rw [hsplit]
    exact slice_append_mid (by rw [List.length_append, hfront, Vector.length_toList])
      (by rw [Vector.length_toList])
  · rw [← hdata, pongBytes, slice, List.drop_left' hhead]
    exact List.take_of_length_le (by simp)
  · rw [htake]
    exact foldCarries_pongHeader ping
  · rw [htake]
    exact checksum_eq_zero (foldCarries_pongHeader ping)

/-- A ping behind four bytes of options, padded for the tunnel. -/
def paddedPing : List UInt8 :=
  [0x46, 0, 0, 33, 0, 0, 0, 0, 64, 99, 0, 0, 100, 64, 0, 2, 100, 64, 0, 1, 1, 1, 1, 0,
    112, 1, 2, 3, 4, 5, 6, 7, 8, 0, 0, 0]

theorem writePongInto_parsePing_padded :
    ∃ pong, writePongInto ⟨#v[1, 2, 3, 4, 5, 6, 7, 8], #v[100, 64, 0, 2], #v[100, 64, 0, 1]⟩
        (List.replicate 64 7) = some (pong ++ List.replicate 33 7, 31) ∧
      slice pong 12 20 = [100, 64, 0, 1, 100, 64, 0, 2] ∧
      slice pong 20 31 = [111, 1, 2, 3, 4, 5, 6, 7, 8, 0, 0] ∧ checksum (pong.take 20) = 0 := by
  obtain ⟨pong, hwrite, hlen, -, -, -, hsrc, hdst, -, hpayload, -, hsum⟩ :=
    @writePongInto_parsePing paddedPing (List.replicate 64 7) _ rfl (by decide)
  have hjoin : slice pong 12 20 = slice pong 12 16 ++ slice pong 16 20 := by
    simp only [slice]
    rw [← List.take_append_drop 4 ((pong.drop 12).take 8), List.take_take, List.drop_take,
      List.drop_drop]
    rfl
  exact ⟨pong, hwrite, by rw [hjoin, hsrc, hdst]; rfl, hpayload, hsum⟩

end Tsmp

end Lando
