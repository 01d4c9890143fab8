/-
Lando/Base64.lean

The base64 of the upgrade request (`upgrade.rs`, `base64_encode`).

The source writes four digits for each chunk of three bytes, by index, into a
buffer whose length it checked once.  `base64EncodeInto` has these stores one by
one, any of which could be out of range, and does

    base64EncodeInto input out = ok (needed, b64Chunks input ++ out.drop needed)

so it writes what `base64Encode` says.  The digits are those of RFC 4648, which
has its own decoder here (`Rfc4648`), and the header of a request is found again
among its lines.
-/
import Lando.Checked
import Lando.Rfc4648
import Lando.Upgrade

namespace Lando.Upgrade

open Bytes Checked

/-! ### The loop over the chunks -/

/-- A digit of the table, or `=` where the chunk has no byte for it. -/
def digitOrPad (present : Bool) (i : ℕ) : Option UInt8 := if present then load b64 i else some 61

/-- The four stores of a chunk, at index `o`. -/
def storeChunk (chunk out : List UInt8) (o : ℕ) : Option (List UInt8) := do
  let b₀ ← load chunk 0
  let b₁ := chunk.getD 1 0
  let b₂ := chunk.getD 2 0
  let n := b64Bits b₀ b₁ b₂
  let out ← store out o (← load b64 ((n >>> 18).toNat &&& 0x3f))
  let out ← store out (o + 1) (← load b64 ((n >>> 12).toNat &&& 0x3f))
  let out ← store out (o + 2) (← digitOrPad (1 < chunk.length) ((n >>> 6).toNat &&& 0x3f))
  store out (o + 3) (← digitOrPad (2 < chunk.length) (n.toNat &&& 0x3f))

/-- The loop of `base64_encode` over the chunks; `o` is the place of the next group. -/
def storeChunks : List (List UInt8) → List UInt8 → ℕ → Option (List UInt8)
  | [], out, _ => some out
  | chunk :: chunks, out, o => do storeChunks chunks (← storeChunk chunk out o) (o + 4)

/-- `base64_encode`: the number of bytes written, and the buffer then. -/
def base64EncodeInto (input out : List UInt8) :
    Option (Except UpgradeError (ℕ × List UInt8)) :=
  let needed := (input.length + 2) / 3 * 4
  if out.length < needed then some (.error .shortBuffer)
  else do
    let out ← storeChunks (chunks 3 input) out 0
    return .ok (needed, out)

theorem length_b64 : b64.length = 64 := by decide +kernel

/-- An index of six bits is in the table. -/
theorem load_b64 (n : UInt32) {shift : UInt32} :
    load b64 ((n >>> shift).toNat &&& 0x3f) = some (b64Digit n shift) := by
  have hlt : (n >>> shift).toNat &&& 0x3f < b64.length := by
    rw [length_b64]
    exact Nat.lt_of_le_of_lt Nat.and_le_right (by decide)
  rw [load_eq hlt 0, b64Digit, UInt32.toNat_and]
  rfl

theorem length_b64Chunks (input : List UInt8) :
    (b64Chunks input).length = (input.length + 2) / 3 * 4 := by
  induction input using b64Chunks.induct with
  | case1 => rfl
  | case2 b₀ => simp only [b64Chunks, List.length_cons, List.length_nil]
  | case3 b₀ b₁ => simp only [b64Chunks, List.length_cons, List.length_nil]
  | case4 b₀ b₁ b₂ rest ih =>
    simp only [b64Chunks, List.length_append, List.length_cons, List.length_nil, ih]
    omega

/-- Four stores in a row are one write. -/
theorem store_four {out : List UInt8} {o : ℕ} (h : o + 4 ≤ out.length) (d₀ d₁ d₂ d₃ : UInt8) :
    (do
      let out ← store out o d₀
      let out ← store out (o + 1) d₁
      let out ← store out (o + 2) d₂
      store out (o + 3) d₃) = some (blit out o [d₀, d₁, d₂, d₃]) := by
  have h₁ : store (blit out o [d₀]) (o + 1) d₁ = some (blit out o [d₀, d₁]) :=
    store_behind (by rfl) (by omega) d₁
  have h₂ : store (blit out o [d₀, d₁]) (o + 2) d₂ = some (blit out o [d₀, d₁, d₂]) :=
    store_behind (by rfl) (by omega) d₂
  have h₃ : store (blit out o [d₀, d₁, d₂]) (o + 3) d₃ = some (blit out o [d₀, d₁, d₂, d₃]) :=
    store_behind (by rfl) (by omega) d₃
  rw [store_eq (by omega)]
  simp only [Option.bind_eq_bind, Option.bind_some, h₁, h₂, h₃]

/-- A chunk is written whole, padding included. -/
theorem storeChunk_eq {chunk out : List UInt8} {o : ℕ} (hchunk : chunk ≠ [])
    (hlen : chunk.length ≤ 3) (h : o + 4 ≤ out.length) :
    storeChunk chunk out o = some (blit out o (b64Chunks chunk)) := by
  have hlast : ∀ n : UInt32, load b64 (n.toNat &&& 0x3f) = some (b64Digit n 0) := by
    intro n
    rw [← load_b64, UInt32.shiftRight_zero]
  match chunk with
  | [b₀] =>
    simp only [storeChunk, load_b64]
    exact store_four h _ _ _ _
  | [b₀, b₁] =>
    have htwo : decide (1 < [b₀, b₁].length) = true := rfl
    simp only [storeChunk, htwo, digitOrPad, if_true, load_b64]
    exact store_four h _ _ _ _
  | [b₀, b₁, b₂] =>
    have htwo : decide (1 < [b₀, b₁, b₂].length) = true := rfl
    have hthree : decide (2 < [b₀, b₁, b₂].length) = true := rfl
    simp only [storeChunk, htwo, hthree, digitOrPad, if_true, load_b64]
    simp only [hlast]
    exact store_four h _ _ _ _
  | _ :: _ :: _ :: _ :: rest =>
    simp only [List.length_cons] at hlen
    omega

/-- **The loop writes the digits**, one chunk behind the other. -/
theorem storeChunks_eq (input : List UInt8) {out : List UInt8} {o : ℕ}
    (h : o + (b64Chunks input).length ≤ out.length) :
    storeChunks (chunks 3 input) out o = some (blit out o (b64Chunks input)) := by
  induction input using b64Chunks.induct generalizing out o with
  | case1 =>
    rw [chunks_nil, storeChunks, b64Chunks, blit, List.append_nil, List.length_nil, Nat.add_zero,
      List.take_append_drop]
  | case2 b₀ =>
    rw [chunks_of_le (by simp) (by simp), storeChunks, storeChunk_eq (by simp) (by simp) h]
    rfl
  | case3 b₀ b₁ =>
    rw [chunks_of_le (by simp) (by simp), storeChunks, storeChunk_eq (by simp) (by simp) h]
    rfl
  | case4 b₀ b₁ b₂ rest ih =>
    have hfront : b64Chunks (b₀ :: b₁ :: b₂ :: rest) = b64Chunks [b₀, b₁, b₂] ++ b64Chunks rest :=
      rfl
    have hfour : (b64Chunks [b₀, b₁, b₂]).length = 4 := rfl
    rw [hfront, List.length_append, hfour] at h
    rw [chunks_cons (by decide) (by simp), storeChunks]
    show (storeChunk [b₀, b₁, b₂] out o >>= fun out => storeChunks (chunks 3 rest) out (o + 4)) = _
    rw [storeChunk_eq (by simp) (by simp) (by omega), Option.bind_eq_bind, Option.bind_some,
      ih (by rw [length_blit (by omega)]; omega), hfront, ← blit_blit_behind (by omega), hfour]

/-- `base64Encode` says what is written, if the buffer is long enough. -/
theorem base64Encode_eq (input out : List UInt8) :
    base64Encode input out.length =
      if out.length < (b64Chunks input).length then .error .shortBuffer
      else .ok (b64Chunks input) := by
  rw [length_b64Chunks]
  rfl

/-- No store is out of range, and what `base64Encode` says is written to the front. -/
theorem base64EncodeInto_eq (input out : List UInt8) :
    base64EncodeInto input out = some ((base64Encode input out.length).map fun text =>
      (text.length, text ++ out.drop text.length)) := by
  have hneeded := length_b64Chunks input
  unfold base64EncodeInto
  rw [base64Encode_eq]
  simp only [← hneeded]
  by_cases h : out.length < (b64Chunks input).length
  · rw [if_pos h, if_pos h]
    rfl
  · rw [if_neg h, if_neg h, storeChunks_eq input (by omega), blit, List.take_zero, Nat.zero_add]
    rfl

/-! ### The digits of RFC 4648 -/

theorem b64_getD {n : ℕ} (h : n < 64) : b64.getD n 0 = Rfc4648.digit n := by
  have table : ∀ n : Fin 64, b64.getD n.val 0 = Rfc4648.digit n.val := by decide +kernel
  exact table ⟨n, h⟩

theorem toNat_b64Bits (b₀ b₁ b₂ : UInt8) :
    (b64Bits b₀ b₁ b₂).toNat = b₀.toNat * 65536 + b₁.toNat * 256 + b₂.toNat := by
  have h₀ := b₀.toNat_lt
  have h₁ := b₁.toNat_lt
  have h₂ := b₂.toNat_lt
  have hhigh : (b₀.toUInt32 <<< 16).toNat = b₀.toNat * 65536 := by
    rw [UInt32.toNat_shiftLeft, UInt8.toNat_toUInt32]
    show b₀.toNat <<< 16 % 2 ^ 32 = _
    rw [Nat.shiftLeft_eq]
    omega
  have hmid : (b₁.toUInt32 <<< 8).toNat = b₁.toNat * 256 := by
    rw [UInt32.toNat_shiftLeft, UInt8.toNat_toUInt32]
    show b₁.toNat <<< 8 % 2 ^ 32 = _
    rw [Nat.shiftLeft_eq]
    omega
  -- the three bytes do not overlap
  have hlow : b₁.toNat * 256 ||| b₂.toNat = b₁.toNat * 256 + b₂.toNat := by
    rw [Nat.mul_comm]
    exact (Nat.two_pow_add_eq_or_of_lt (i := 8) h₂ b₁.toNat).symm
  have hall : b₀.toNat * 65536 ||| (b₁.toNat * 256 + b₂.toNat) =
      b₀.toNat * 65536 + (b₁.toNat * 256 + b₂.toNat) := by
    rw [Nat.mul_comm]
    exact (Nat.two_pow_add_eq_or_of_lt (i := 16) (by omega) b₀.toNat).symm
  rw [b64Bits, UInt32.toNat_or, UInt32.toNat_or, hhigh, hmid, UInt8.toNat_toUInt32, Nat.or_assoc,
    hlow, hall, Nat.add_assoc]

theorem b64Digit_eq (n : UInt32) {shift : UInt32} {k : ℕ} (hk : shift.toNat % 32 = k) :
    b64Digit n shift = Rfc4648.digit (n.toNat / 2 ^ k % 64) := by
  have hbits : ((n >>> shift) &&& 0x3f).toNat = n.toNat / 2 ^ k % 64 := by
    rw [UInt32.toNat_and, UInt32.toNat_shiftRight, hk, Nat.shiftRight_eq_div_pow]
    exact Nat.and_two_pow_sub_one_eq_mod (n := 6) _
  rw [b64Digit, hbits, b64_getD (Nat.mod_lt _ (by decide))]

/-- The digits of a chunk, from its bytes. -/
theorem b64Digits_eq (b₀ b₁ b₂ : UInt8) :
    b64Digit (b64Bits b₀ b₁ b₂) 18 = Rfc4648.digit (b₀.toNat / 4) ∧
    b64Digit (b64Bits b₀ b₁ b₂) 12 = Rfc4648.digit (b₀.toNat % 4 * 16 + b₁.toNat / 16) ∧
    b64Digit (b64Bits b₀ b₁ b₂) 6 = Rfc4648.digit (b₁.toNat % 16 * 4 + b₂.toNat / 64) ∧
    b64Digit (b64Bits b₀ b₁ b₂) 0 = Rfc4648.digit (b₂.toNat % 64) := by
  have h₀ := b₀.toNat_lt
  have h₁ := b₁.toNat_lt
  have h₂ := b₂.toNat_lt
  rw [b64Digit_eq _ (show (18 : UInt32).toNat % 32 = 18 from rfl),
    b64Digit_eq _ (show (12 : UInt32).toNat % 32 = 12 from rfl),
    b64Digit_eq _ (show (6 : UInt32).toNat % 32 = 6 from rfl),
    b64Digit_eq _ (show (0 : UInt32).toNat % 32 = 0 from rfl), toNat_b64Bits]
  refine ⟨congrArg _ ?_, congrArg _ ?_, congrArg _ ?_, congrArg _ ?_⟩
  · omega
  · omega
  · omega
  · omega

/-- The source's base64 is that of the RFC. -/
theorem b64Chunks_eq (input : List UInt8) : b64Chunks input = Rfc4648.encode input := by
  induction input using b64Chunks.induct with
  | case1 => rfl
  | case2 b₀ =>
    obtain ⟨h₁₈, h₁₂, -, -⟩ := b64Digits_eq b₀ 0 0
    simp only [b64Chunks, h₁₈, h₁₂]
    rfl
  | case3 b₀ b₁ =>
    obtain ⟨h₁₈, h₁₂, h₆, -⟩ := b64Digits_eq b₀ b₁ 0
    simp only [b64Chunks, h₁₈, h₁₂, h₆]
    rfl
  | case4 b₀ b₁ b₂ rest ih =>
    obtain ⟨h₁₈, h₁₂, h₆, h₀⟩ := b64Digits_eq b₀ b₁ b₂
    rw [b64Chunks, Rfc4648.encode, ih, h₁₈, h₁₂, h₆, h₀]

theorem decode_b64Chunks (input : List UInt8) :
    Rfc4648.decode (b64Chunks input) = some input := by
  rw [b64Chunks_eq, Rfc4648.decode_encode]

/-! ### The handshake header -/

/-- The lines of a request, without their ends. -/
def requestLines (request : List UInt8) : List (List UInt8) :=
  (request.splitOn 10).map fun line => if line.getLast? = some 13 then line.dropLast else line

/-- What stands in the header lines of this name. -/
def headerValues (name : String) (request : List UInt8) : List (List UInt8) :=
  (requestLines request).filterMap fun line => (name ++ ": ").toUTF8.toList.isPrefixOf? line

/-- The request line and the headers in front of the handshake, without the last
line feed. -/
def requestFront (host : String) : List UInt8 :=
  "POST /ts2021 HTTP/1.1\r\nHost: ".toUTF8.toList ++ host.toUTF8.toList ++
    "\r\nUpgrade: tailscale-control-protocol\r\nConnection: upgrade\r".toUTF8.toList

/-- The handshake header, without the end of its line. -/
def handshakeHeader (initiation : List UInt8) : List UInt8 :=
  "X-Tailscale-Handshake: ".toUTF8.toList ++ b64Chunks initiation

/-- The whole upgrade request, the line of the handshake included. -/
def requestText (host : String) (initiation : List UInt8) : List UInt8 :=
  requestFront host ++ 10 :: (handshakeHeader initiation ++
    "\r\nContent-Length: 0\r\n\r\n".toUTF8.toList)

/-- Pieces are written one behind the other, while they fit. -/
theorem putBytes_foldlM {outLen : ℕ} (pieces : List (List UInt8)) {w : List UInt8}
    (hw : w.length ≤ outLen) :
    pieces.foldlM (putBytes outLen) w =
      if outLen < w.length + pieces.flatten.length then .error .shortBuffer
      else .ok (w ++ pieces.flatten) := by
  induction pieces generalizing w with
  | nil =>
    rw [List.foldlM_nil, List.flatten_nil, List.length_nil, if_neg (by omega), List.append_nil]
    rfl
  | cons b pieces ih =>
    rw [List.foldlM_cons, putBytes, List.flatten_cons, List.length_append]
    by_cases h : outLen < w.length + b.length
    · rw [if_pos h, if_pos (by omega)]
      rfl
    · have hlen : (w ++ b).length = w.length + b.length := List.length_append
      rw [if_neg h]
      show pieces.foldlM (putBytes outLen) (w ++ b) = _
      rw [ih (by omega), hlen, Nat.add_assoc, List.append_assoc]

/-- A request is written whole or not at all. -/
theorem buildRequest_eq (host : String) {initiation : List UInt8} (h : initiation.length ≤ 150)
    (outLen : ℕ) :
    buildRequest host initiation outLen =
      if outLen < (requestText host initiation).length then .error .shortBuffer
      else .ok (requestText host initiation) := by
  let pieces (digits : List UInt8) : List (List UInt8) :=
    ["POST ".toUTF8.toList, upgradePath.toUTF8.toList, " HTTP/1.1\r\nHost: ".toUTF8.toList,
      host.toUTF8.toList, "\r\nUpgrade: ".toUTF8.toList, upgradeHeaderValue.toUTF8.toList,
      "\r\nConnection: upgrade\r\n".toUTF8.toList, handshakeHeaderName.toUTF8.toList,
      ": ".toUTF8.toList, digits, "\r\nContent-Length: 0\r\n\r\n".toUTF8.toList]
  have hsteps : buildRequest host initiation outLen =
      (base64Encode initiation 200 >>= fun digits => (pieces digits).foldlM (putBytes outLen) []) := by
    simp only [buildRequest, pieces, putStr, List.foldlM_cons, List.foldlM_nil, bind_pure]
  -- 150 bytes just fit into the staging buffer
  have hroom : base64Encode initiation 200 = .ok (b64Chunks initiation) := by
    have hlen := length_b64Chunks initiation
    have hstaging := base64Encode_eq initiation (List.replicate 200 0)
    rwa [List.length_replicate, if_neg (by omega)] at hstaging
  have htext : (pieces (b64Chunks initiation)).flatten = requestText host initiation := by
    have hfront : "POST /ts2021 HTTP/1.1\r\nHost: ".toUTF8.toList =
        "POST ".toUTF8.toList ++ upgradePath.toUTF8.toList ++
          " HTTP/1.1\r\nHost: ".toUTF8.toList := by decide +kernel
    have hmid : "\r\nUpgrade: tailscale-control-protocol\r\nConnection: upgrade\r".toUTF8.toList ++
        [10] = "\r\nUpgrade: ".toUTF8.toList ++ upgradeHeaderValue.toUTF8.toList ++
          "\r\nConnection: upgrade\r\n".toUTF8.toList := by decide +kernel
    have hname : "X-Tailscale-Handshake: ".toUTF8.toList =
        handshakeHeaderName.toUTF8.toList ++ ": ".toUTF8.toList := by decide +kernel
    rw [requestText, requestFront, List.append_assoc, List.append_assoc, ← List.singleton_append,
      ← List.append_assoc _ [10], hmid, hfront, handshakeHeader, hname]
    simp only [pieces, List.flatten_cons, List.flatten_nil, List.append_assoc, List.append_nil]
  rw [hsteps, hroom]
  show (pieces (b64Chunks initiation)).foldlM (putBytes outLen) [] = _
  rw [putBytes_foldlM _ (Nat.zero_le _), htext, List.length_nil, Nat.zero_add, List.nil_append]

/-- Digits are printable. -/
theorem lt_of_mem_b64Chunks {input : List UInt8} {c : UInt8} (h : c ∈ b64Chunks input) :
    0x20 < c := by
  have table : ∀ n : Fin 64, 0x20 < Rfc4648.digit n.val := by decide +kernel
  rw [b64Chunks_eq] at h
  rcases Rfc4648.mem_encode h with rfl | ⟨n, hn, rfl⟩
  · decide
  · exact table ⟨n, hn⟩

theorem headerValues_append (name : String) (x y : List UInt8) :
    headerValues name (x ++ 10 :: y) = headerValues name x ++ headerValues name y := by
  simp only [headerValues, requestLines, List.splitOn_append_cons_self, List.map_append,
    List.filterMap_append]

theorem headerValues_line (name : String) {line : List UInt8} (h : 10 ∉ line) :
    headerValues name (line ++ [13]) = ((name ++ ": ").toUTF8.toList.isPrefixOf? line).toList := by
  have hsplit : (line ++ [13]).splitOn 10 = [line ++ [13]] := by
    refine List.splitOn_eq_singleton ?_
    rw [List.mem_append, not_or]
    exact ⟨h, by decide⟩
  simp only [headerValues, requestLines, hsplit, List.map_cons, List.map_nil,
    List.getLast?_concat, if_true, List.dropLast_concat]
  cases h : (name ++ ": ").toUTF8.toList.isPrefixOf? line with
  | none => rw [List.filterMap_cons_none h]; rfl
  | some v => rw [List.filterMap_cons_some h]; rfl

/-- The handshake is the last of the header lines with its name. -/
theorem headerValues_requestText (host : String) (initiation : List UInt8) :
    headerValues handshakeHeaderName (requestText host initiation) =
      headerValues handshakeHeaderName (requestFront host) ++ [b64Chunks initiation] := by
  have hname : (handshakeHeaderName ++ ": ").toUTF8.toList =
      "X-Tailscale-Handshake: ".toUTF8.toList := by decide +kernel
  have hline : 10 ∉ handshakeHeader initiation := by
    rw [handshakeHeader, List.mem_append, not_or]
    exact ⟨by decide +kernel, fun h => absurd (lt_of_mem_b64Chunks h) (by decide)⟩
  have hsplit : handshakeHeader initiation ++ "\r\nContent-Length: 0\r\n\r\n".toUTF8.toList =
      (handshakeHeader initiation ++ [13]) ++ 10 ::
        "Content-Length: 0\r\n\r\n".toUTF8.toList := by
    have htail : "\r\nContent-Length: 0\r\n\r\n".toUTF8.toList =
        [13] ++ 10 :: "Content-Length: 0\r\n\r\n".toUTF8.toList := by decide +kernel
    rw [htail, List.append_assoc]
  have hrest : headerValues handshakeHeaderName "Content-Length: 0\r\n\r\n".toUTF8.toList = [] := by
    decide +kernel
  have hvalue : "X-Tailscale-Handshake: ".toUTF8.toList.isPrefixOf? (handshakeHeader initiation) =
      some (b64Chunks initiation) := List.isPrefixOf?_eq_some_iff_append_eq.mpr rfl
  rw [requestText, headerValues_append, hsplit, headerValues_append, headerValues_line _ hline,
    hname, hvalue, hrest]
  rfl

/-- Nothing in front of it has that name, if the host is in one line. -/
theorem headerValues_requestFront {host : String} (h : 10 ∉ host.toUTF8.toList) :
    headerValues handshakeHeaderName (requestFront host) = [] := by
  have hsplit : requestFront host = "POST /ts2021 HTTP/1.1\r".toUTF8.toList ++ 10 ::
      (("Host: ".toUTF8.toList ++ host.toUTF8.toList) ++ [13] ++ 10 ::
        "Upgrade: tailscale-control-protocol\r\nConnection: upgrade\r".toUTF8.toList) := by
    have hstart : "POST /ts2021 HTTP/1.1\r\nHost: ".toUTF8.toList =
        "POST /ts2021 HTTP/1.1\r".toUTF8.toList ++ 10 :: "Host: ".toUTF8.toList := by
      decide +kernel
    have hrest : "\r\nUpgrade: tailscale-control-protocol\r\nConnection: upgrade\r".toUTF8.toList =
        [13] ++ 10 ::
          "Upgrade: tailscale-control-protocol\r\nConnection: upgrade\r".toUTF8.toList := by
      decide +kernel
    rw [requestFront, hstart, hrest]
    simp only [List.append_assoc, List.cons_append]
  have hline : 10 ∉ "Host: ".toUTF8.toList ++ host.toUTF8.toList := by
    rw [List.mem_append, not_or]
    exact ⟨by decide +kernel, h⟩
  have hfirst : headerValues handshakeHeaderName "POST /ts2021 HTTP/1.1\r".toUTF8.toList = [] := by
    decide +kernel
  have hlast : headerValues handshakeHeaderName
      "Upgrade: tailscale-control-protocol\r\nConnection: upgrade\r".toUTF8.toList = [] := by
    decide +kernel
  -- `H` is no `X`
  have hhost : (handshakeHeaderName ++ ": ").toUTF8.toList.isPrefixOf?
      ("Host: ".toUTF8.toList ++ host.toUTF8.toList) = none := by
    have hname : ∃ rest, (handshakeHeaderName ++ ": ").toUTF8.toList = 0x58 :: rest :=
      ⟨"-Tailscale-Handshake: ".toUTF8.toList, by decide +kernel⟩
    have hother : ∃ rest, "Host: ".toUTF8.toList = 0x48 :: rest :=
      ⟨"ost: ".toUTF8.toList, by decide +kernel⟩
    obtain ⟨rest, hname⟩ := hname
    obtain ⟨rest', hother⟩ := hother
    rw [hname, hother]
    rfl
  rw [hsplit, headerValues_append, headerValues_append, headerValues_line _ hline, hfirst, hlast,
    hhost]
  rfl

/-! ### Base64 and the header together -/

/-- `base64_encode` needs a buffer for the digits, and writes just them. -/
theorem base64EncodeInto_spec (input out : List UInt8) :
    base64EncodeInto input out ≠ none ∧
    ((∃ n out', base64EncodeInto input out = some (.ok (n, out'))) ↔
      4 * ((input.length + 2) / 3) ≤ out.length) ∧
    ∀ n out', base64EncodeInto input out = some (.ok (n, out')) →
      n = 4 * ((input.length + 2) / 3) ∧ out'.length = out.length ∧
      out'.drop n = out.drop n ∧ Rfc4648.decode (out'.take n) = some input := by
  have hlen : (b64Chunks input).length = 4 * ((input.length + 2) / 3) := by
    rw [length_b64Chunks, Nat.mul_comm]
  rw [base64EncodeInto_eq, base64Encode_eq, ← hlen]
  refine ⟨Option.some_ne_none _, ?_⟩
  by_cases h : out.length < (b64Chunks input).length
  · rw [if_pos h]
    refine ⟨iff_of_false ?_ (Nat.not_le.mpr h), ?_⟩
    · rintro ⟨n, out', h'⟩
      cases h'
    · intro n out' h'
      cases h'
  · rw [if_neg h]
    refine ⟨iff_of_true ⟨_, _, rfl⟩ (Nat.not_lt.mp h), ?_⟩
    intro n out' h'
    obtain ⟨rfl, rfl⟩ := Prod.mk.inj (Except.ok.inj (Option.some.inj h'))
    refine ⟨rfl, ?_, List.drop_left, ?_⟩
    · rw [List.length_append, List.length_drop]
      omega
    · rw [List.take_left, decode_b64Chunks]

/-- The header of a request that fits, for every host. -/
theorem buildRequest_spec (host : String) {initiation : List UInt8} (h : initiation.length ≤ 150)
    (outLen : ℕ) :
    ((∃ request, buildRequest host initiation outLen = .ok request) ↔
      (requestText host initiation).length ≤ outLen) ∧
    ∀ request, buildRequest host initiation outLen = .ok request →
      ∃ value, (headerValues handshakeHeaderName request).getLast? = some value ∧
        Rfc4648.decode value = some initiation ∧
        (10 ∉ host.toUTF8.toList → headerValues handshakeHeaderName request = [value]) := by
  rw [buildRequest_eq host h]
  by_cases hroom : outLen < (requestText host initiation).length
  · rw [if_pos hroom]
    refine ⟨iff_of_false ?_ (Nat.not_le.mpr hroom), ?_⟩
    · rintro ⟨request, h'⟩
      cases h'
    · intro request h'
      cases h'
  · rw [if_neg hroom]
    refine ⟨iff_of_true ⟨_, rfl⟩ (Nat.not_lt.mp hroom), ?_⟩
    intro request h'
    obtain rfl := Except.ok.inj h'
    refine ⟨b64Chunks initiation, ?_, decode_b64Chunks initiation, ?_⟩
    · rw [headerValues_requestText, List.getLast?_concat]
    · intro hhost
      rw [headerValues_requestText, headerValues_requestFront hhost]
      rfl

/-- **The handshake arrives.**  For every input and buffer, `base64_encode` has no
index out of range, succeeds exactly where the buffer holds the digits, and then
writes them and nothing behind them; the decoder of RFC 4648 gives the input back.
And every request for an initiation of 150 bytes at most, with whatever host and
in whatever buffer holds it, ends in a handshake header that is decoded to the
initiation; in one with a host in one line there is no other. -/
theorem base64_handshake_decoded :
    (∀ input out : List UInt8,
      base64EncodeInto input out ≠ none ∧
      ((∃ n out', base64EncodeInto input out = some (.ok (n, out'))) ↔
        4 * ((input.length + 2) / 3) ≤ out.length) ∧
      ∀ n out', base64EncodeInto input out = some (.ok (n, out')) →
        n = 4 * ((input.length + 2) / 3) ∧ out'.length = out.length ∧
        out'.drop n = out.drop n ∧ Rfc4648.decode (out'.take n) = some input) ∧
    ∀ (host : String) (initiation : List UInt8) (outLen : ℕ), initiation.length ≤ 150 →
      ((∃ request, buildRequest host initiation outLen = .ok request) ↔
        (requestText host initiation).length ≤ outLen) ∧
      ∀ request, buildRequest host initiation outLen = .ok request →
        ∃ value, (headerValues handshakeHeaderName request).getLast? = some value ∧
          Rfc4648.decode value = some initiation ∧
          (10 ∉ host.toUTF8.toList → headerValues handshakeHeaderName request = [value]) :=
  ⟨base64EncodeInto_spec, fun host _ outLen h => buildRequest_spec host h outLen⟩

/-- A last chunk of two bytes, in a buffer that is longer. -/
example : base64EncodeInto "fo".toUTF8.toList [1, 2, 3, 4, 5] =
    some (.ok (4, "Zm8=".toUTF8.toList ++ [5])) := by decide +kernel

end Lando.Upgrade
