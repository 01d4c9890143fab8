/-
Lando/Upgrade.lean

The HTTP/1.1 protocol switch in front of the Noise channel (`upgrade.rs`).

A client parses a growing buffer again and again until the headers are
complete, so what counts of `parseResponse` is that more bytes never change
an answer (`parseResponse_append`): the first blank line stays the first, and
the status line lies in front of it.
-/
import Mathlib.Data.List.Basic
import Lando.Bytes

namespace Lando.Upgrade

open Bytes

/-- The path that the control server serves. -/
def upgradePath : String := "/ts2021"

/-- The protocol that the upgrade asks for. -/
def upgradeHeaderValue : String := "tailscale-control-protocol"

/-- The header that carries the initiation. -/
def handshakeHeaderName : String := "X-Tailscale-Handshake"

/-- The limit for the request. -/
def maxRequestLen : ℕ := 512

/-- `UpgradeError`. -/
inductive UpgradeError
  | incomplete
  | notSwitching
  | malformed
  | shortBuffer
  deriving DecidableEq, Repr

/-! ### The request -/

/-- The alphabet of `base64_encode`. -/
def b64 : List UInt8 :=
  "ABCDEFGHIJKLMNOPQRSTUVWXYZabcdefghijklmnopqrstuvwxyz0123456789+/".toUTF8.toList

/-- The digit for six bits of `n`, `shift` bits up. -/
def b64Digit (n shift : UInt32) : UInt8 := b64.getD ((n >>> shift) &&& 0x3f).toNat 0

/-- The 24 bits of a chunk. -/
def b64Bits (b₀ b₁ b₂ : UInt8) : UInt32 :=
  (b₀.toUInt32 <<< 16) ||| (b₁.toUInt32 <<< 8) ||| b₂.toUInt32

/-- Three bytes at a time; a last chunk that is short ends in `=`. -/
def b64Chunks : List UInt8 → List UInt8
  | [] => []
  | [b₀] =>
      let n := b64Bits b₀ 0 0
      [b64Digit n 18, b64Digit n 12, 61, 61]
  | [b₀, b₁] =>
      let n := b64Bits b₀ b₁ 0
      [b64Digit n 18, b64Digit n 12, b64Digit n 6, 61]
  | b₀ :: b₁ :: b₂ :: rest =>
      let n := b64Bits b₀ b₁ b₂
      [b64Digit n 18, b64Digit n 12, b64Digit n 6, b64Digit n 0] ++ b64Chunks rest

/-- Standard base64 with padding, into a buffer of `outLen` bytes. -/
def base64Encode (input : List UInt8) (outLen : ℕ) : Except UpgradeError (List UInt8) :=
  let needed := (input.length + 2) / 3 * 4
  if outLen < needed then .error .shortBuffer else .ok (b64Chunks input)

/-- `Writer::bytes`, for a buffer of `outLen` bytes of which `w` are written. -/
def putBytes (outLen : ℕ) (w b : List UInt8) : Except UpgradeError (List UInt8) :=
  if outLen < w.length + b.length then .error .shortBuffer else .ok (w ++ b)

/-- `Writer::str`. -/
def putStr (outLen : ℕ) (w : List UInt8) (s : String) : Except UpgradeError (List UInt8) :=
  putBytes outLen w s.toUTF8.toList

/-- Writes the upgrade request into a buffer of `outLen` bytes. -/
def buildRequest (host : String) (initiation : List UInt8) (outLen : ℕ) :
    Except UpgradeError (List UInt8) := do
  let b64 ← base64Encode initiation 200
  let w ← putStr outLen [] "POST "
  let w ← putStr outLen w upgradePath
  let w ← putStr outLen w " HTTP/1.1\r\nHost: "
  let w ← putStr outLen w host
  let w ← putStr outLen w "\r\nUpgrade: "
  let w ← putStr outLen w upgradeHeaderValue
  let w ← putStr outLen w "\r\nConnection: upgrade\r\n"
  let w ← putStr outLen w handshakeHeaderName
  let w ← putStr outLen w ": "
  let w ← putBytes outLen w b64
  putStr outLen w "\r\nContent-Length: 0\r\n\r\n"

/-! ### The response -/

/-- `\r\n\r\n`. -/
def blankLine : List UInt8 := [13, 10, 13, 10]

/-- Where the first window that equals `w` starts. -/
def findWindow (w : List UInt8) : List UInt8 → Option ℕ
  | [] => none
  | b :: bs => if (b :: bs).take w.length = w then some 0 else (findWindow w bs).map (· + 1)

/-- Where the body starts. -/
def findHeadersEnd (buf : List UInt8) : Option ℕ := (findWindow blankLine buf).map (· + 4)

/-- Checks for `101` and locates the end of the headers. -/
def parseResponse (buf : List UInt8) : Except UpgradeError ℕ :=
  match findHeadersEnd buf with
  | none => .error .incomplete
  | some headersEnd =>
      match buf.findIdx? (· == 13) with
      | none => .error .malformed
      | some lineEnd =>
          let status := buf.take lineEnd
          match status.findIdx? (· == 32) with
          | none => .error .malformed
          | some space =>
              let codeStart := space + 1
              if status.length < codeStart + 3 then .error .malformed
              else if slice status codeStart (codeStart + 3) ≠ "101".toUTF8.toList then
                .error .notSwitching
              else .ok headersEnd

/-! ### More bytes -/

theorem findWindow_le {w buf : List UInt8} {i : ℕ} (h : findWindow w buf = some i) :
    i + w.length ≤ buf.length := by
  induction buf generalizing i with
  | nil => cases h
  | cons b bs ih =>
    rw [findWindow] at h
    split_ifs at h with hw
    · cases h
      have hlen := congrArg List.length hw
      rw [List.length_take] at hlen
      omega
    · obtain ⟨j, hj, rfl⟩ := Option.map_eq_some_iff.mp h
      have hle := ih hj
      rw [List.length_cons]
      omega

theorem slice_findWindow {w buf : List UInt8} {i : ℕ} (h : findWindow w buf = some i) :
    (buf.drop i).take w.length = w := by
  induction buf generalizing i with
  | nil => cases h
  | cons b bs ih =>
    rw [findWindow] at h
    split_ifs at h with hw
    · cases h
      exact hw
    · obtain ⟨j, hj, rfl⟩ := Option.map_eq_some_iff.mp h
      exact ih hj

/-- A window found stays the first. -/
theorem findWindow_append {w buf : List UInt8} {i : ℕ} (h : findWindow w buf = some i)
    (more : List UInt8) : findWindow w (buf ++ more) = some i := by
  induction buf generalizing i with
  | nil => cases h
  | cons b bs ih =>
    have hle := findWindow_le h
    -- the window fits in front of what is added, and so does each one before it
    have htake : (b :: (bs ++ more)).take w.length = (b :: bs).take w.length := by
      rw [← List.cons_append, List.take_append_of_le_length (by omega)]
    rw [List.cons_append, findWindow, htake]
    rw [findWindow] at h
    split_ifs at h ⊢ with hw
    · exact h
    · obtain ⟨j, hj, rfl⟩ := Option.map_eq_some_iff.mp h
      rw [ih hj]
      rfl

theorem findIdx?_isSome_of_headersEnd {buf : List UInt8} {i : ℕ}
    (h : findWindow blankLine buf = some i) : ∃ j, buf.findIdx? (· == 13) = some j := by
  have hmem : (13 : UInt8) ∈ buf := by
    have hw := slice_findWindow h
    apply List.mem_of_mem_drop
    apply List.mem_of_mem_take
    rw [hw]
    decide
  rw [← Option.isSome_iff_exists, List.findIdx?_isSome, List.any_eq_true]
  exact ⟨13, hmem, rfl⟩

/-- **More bytes change no answer.** -/
theorem parseResponse_append {buf : List UInt8} (h : parseResponse buf ≠ .error .incomplete)
    (more : List UInt8) : parseResponse (buf ++ more) = parseResponse buf := by
  unfold parseResponse findHeadersEnd at h ⊢
  rcases hw : findWindow blankLine buf with - | i
  · rw [hw] at h
    exact absurd rfl h
  · obtain ⟨j, hj⟩ := findIdx?_isSome_of_headersEnd hw
    have hj' : (buf ++ more).findIdx? (· == 13) = some j := by
      rw [List.findIdx?_append, hj]
      rfl
    have hlt : j ≤ buf.length := by
      have := (List.findIdx?_eq_some_iff_getElem.mp hj).1
      omega
    simp only [findWindow_append hw more, Option.map_some, hj, hj',
      List.take_append_of_le_length hlt]

/-- A window is found in every front that holds it. -/
theorem findWindow_take {w buf : List UInt8} {i n : ℕ} (hw : 0 < w.length)
    (h : findWindow w buf = some i) (hn : i + w.length ≤ n) :
    findWindow w (buf.take n) = some i := by
  induction buf generalizing i n with
  | nil => cases h
  | cons b bs ih =>
    cases n with
    | zero => omega
    | succ n =>
      have htake : (b :: bs.take n).take w.length = (b :: bs).take w.length := by
        rw [← List.take_succ_cons, List.take_take, Nat.min_eq_left (by omega)]
      rw [List.take_succ_cons, findWindow, htake]
      rw [findWindow] at h
      split_ifs at h ⊢
      · exact h
      · obtain ⟨j, hj, rfl⟩ := Option.map_eq_some_iff.mp h
        rw [ih hj (by omega)]
        rfl

/-- With a blank line the answer is final, and an accepted one is its end. -/
theorem parseResponse_found {buf : List UInt8} {i : ℕ} (h : findWindow blankLine buf = some i) :
    parseResponse buf ≠ .error .incomplete ∧ ∀ n, parseResponse buf = .ok n → n = i + 4 := by
  obtain ⟨j, hj⟩ := findIdx?_isSome_of_headersEnd h
  unfold parseResponse findHeadersEnd
  simp only [h, Option.map_some, hj]
  split
  · exact ⟨nofun, nofun⟩
  · split_ifs
    · exact ⟨nofun, nofun⟩
    · exact ⟨nofun, nofun⟩
    · exact ⟨nofun, fun n hn => (Except.ok.inj hn).symm⟩

theorem exists_findWindow {buf : List UInt8} (h : parseResponse buf ≠ .error .incomplete) :
    ∃ i, findWindow blankLine buf = some i := by
  rcases hw : findWindow blankLine buf with - | i
  · unfold parseResponse findHeadersEnd at h
    rw [hw] at h
    exact absurd rfl h
  · exact ⟨i, rfl⟩

/-- The headers end inside what was parsed. -/
theorem parseResponse_le {buf : List UInt8} {n : ℕ} (h : parseResponse buf = .ok n) :
    n ≤ buf.length := by
  obtain ⟨i, hi⟩ := exists_findWindow (show parseResponse buf ≠ _ by rw [h]; exact nofun)
  rw [(parseResponse_found hi).2 n h]
  exact findWindow_le hi

/-- Headers that end where they say are not complete before. -/
theorem parseResponse_front {headers front back rest : List UInt8}
    (h : parseResponse headers = .ok headers.length) (hbytes : front ++ back = headers ++ rest) :
    parseResponse front =
      if headers.length ≤ front.length then .ok headers.length else .error .incomplete := by
  have hall : parseResponse (front ++ back) = .ok headers.length := by
    rw [hbytes, parseResponse_append (by rw [h]; exact nofun), h]
  by_cases hinc : parseResponse front = .error .incomplete
  · have hlt : ¬ headers.length ≤ front.length := by
      intro hle
      obtain ⟨more, rfl⟩ : ∃ more, front = headers ++ more := by
        refine ⟨front.drop headers.length, ?_⟩
        have htake := congrArg (List.take headers.length) hbytes
        rw [List.take_append_of_le_length hle, List.take_left] at htake
        conv_lhs => rw [← List.take_append_drop headers.length front, htake]
      rw [parseResponse_append (by rw [h]; exact nofun), h] at hinc
      cases hinc
    rw [if_neg hlt, hinc]
  · rw [parseResponse_append hinc] at hall
    rw [if_pos (parseResponse_le hall), hall]

/-- Whatever holds the headers gives the answer. -/
theorem parseResponse_take {buf : List UInt8} {m n : ℕ} (h : parseResponse buf = .ok m)
    (hm : m ≤ n) : parseResponse (buf.take n) = .ok m := by
  obtain ⟨i, hi⟩ := exists_findWindow (show parseResponse buf ≠ _ by rw [h]; exact nofun)
  have him := (parseResponse_found hi).2 m h
  have hlen : i + blankLine.length ≤ n := by
    show i + 4 ≤ n
    omega
  have hfound := parseResponse_found (findWindow_take (by decide) hi hlen)
  rw [← h, ← List.take_append_drop n buf, parseResponse_append hfound.1, List.take_append_drop]

end Lando.Upgrade
