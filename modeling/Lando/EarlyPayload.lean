/-
Lando/EarlyPayload.lean

The early payload (`control.rs`, `parse_early_payload`) and the host's way past
it (`transport.rs`, `skip_early_payload`).

After the Noise handshake the server may send one block

    ff ff ff 'T' 'S' | length u32, big-endian | JSON

in front of the HTTP/2 stream.  The probe looks at whatever has been decrypted
so far and may be asked again with more; the host pumps one record after
another until it answers.

A verdict never changes as bytes arrive (`parseEarlyPayload_append`), and an
open verdict means that a payload may still be under way
(`exists_completion`).  So what the probe consumes is a function of the
plaintext stream alone (`plaintext`): of what is buffered and of all that the
pumps will deliver, however it is cut into records.
-/
import Lando.HostTransport

namespace Lando.Control

open Bytes

/-! ### The probe -/

/-- Marks the optional block before the HTTP/2 stream. -/
def earlyPayloadMagic : List UInt8 := [0xff, 0xff, 0xff, 0x54, 0x53]

/-- Result of looking for an early payload at the head of the stream. -/
inductive EarlyPayload
  /-- No early payload; HTTP/2 starts at byte zero. -/
  | absent
  /-- Not enough bytes yet to decide. -/
  | incomplete
  /-- A complete payload, to be skipped. -/
  | present (consumed : ℕ) (json : List UInt8)
  deriving DecidableEq

/-- `parse_early_payload`, where a `usize` has 64 bits: `start + len` does not
overflow. -/
def parseEarlyPayload (buf : List UInt8) : EarlyPayload :=
  let magic := earlyPayloadMagic
  let common := min buf.length magic.length
  if buf.take common ≠ magic.take common then .absent
  else if buf.length < magic.length + 4 then .incomplete
  else
    let len := fromBE (slice buf magic.length (magic.length + 4))
    let start := magic.length + 4
    if buf.length < start + len then .incomplete
    else .present (start + len) (slice buf start (start + len))

/-! ### What the probe means -/

/-- A complete early payload on the wire. -/
def earlyPayload (json : List UInt8) : List UInt8 :=
  earlyPayloadMagic ++ (toBE 4 json.length ++ json)

theorem length_earlyPayloadMagic : earlyPayloadMagic.length = 5 := rfl

theorem length_earlyPayload (json : List UInt8) : (earlyPayload json).length = 9 + json.length := by
  simp only [earlyPayload, List.length_append, length_toBE, length_earlyPayloadMagic]
  omega

theorem magic_prefix_earlyPayload (json : List UInt8) :
    earlyPayloadMagic <+: earlyPayload json := List.prefix_append _ _

/-- Two strings agree as far as both go exactly when one starts the other. -/
theorem take_min_eq_iff {a b : List UInt8} :
    a.take (min a.length b.length) = b.take (min a.length b.length) ↔ a <+: b ∨ b <+: a := by
  rcases Nat.le_total a.length b.length with h | h
  · rw [Nat.min_eq_left h, List.take_length]
    constructor
    · intro he
      exact .inl (he ▸ List.take_prefix _ _)
    · rintro (hp | hp)
      · exact List.prefix_iff_eq_take.mp hp
      · rw [hp.eq_of_length_le h, List.take_length]
  · rw [Nat.min_eq_right h, List.take_length]
    constructor
    · intro he
      exact .inr (he ▸ List.take_prefix _ _)
    · rintro (hp | hp)
      · rw [hp.eq_of_length_le h, List.take_length]
      · exact (List.prefix_iff_eq_take.mp hp).symm

/-- The length field of a buffer that has one. -/
theorem earlyPayload_prefix_iff {json buf : List UInt8} (hjson : json.length < 2 ^ 32) :
    earlyPayload json <+: buf ↔
      ∃ field rest, buf = earlyPayloadMagic ++ (field ++ (json ++ rest)) ∧
        field.length = 4 ∧ fromBE field = json.length := by
  constructor
  · rintro ⟨rest, rfl⟩
    refine ⟨toBE 4 json.length, rest, ?_, length_toBE 4 _, fromBE_toBE hjson⟩
    simp only [earlyPayload, List.append_assoc]
  · rintro ⟨field, rest, rfl, hlen, hfield⟩
    refine ⟨rest, ?_⟩
    rw [earlyPayload, ← hfield, ← hlen, toBE_fromBE]
    simp only [List.append_assoc]

/-- No early payload starts another one. -/
theorem earlyPayload_prefix_free {j k : List UInt8} (hj : j.length < 2 ^ 32)
    (hk : k.length < 2 ^ 32) (h : earlyPayload j <+: earlyPayload k) : j = k := by
  have hbody : toBE 4 j.length ++ j <+: toBE 4 k.length ++ k :=
    (List.prefix_append_right_inj earlyPayloadMagic).mp h
  have hfield : toBE 4 j.length = toBE 4 k.length := by
    have hp := (List.prefix_append (toBE 4 j.length) j).trans hbody
    have hq := List.prefix_append (toBE 4 k.length) k
    refine (List.prefix_of_prefix_length_le hp hq ?_).eq_of_length ?_
    · rw [length_toBE, length_toBE]
    · rw [length_toBE, length_toBE]
  have hlen : j.length = k.length := by
    rw [← fromBE_toBE (n := 4) hj, hfield, fromBE_toBE hk]
  rw [hfield] at hbody
  exact ((List.prefix_append_right_inj _).mp hbody).eq_of_length hlen

/-- A buffer of nine bytes is long enough for the magic to stand in front. -/
theorem magic_prefix_of_le {buf : List UInt8}
    (h : buf <+: earlyPayloadMagic ∨ earlyPayloadMagic <+: buf) (hlong : 9 ≤ buf.length) :
    earlyPayloadMagic <+: buf := by
  rcases h with hp | hp
  · have hle : buf.length ≤ 5 := hp.length_le
    omega
  · exact hp

/-- What the probe can find: the buffer and the magic part ways, the length
field is not complete, or it is and decides. -/
theorem parseEarlyPayload_cases (buf : List UInt8) :
    (¬ (buf <+: earlyPayloadMagic ∨ earlyPayloadMagic <+: buf) ∧
      parseEarlyPayload buf = .absent) ∨
    ((buf <+: earlyPayloadMagic ∨ earlyPayloadMagic <+: buf) ∧ buf.length < 9 ∧
      parseEarlyPayload buf = .incomplete) ∨
    ∃ field body, buf = earlyPayloadMagic ++ (field ++ body) ∧ field.length = 4 ∧
      parseEarlyPayload buf =
        if body.length < fromBE field then .incomplete
        else .present (9 + fromBE field) (body.take (fromBE field)) := by
  unfold parseEarlyPayload
  simp only
  by_cases hmagic : buf <+: earlyPayloadMagic ∨ earlyPayloadMagic <+: buf
  · rw [if_neg (not_not.mpr (take_min_eq_iff.mpr hmagic))]
    by_cases hshort : buf.length < earlyPayloadMagic.length + 4
    · rw [if_pos hshort]
      exact .inr (.inl ⟨hmagic, hshort, rfl⟩)
    · rw [if_neg hshort]
      have h9 : 9 ≤ buf.length := Nat.not_lt.mp hshort
      obtain ⟨b, rfl⟩ := magic_prefix_of_le hmagic h9
      have hb : 4 ≤ b.length := by
        rw [List.length_append, length_earlyPayloadMagic] at h9
        omega
      have hfield : (b.take 4).length = 4 := by rw [List.length_take, Nat.min_eq_left hb]
      obtain ⟨field, body, rfl, hfour⟩ : ∃ field body, b = field ++ body ∧ field.length = 4 :=
        ⟨b.take 4, b.drop 4, (List.take_append_drop 4 b).symm, hfield⟩
      refine .inr (.inr ⟨field, body, rfl, hfour, ?_⟩)
      have hslice : slice (earlyPayloadMagic ++ (field ++ body)) earlyPayloadMagic.length
          (earlyPayloadMagic.length + 4) = field := slice_append_mid rfl (by rw [hfour])
      have hjson : slice (earlyPayloadMagic ++ (field ++ body)) (earlyPayloadMagic.length + 4)
          (earlyPayloadMagic.length + 4 + fromBE field) = body.take (fromBE field) := by
        have hfront : (earlyPayloadMagic ++ field).length = earlyPayloadMagic.length + 4 := by
          rw [List.length_append, hfour]
        rw [slice, Nat.add_sub_cancel_left, ← List.append_assoc, List.drop_left' hfront]
      have hlen : (earlyPayloadMagic ++ (field ++ body)).length = 9 + body.length := by
        rw [List.length_append, List.length_append, hfour, length_earlyPayloadMagic]
        omega
      rw [hslice, hjson, hlen]
      show (if 9 + body.length < 9 + fromBE field then _ else _) = _
      simp only [Nat.add_lt_add_iff_left]
      rfl
  · rw [if_pos (mt take_min_eq_iff.mp hmagic)]
    exact .inl ⟨hmagic, rfl⟩

/-- The probe answers "absent" when the buffer and the magic part ways. -/
theorem parseEarlyPayload_absent_iff {buf : List UInt8} :
    parseEarlyPayload buf = .absent ↔
      ¬ (buf <+: earlyPayloadMagic ∨ earlyPayloadMagic <+: buf) := by
  rcases parseEarlyPayload_cases buf with ⟨hne, he⟩ | ⟨hp, -, he⟩ | ⟨field, body, rfl, -, he⟩
  · exact iff_of_true he hne
  · refine iff_of_false ?_ (not_not.mpr hp)
    rw [he]
    rintro ⟨⟩
  · refine iff_of_false ?_ (not_not.mpr (.inr (List.prefix_append _ _)))
    rw [he]
    split_ifs <;> rintro ⟨⟩

/-- It answers "present" when the buffer starts with a payload. -/
theorem parseEarlyPayload_present_iff {buf json : List UInt8} {n : ℕ} :
    parseEarlyPayload buf = .present n json ↔
      n = 9 + json.length ∧ json.length < 2 ^ 32 ∧ earlyPayload json <+: buf := by
  constructor
  · intro h
    rcases parseEarlyPayload_cases buf with ⟨-, he⟩ | ⟨-, -, he⟩ | ⟨field, body, rfl, hfour, he⟩
    · rw [he] at h
      cases h
    · rw [he] at h
      cases h
    · rw [he] at h
      split_ifs at h with hshort
      obtain ⟨rfl, rfl⟩ := EarlyPayload.present.inj h
      have hlen : (body.take (fromBE field)).length = fromBE field := by
        rw [List.length_take, Nat.min_eq_left (Nat.not_lt.mp hshort)]
      have hlt : (body.take (fromBE field)).length < 2 ^ 32 := by
        rw [hlen]
        have := fromBE_lt field
        rwa [hfour] at this
      refine ⟨by rw [hlen], hlt, (earlyPayload_prefix_iff hlt).mpr ?_⟩
      exact ⟨field, body.drop (fromBE field), by rw [List.take_append_drop], hfour, hlen.symm⟩
  · rintro ⟨rfl, hlen, hp⟩
    rcases parseEarlyPayload_cases buf with ⟨hne, -⟩ | ⟨-, hshort, -⟩ | ⟨field, body, rfl, hfour, he⟩
    · exact absurd (.inr ((magic_prefix_earlyPayload json).trans hp)) hne
    · have hle := hp.length_le
      rw [length_earlyPayload] at hle
      omega
    · obtain ⟨field', rest, hbuf, hfour', hfield⟩ := (earlyPayload_prefix_iff hlen).mp hp
      obtain ⟨rfl, rfl⟩ := List.append_inj (List.append_cancel_left hbuf) (hfour.trans hfour'.symm)
      rw [he, hfield, if_neg (by rw [List.length_append]; omega), List.take_left]

/-- A length field and too short a body are the start of a payload. -/
theorem exists_completion {field body : List UInt8} (hfour : field.length = 4)
    (h : body.length ≤ fromBE field) :
    ∃ json, json.length < 2 ^ 32 ∧ json.length = fromBE field ∧
      earlyPayloadMagic ++ (field ++ body) <+: earlyPayload json := by
  have hlen : (body ++ List.replicate (fromBE field - body.length) 0).length = fromBE field := by
    rw [List.length_append, List.length_replicate]
    omega
  have hlt := fromBE_lt field
  rw [hfour] at hlt
  refine ⟨body ++ List.replicate (fromBE field - body.length) 0, by rw [hlen]; exact hlt, hlen, ?_⟩
  refine ⟨List.replicate (fromBE field - body.length) 0, ?_⟩
  rw [earlyPayload, hlen, ← hfour, toBE_fromBE]
  simp only [List.append_assoc]

/-- It stays open when the buffer is the start of a payload. -/
theorem parseEarlyPayload_incomplete_iff {buf : List UInt8} :
    parseEarlyPayload buf = .incomplete ↔
      ∃ json, json.length < 2 ^ 32 ∧ buf <+: earlyPayload json ∧ buf ≠ earlyPayload json := by
  constructor
  · intro h
    rcases parseEarlyPayload_cases buf with ⟨-, he⟩ | ⟨hp, hshort, -⟩ | ⟨field, body, rfl, hfour, he⟩
    · rw [he] at h
      cases h
    · -- fill the length field up with zeros
      obtain ⟨field, hfour, hfield⟩ : ∃ field : List UInt8, field.length = 4 ∧
          buf <+: earlyPayloadMagic ++ (field ++ []) := by
        rcases hp with hp | ⟨b, rfl⟩
        · exact ⟨List.replicate 4 0, rfl, hp.trans (List.prefix_append _ _)⟩
        · refine ⟨b ++ List.replicate (4 - b.length) 0, ?_, ?_⟩
          · rw [List.length_append, length_earlyPayloadMagic] at hshort
            rw [List.length_append, List.length_replicate]
            omega
          · rw [List.append_nil, ← List.append_assoc]
            exact List.prefix_append _ _
      obtain ⟨json, hlt, -, hjson⟩ :=
        exists_completion hfour (show ([] : List UInt8).length ≤ _ from Nat.zero_le _)
      refine ⟨json, hlt, hfield.trans hjson, ?_⟩
      rintro rfl
      rw [length_earlyPayload] at hshort
      omega
    · rw [he] at h
      split_ifs at h with hshort
      -- the length field stands, and the body is filled up
      obtain ⟨json, hlt, hjson, hp⟩ := exists_completion hfour (Nat.le_of_lt hshort)
      refine ⟨json, hlt, hp, ?_⟩
      intro heq
      have hlen := congrArg List.length heq
      rw [length_earlyPayload, List.length_append, List.length_append, hfour, hjson,
        length_earlyPayloadMagic] at hlen
      omega
  · rintro ⟨json, hlen, hp, hne⟩
    rcases hv : parseEarlyPayload buf with - | - | ⟨n, json'⟩
    · refine absurd ?_ (parseEarlyPayload_absent_iff.mp hv)
      exact List.prefix_or_prefix_of_prefix hp (magic_prefix_earlyPayload json)
    · rfl
    · obtain ⟨-, hlen', hp'⟩ := parseEarlyPayload_present_iff.mp hv
      obtain rfl := earlyPayload_prefix_free hlen' hlen (hp'.trans hp)
      exact absurd (hp.eq_of_length_le hp'.length_le) hne

/-- **A verdict is final**: what comes behind the bytes it was made on does not
change it. -/
theorem parseEarlyPayload_append {buf : List UInt8} (more : List UInt8)
    (h : parseEarlyPayload buf ≠ .incomplete) :
    parseEarlyPayload (buf ++ more) = parseEarlyPayload buf := by
  rcases hv : parseEarlyPayload buf with - | - | ⟨n, json⟩
  · rw [parseEarlyPayload_absent_iff] at hv ⊢
    rintro (hp | hp)
    · exact hv (.inl ((List.prefix_append _ _).trans hp))
    · exact hv (List.prefix_or_prefix_of_prefix (List.prefix_append _ _) hp)
  · exact absurd hv h
  · rw [parseEarlyPayload_present_iff] at hv ⊢
    exact ⟨hv.1, hv.2.1, hv.2.2.trans (List.prefix_append _ _)⟩

end Lando.Control

namespace Lando.Host.NoiseTransport

open Bytes Noise Socket Control

variable {A : Aead}

/-! ### The host's loop -/

/-- The loop of `skip_early_payload`.  Every turn but the last pumps a record
of three bytes at least. -/
def skipLoop (A : Aead) : ℕ → NoiseTransport → Except Error NoiseTransport
  | 0, _ => .error .reading
  | k + 1, t =>
      match parseEarlyPayload t.buffered with
      | .absent => .ok t
      | .present consumed _ => .ok (t.consume consumed)
      | .incomplete =>
          match t.pump A with
          | .error e => .error e
          | .ok t => skipLoop A k t

/-- Consumes the optional early payload, so that the HTTP/2 parser starts on a
frame boundary. -/
def skipEarlyPayload (A : Aead) (t : NoiseTransport) : Except Error NoiseTransport :=
  skipLoop A (t.stream.flatten.length + 1) t

/-! ### The plaintext stream -/

/-- The texts of the records that pumps deliver, up to the first that fails. -/
def recordTexts (A : Aead) : ℕ → List (List UInt8) → Noise.Session → List (List UInt8)
  | 0, _, _ => []
  | k + 1, stream, session =>
      match pump A ⟨stream, session, [], 0⟩ with
      | .error _ => []
      | .ok t => t.rx :: recordTexts A k t.stream t.session

/-- Everything the parser will be given: what is buffered, and what the pumps
will add to it. -/
def plaintext (A : Aead) (t : NoiseTransport) : List UInt8 :=
  t.buffered ++ (recordTexts A t.stream.flatten.length t.stream t.session).flatten

/-- A pump fails whatever is buffered, or adds one text to it and shortens the
stream. -/
theorem pump_cases (A : Aead) (stream : List (List UInt8)) (session : Noise.Session) :
    (∃ e, ∀ rx pos, pump A ⟨stream, session, rx, pos⟩ = .error e) ∨
    ∃ stream' session' text, stream'.flatten.length < stream.flatten.length ∧
      ∀ rx pos, pump A ⟨stream, session, rx, pos⟩ = .ok ⟨stream', session', rx ++ text, pos⟩ := by
  unfold pump
  simp only
  rcases hhead : readExact headerLen stream with - | ⟨header, stream₁⟩
  · exact .inl ⟨_, fun _ _ => rfl⟩
  simp only
  by_cases hcap : maxCiphertextSize < (parseHeader header).2
  · exact .inl ⟨_, fun _ _ => if_pos hcap⟩
  simp only [if_neg hcap]
  rcases hbody : readExact (parseHeader header).2 stream₁ with - | ⟨body, stream₂⟩
  · exact .inl ⟨_, fun _ _ => rfl⟩
  simp only
  by_cases hrecord : (parseHeader header).1 = msgTypeRecord
  · simp only [if_pos hrecord]
    rcases session.readRecord A body with e | ⟨session', text⟩
    · exact .inl ⟨_, fun _ _ => rfl⟩
    · refine .inr ⟨stream₂, session', text, ?_, fun _ _ => rfl⟩
      have hlen := length_readExact hhead
      rw [← readExact_flatten hhead, ← readExact_flatten hbody]
      simp only [List.length_append, hlen, headerLen]
      omega
  · simp only [if_neg hrecord]
    by_cases herror : (parseHeader header).1 = msgTypeError
    · exact .inl ⟨_, fun _ _ => if_pos herror⟩
    · exact .inl ⟨_, fun _ _ => if_neg herror⟩

/-- Fuel beyond the length of the stream does not matter. -/
theorem recordTexts_fuel {j k : ℕ} {stream : List (List UInt8)} {session : Noise.Session}
    (hj : stream.flatten.length ≤ j) (hk : stream.flatten.length ≤ k) :
    recordTexts A j stream session = recordTexts A k stream session := by
  induction j generalizing k stream session with
  | zero =>
    cases k with
    | zero => rfl
    | succ k =>
      rcases pump_cases A stream session with ⟨e, he⟩ | ⟨stream', session', text, hlt, -⟩
      · simp only [recordTexts, he]
      · omega
  | succ j ih =>
    rcases pump_cases A stream session with ⟨e, he⟩ | ⟨stream', session', text, hlt, he⟩
    · cases k with
      | zero => simp only [recordTexts, he]
      | succ k => simp only [recordTexts, he]
    · cases k with
      | zero => omega
      | succ k =>
        simp only [recordTexts, he]
        rw [ih (k := k) (by omega) (by omega)]

theorem pump_shortens {t t' : NoiseTransport} (h : t.pump A = .ok t') :
    t'.stream.flatten.length < t.stream.flatten.length := by
  rcases pump_cases A t.stream t.session with ⟨e, he⟩ | ⟨stream', session', text, hlt, he⟩
  · cases h.symm.trans (he t.rx t.rxPos)
  · obtain rfl := Except.ok.inj (h.symm.trans (he t.rx t.rxPos))
    exact hlt

/-- When a pump fails, the buffer holds all there will be. -/
theorem plaintext_of_pump_error {t : NoiseTransport} {e : Error} (h : t.pump A = .error e) :
    t.plaintext A = t.buffered := by
  have hnil : recordTexts A t.stream.flatten.length t.stream t.session = [] := by
    rcases pump_cases A t.stream t.session with ⟨e, he⟩ | ⟨stream', session', text, -, he⟩
    · cases t.stream.flatten.length with
      | zero => rfl
      | succ k => simp only [recordTexts, he]
    · cases h.symm.trans (he t.rx t.rxPos)
  rw [plaintext, hnil, List.flatten_nil, List.append_nil]

/-- A pump moves text from the stream to the buffer and changes nothing
else. -/
theorem plaintext_of_pump_ok {t t' : NoiseTransport} (ht : t.rxPos ≤ t.rx.length)
    (h : t.pump A = .ok t') :
    t'.rxPos ≤ t'.rx.length ∧ t'.plaintext A = t.plaintext A := by
  rcases pump_cases A t.stream t.session with ⟨e, he⟩ | ⟨stream', session', text, hlt, he⟩
  · cases h.symm.trans (he t.rx t.rxPos)
  · obtain rfl := Except.ok.inj (h.symm.trans (he t.rx t.rxPos))
    have hbuf : (t.rx ++ text).drop t.rxPos = t.buffered ++ text :=
      List.drop_append_of_le_length ht
    refine ⟨?_, ?_⟩
    · rw [List.length_append]
      exact Nat.le_add_right_of_le ht
    · obtain ⟨k, hk⟩ : ∃ k, t.stream.flatten.length = k + 1 := ⟨_, (Nat.succ_pred (by omega)).symm⟩
      have hmore : recordTexts A (k + 1) t.stream t.session =
          text :: recordTexts A k stream' session' := by
        simp only [recordTexts, he, List.nil_append]
      have hfuel : recordTexts A stream'.flatten.length stream' session' =
          recordTexts A k stream' session' := recordTexts_fuel (Nat.le_refl _) (by omega)
      show (t.rx ++ text).drop t.rxPos ++
        (recordTexts A stream'.flatten.length stream' session').flatten = t.plaintext A
      rw [hbuf, plaintext, hk, hmore, hfuel, List.flatten_cons, List.append_assoc]

theorem plaintext_consume {t : NoiseTransport} {n : ℕ} (h : n ≤ t.buffered.length) :
    (t.consume n).plaintext A = (t.plaintext A).drop n := by
  have hbuf : (t.consume n).buffered = t.buffered.drop n := by
    unfold consume buffered
    rw [List.drop_drop]
    simp only
    split_ifs with hend hfar
    · simp only [hend, List.drop_length, List.drop_nil]
    · rfl
    · rfl
  have hrest : (t.consume n).stream = t.stream ∧ (t.consume n).session = t.session := by
    unfold consume
    simp only
    split_ifs <;> exact ⟨rfl, rfl⟩
  rw [plaintext, plaintext, hbuf, hrest.1, hrest.2, List.drop_append_of_le_length h]

/-! ### What is skipped -/

theorem skipLoop_fuel {j k : ℕ} {t : NoiseTransport} (hj : t.stream.flatten.length < j)
    (hk : t.stream.flatten.length < k) : skipLoop A j t = skipLoop A k t := by
  induction j generalizing k t with
  | zero => omega
  | succ j ih =>
    obtain ⟨k, rfl⟩ : ∃ k', k = k' + 1 := ⟨k - 1, by omega⟩
    simp only [skipLoop]
    rcases hpump : t.pump A with e | t'
    · rfl
    · have hlt := pump_shortens hpump
      simp only [ih (k := k) (t := t') (by omega) (by omega)]

/-- The loop as the source has it: the fuel never runs out. -/
theorem skipEarlyPayload_eq (A : Aead) (t : NoiseTransport) :
    t.skipEarlyPayload A =
      match parseEarlyPayload t.buffered with
      | .absent => .ok t
      | .present consumed _ => .ok (t.consume consumed)
      | .incomplete => t.pump A >>= skipEarlyPayload A := by
  rw [skipEarlyPayload, skipLoop]
  rcases parseEarlyPayload t.buffered with - | - | ⟨n, json⟩
  · rfl
  · rcases hpump : t.pump A with e | t'
    · rfl
    · exact skipLoop_fuel (pump_shortens hpump) (Nat.lt_succ_self _)
  · rfl

/-- The loop decides by the plaintext stream, however it is cut into
records. -/
theorem skipLoop_spec {k : ℕ} {t : NoiseTransport} (ht : t.rxPos ≤ t.rx.length)
    (hk : t.stream.flatten.length < k) :
    match parseEarlyPayload (t.plaintext A) with
    | .absent => ∃ t', skipLoop A k t = .ok t' ∧ t'.plaintext A = t.plaintext A
    | .present n _ => ∃ t', skipLoop A k t = .ok t' ∧ t'.plaintext A = (t.plaintext A).drop n
    | .incomplete => ∃ e, skipLoop A k t = .error e := by
  induction k generalizing t with
  | zero => omega
  | succ k ih =>
    rw [skipLoop]
    have hfinal : parseEarlyPayload t.buffered ≠ .incomplete →
        parseEarlyPayload (t.plaintext A) = parseEarlyPayload t.buffered :=
      fun h => parseEarlyPayload_append _ h
    rcases hv : parseEarlyPayload t.buffered with - | - | ⟨n, json⟩
    · rw [hfinal (by rw [hv]; rintro ⟨⟩), hv]
      exact ⟨t, rfl, rfl⟩
    · simp only
      rcases hpump : t.pump A with e | t'
      · rw [plaintext_of_pump_error hpump, hv]
        exact ⟨e, rfl⟩
      · have hlt := pump_shortens hpump
        obtain ⟨ht', hplain⟩ := plaintext_of_pump_ok ht hpump
        rw [← hplain]
        exact ih ht' (by omega)
    · rw [hfinal (by rw [hv]; rintro ⟨⟩), hv]
      refine ⟨t.consume n, rfl, plaintext_consume ?_⟩
      obtain ⟨rfl, -, hp⟩ := parseEarlyPayload_present_iff.mp hv
      rw [← length_earlyPayload]
      exact hp.length_le

/-- **The early payload is skipped by the plaintext alone.**  A stream that
starts with the magic and a length loses these nine bytes and as many more as
the length says; one that parts from the magic loses none; one that ends inside
a payload is an error of the pump that finds no more.  Nothing depends on the
records.  The verdicts behind it are final, and open only while a payload may
still be under way. -/
theorem skipEarlyPayload_by_plaintext (A : Aead) (t : NoiseTransport)
    (ht : t.rxPos ≤ t.rx.length) :
    (∀ len rest, len < 2 ^ 32 → len ≤ rest.length →
      t.plaintext A = earlyPayloadMagic ++ (toBE 4 len ++ rest) →
      ∃ t', t.skipEarlyPayload A = .ok t' ∧ t'.plaintext A = (t.plaintext A).drop (9 + len)) ∧
    (¬ (t.plaintext A <+: earlyPayloadMagic ∨ earlyPayloadMagic <+: t.plaintext A) →
      ∃ t', t.skipEarlyPayload A = .ok t' ∧ t'.plaintext A = t.plaintext A) ∧
    (∀ json, json.length < 2 ^ 32 → t.plaintext A <+: earlyPayload json →
      t.plaintext A ≠ earlyPayload json → ∃ e, t.skipEarlyPayload A = .error e) ∧
    (∀ b e, parseEarlyPayload b ≠ .incomplete →
      parseEarlyPayload (b ++ e) = parseEarlyPayload b) ∧
    ∀ b, parseEarlyPayload b = .incomplete →
      ∃ json, json.length < 2 ^ 32 ∧ b <+: earlyPayload json ∧ b ≠ earlyPayload json := by
  have hspec := skipLoop_spec (A := A) ht (Nat.lt_succ_self t.stream.flatten.length)
  refine ⟨?_, ?_, ?_, fun b e h => parseEarlyPayload_append e h,
    fun b h => parseEarlyPayload_incomplete_iff.mp h⟩
  · intro len rest hlen hrest hplain
    have hjson : (rest.take len).length = len := by rw [List.length_take, Nat.min_eq_left hrest]
    have hv : parseEarlyPayload (t.plaintext A) = .present (9 + len) (rest.take len) := by
      refine parseEarlyPayload_present_iff.mpr ⟨by rw [hjson], by rw [hjson]; exact hlen, ?_⟩
      refine ⟨rest.drop len, ?_⟩
      rw [earlyPayload, hjson, hplain]
      simp only [List.append_assoc, List.take_append_drop]
    rw [hv] at hspec
    exact hspec
  · intro hne
    rw [parseEarlyPayload_absent_iff.mpr hne] at hspec
    exact hspec
  · intro json hjson hp hne
    rw [parseEarlyPayload_incomplete_iff.mpr ⟨json, hjson, hp, hne⟩] at hspec
    exact hspec

/-- A stream whose early payload lies in three records, the first of them
already in the buffer. -/
def cutPayload : NoiseTransport where
  stream := [record 0 [0xff, 0xff, 0x54], record 1 [0x53, 0, 0, 0, 1, 0x7b, 0, 0]]
  session := ⟨0, 0, 0, 0, 0⟩
  rx := [0xff]
  rxPos := 0
where
  record (nonce : UInt64) (text : List UInt8) : List UInt8 :=
    match Noise.Session.writeRecord checksumAead ⟨0, 0, nonce, 0, 0⟩ text maxMessageSize with
    | .error _ => []
    | .ok (_, wire) => wire

theorem skipEarlyPayload_by_plaintext_cut :
    ∃ t', cutPayload.skipEarlyPayload checksumAead = .ok t' ∧
      t'.plaintext checksumAead = [0, 0] := by
  have hplain : cutPayload.plaintext checksumAead =
      earlyPayloadMagic ++ (toBE 4 1 ++ [0x7b, 0, 0]) := by decide +kernel
  obtain ⟨t', hok, ht'⟩ := (skipEarlyPayload_by_plaintext checksumAead cutPayload
    (by decide)).1 1 [0x7b, 0, 0] (by decide) (by decide) hplain
  refine ⟨t', hok, ?_⟩
  rw [ht', hplain]
  decide

end Lando.Host.NoiseTransport
