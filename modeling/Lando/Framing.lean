/-
Lando/Framing.lean

Incremental readers of length-prefixed frames.

A frame is a header of fixed length that declares a payload length, followed
by the payload.  A reader is fed whatever bytes have arrived and hands back
at most one item per call: a small *control* frame whole, cut at a limit and
its overflow drained, or a chunk of any other frame's payload as it comes.

`At F r p` says that reader `r` stands exactly behind the bytes `p` of a
frame it has not finished.  Everything else is derived from one lemma about
one call, `feed_spec`: from `At F r p`, a call on `input` either uses it all
and stands at `p ++ input`, or stops at the end of a frame whose bytes are
`p` and what it used, or passes on what it got of a payload, or refuses a
header.  So a reader is determined by its place in the byte stream, and how
the stream was cut into inputs cannot matter (`feedAll_spec`).

Bytes are of any type `β`, headers of any type `η`, errors of any type `ε`.
-/
import Mathlib.Data.List.Basic
import Mathlib.Tactic.SplitIfs

namespace Framing

variable {β η ε : Type}

/-! ### Formats and readers -/

/-- A frame format. -/
structure Format (β η ε : Type) where
  headerLen : ℕ
  headerLen_pos : 0 < headerLen
  /-- Interprets the `headerLen` bytes of a header. -/
  decode : List β → η
  /-- The payload length a header declares. -/
  length : η → ℕ
  /-- The error for a header that is not acceptable. -/
  refuse : η → Option ε
  /-- Frames captured whole. -/
  control : η → Bool
  /-- How much of a control frame is kept. -/
  controlMax : ℕ
  controlMax_pos : 0 < controlMax
  /-- Frames without payload that are handed back as control frames. -/
  emptyControl : η → Bool

/-- What a reader is doing. -/
inductive Phase
  | header
  | buffering
  | streaming
  | draining
  deriving DecidableEq, Repr

/-- The state of a reader: the header bytes collected so far, the header of
the frame being read, its payload bytes still to come, and what is kept of a
control frame. -/
structure Reader (β η : Type) where
  phase : Phase
  header : List β
  current : η
  remaining : ℕ
  control : List β
  deriving DecidableEq

/-- What a call can hand back. -/
inductive Item (β η : Type)
  | control (header : η) (payload : List β)
  | body (header : η) (chunk : List β) (last : Bool)
  deriving DecidableEq

/-- The outcome of a call: the bytes used and at most one item, or an error. -/
abbrev Outcome (β η ε : Type) := Except ε (ℕ × Option (Item β η))

/-- A reader between frames; `h` fills the place of the last header. -/
def Reader.start (h : η) : Reader β η where
  phase := .header
  header := []
  current := h
  remaining := 0
  control := []

/-- The outcome of a call that had used `n` bytes before it went on. -/
def advance (n : ℕ) (res : Reader β η × Outcome β η ε) : Reader β η × Outcome β η ε :=
  (res.1, res.2.map fun o => (n + o.1, o.2))

theorem advance_zero (res : Reader β η × Outcome β η ε) : advance 0 res = res := by
  rcases res with ⟨r, e | ⟨n, item⟩⟩
  · rfl
  · simp [advance, Except.map]

namespace Format

variable (F : Format β η ε)

/-- The overflow of a control frame is dropped. -/
def feedDraining (r : Reader β η) (input : List β) : Reader β η × Outcome β η ε :=
  let take := min r.remaining input.length
  let r := { r with remaining := r.remaining - take }
  if 0 < r.remaining then (r, .ok (take, none))
  else ({ r with phase := .header }, .ok (take, some (.control r.current r.control)))

/-- A control frame is collected up to the limit. -/
def feedBuffering (r : Reader β η) (input : List β) : Reader β η × Outcome β η ε :=
  if input.length = 0 then (r, .ok (0, none))
  else
    let space := F.controlMax - r.control.length
    let take := min (min r.remaining input.length) space
    let r := { r with
      control := r.control ++ input.take take
      remaining := r.remaining - take }
    if r.remaining = 0 then
      ({ r with phase := .header }, .ok (take, some (.control r.current r.control)))
    else if r.control.length = F.controlMax then
      advance take (feedDraining { r with phase := .draining } (input.drop take))
    -- neither the frame nor the space ended, so the input did
    else (r, .ok (take, none))

/-- A payload is passed on as it comes. -/
def feedStreaming (r : Reader β η) (input : List β) : Reader β η × Outcome β η ε :=
  if input.length = 0 then (r, .ok (0, none))
  else
    let take := min r.remaining input.length
    let r := { r with remaining := r.remaining - take }
    let last : Bool := r.remaining = 0
    let r := bif last then { r with phase := .header } else r
    (r, .ok (take, some (.body r.current (input.take take) last)))

/-- A header is completed, and the frame entered. -/
def feedHeader (r : Reader β η) (input : List β) : Reader β η × Outcome β η ε :=
  let need := F.headerLen - r.header.length
  let take := min need input.length
  let header := r.header ++ input.take take
  if header.length < F.headerLen then ({ r with header := header }, .ok (take, none))
  else
    let h := F.decode header
    let r := { r with header := [], current := h }
    match F.refuse h with
    | some e => (r, .error e)
    | none =>
        let r := { r with remaining := F.length h, control := [] }
        if F.length h = 0 then
          let item := if F.emptyControl h then .control h r.control else .body h [] true
          ({ r with phase := .header }, .ok (take, some item))
        else if F.control h then
          advance take (F.feedBuffering { r with phase := .buffering } (input.drop take))
        else
          advance take (feedStreaming { r with phase := .streaming } (input.drop take))

/-- One call: the phases follow each other until the input is used up or an
item is ready. -/
def feed (r : Reader β η) (input : List β) : Reader β η × Outcome β η ε :=
  match r.phase with
  | .header => F.feedHeader r input
  | .buffering => F.feedBuffering r input
  | .draining => feedDraining r input
  | .streaming => feedStreaming r input

/-! ### Frames and places in a stream -/

/-- A header whose frame is handed back in one control item. -/
def whole (h : η) : Bool :=
  if F.length h = 0 then F.emptyControl h else F.control h

/-- The bytes of `p` that were passed on as chunks, for the bytes `p` of an
unfinished frame. -/
def streamed (p : List β) : List β :=
  if F.headerLen ≤ p.length ∧ F.whole (F.decode (p.take F.headerLen)) = false then
    p.drop F.headerLen
  else []

end Format

/-- A frame of the format, as bytes: the payload is as long as the header
says, and the header is acceptable. -/
structure Wire (F : Format β η ε) where
  head : List β
  payload : List β
  head_length : head.length = F.headerLen
  accepted : F.refuse (F.decode head) = none
  payload_length : payload.length = F.length (F.decode head)

namespace Wire

variable {F : Format β η ε}

/-- What the head says. -/
def header (f : Wire F) : η := F.decode f.head

/-- The frame on the wire. -/
def bytes (f : Wire F) : List β := f.head ++ f.payload

theorem ext' {f g : Wire F} (h₁ : f.head = g.head) (h₂ : f.payload = g.payload) : f = g := by
  cases f
  cases g
  simp_all

end Wire

/-- The byte stream of a list of frames. -/
def stream {F : Format β η ε} (fs : List (Wire F)) : List β := (fs.map Wire.bytes).flatten

/-- Inside the frame with header bytes `hd`, after the payload bytes `seen`. -/
structure InFrame (F : Format β η ε) (r : Reader β η) (hd seen : List β) : Prop where
  head_length : hd.length = F.headerLen
  accepted : F.refuse (F.decode hd) = none
  seen_lt : seen.length < F.length (F.decode hd)
  header : r.header = []
  current : r.current = F.decode hd
  remaining : r.remaining = F.length (F.decode hd) - seen.length

/-- Reader `r` stands exactly behind the bytes `p` of an unfinished frame. -/
inductive At (F : Format β η ε) (r : Reader β η) : List β → Prop
  | header {p : List β} (phase : r.phase = .header) (eq : r.header = p)
      (lt : p.length < F.headerLen) : At F r p
  | buffering {hd seen : List β} (inside : InFrame F r hd seen)
      (phase : r.phase = .buffering) (kind : F.control (F.decode hd) = true)
      (kept : r.control = seen) (room : seen.length < F.controlMax) : At F r (hd ++ seen)
  | draining {hd seen : List β} (inside : InFrame F r hd seen)
      (phase : r.phase = .draining) (kind : F.control (F.decode hd) = true)
      (kept : r.control = seen.take F.controlMax) (full : F.controlMax ≤ seen.length) :
      At F r (hd ++ seen)
  | streaming {hd seen : List β} (inside : InFrame F r hd seen)
      (phase : r.phase = .streaming) (kind : F.control (F.decode hd) = false) :
      At F r (hd ++ seen)

/-- What one call on `input` does from behind the bytes `p`. -/
inductive FeedSpec (F : Format β η ε) (p input : List β) :
    Reader β η × Outcome β η ε → Prop
  /-- All of the input belongs to the unfinished frame, and nothing of it is
  to be passed on. -/
  | more {r' : Reader β η} (place : At F r' (p ++ input))
      (same : F.streamed (p ++ input) = F.streamed p) :
      FeedSpec F p input (r', .ok (input.length, none))
  /-- A control frame ends here. -/
  | control {r' : Reader β η} {n : ℕ} {payload : List β} (f : Wire F)
      (place : At F r' []) (pos : 0 < n) (le : n ≤ input.length)
      (bytes : f.bytes = p ++ input.take n) (kind : F.whole f.header = true)
      (cut : payload = f.payload.take F.controlMax) (same : F.streamed p = []) :
      FeedSpec F p input (r', .ok (n, some (.control f.header payload)))
  /-- A streamed frame ends here. -/
  | last {r' : Reader β η} {n : ℕ} {chunk : List β} (f : Wire F)
      (place : At F r' []) (pos : 0 < n) (le : n ≤ input.length)
      (bytes : f.bytes = p ++ input.take n) (kind : F.whole f.header = false)
      (rest : F.streamed p ++ chunk = f.payload)
      (tail : chunk = [] → f.payload = []) :
      FeedSpec F p input (r', .ok (n, some (.body f.header chunk true)))
  /-- The input ends inside a streamed payload. -/
  | chunk {r' : Reader β η} {chunk : List β} (place : At F r' (p ++ input))
      (pos : 0 < input.length) (nonempty : chunk ≠ [])
      (enough : F.headerLen ≤ (p ++ input).length)
      (more : F.streamed (p ++ input) = F.streamed p ++ chunk) :
      FeedSpec F p input (r', .ok (input.length,
        some (.body (F.decode ((p ++ input).take F.headerLen)) chunk false)))
  /-- A header is complete and not acceptable. -/
  | refused {r' : Reader β η} {n : ℕ} {e : ε} (place : At F r' []) (pos : 0 < n)
      (le : n ≤ input.length) (len : (p ++ input.take n).length = F.headerLen)
      (error : F.refuse (F.decode (p ++ input.take n)) = some e)
      (same : F.streamed p = []) :
      FeedSpec F p input (r', .error e)

/-! ### Places -/

variable {F : Format β η ε} {r : Reader β η} {p hd seen input : List β}

theorem streamed_of_short (h : p.length < F.headerLen) : F.streamed p = [] := by
  rw [Format.streamed, if_neg]
  exact fun hc => absurd hc.1 (Nat.not_le.mpr h)

@[simp] theorem streamed_nil (F : Format β η ε) : F.streamed [] = [] :=
  streamed_of_short F.headerLen_pos

theorem streamed_frame (h : hd.length = F.headerLen) :
    F.streamed (hd ++ seen) = if F.whole (F.decode hd) = false then seen else [] := by
  have htake : (hd ++ seen).take F.headerLen = hd := by rw [← h, List.take_left]
  have hdrop : (hd ++ seen).drop F.headerLen = seen := by rw [← h, List.drop_left]
  have hle : F.headerLen ≤ (hd ++ seen).length := by rw [List.length_append, h]; omega
  simp only [Format.streamed, htake, hdrop, hle, true_and]

/-- Between frames. -/
theorem At.nil (hph : r.phase = .header) (hh : r.header = []) : At F r [] :=
  .header hph hh F.headerLen_pos

theorem At.start (F : Format β η ε) (h : η) : At F (Reader.start h) [] :=
  .nil rfl rfl

namespace InFrame

theorem whole_eq (h : InFrame F r hd seen) : F.whole (F.decode hd) = F.control (F.decode hd) := by
  have := h.seen_lt
  rw [Format.whole, if_neg (by omega)]

theorem remaining_pos (h : InFrame F r hd seen) : 0 < r.remaining := by
  have := h.seen_lt
  have := h.remaining
  omega

/-- Inside a frame captured whole, nothing is passed on. -/
theorem streamed_control (h : InFrame F r hd seen) (hc : F.control (F.decode hd) = true)
    (more : List β) : F.streamed (hd ++ more) = [] := by
  rw [streamed_frame h.head_length, h.whole_eq, hc]
  rfl

/-- Inside a streamed frame, the payload seen so far was passed on. -/
theorem streamed_body (h : InFrame F r hd seen) (hc : F.control (F.decode hd) = false)
    (more : List β) : F.streamed (hd ++ more) = more := by
  rw [streamed_frame h.head_length, h.whole_eq, hc]
  rfl

/-- Payload bytes that do not end the frame. -/
theorem extend (h : InFrame F r hd seen) (hlt : input.length < r.remaining)
    {r' : Reader β η} (hh : r'.header = r.header) (hc : r'.current = r.current)
    (hr : r'.remaining = r.remaining - input.length) : InFrame F r' hd (seen ++ input) where
  head_length := h.head_length
  accepted := h.accepted
  seen_lt := by
    have := h.remaining
    rw [List.length_append]
    omega
  header := by rw [hh, h.header]
  current := by rw [hc, h.current]
  remaining := by
    have := h.remaining
    rw [hr, List.length_append]
    omega

/-- The frame that ends `r.remaining` bytes into the input. -/
theorem finish (h : InFrame F r hd seen) (hle : r.remaining ≤ input.length) :
    ∃ f : Wire F, f.head = hd ∧ f.payload = seen ++ input.take r.remaining := by
  refine ⟨⟨hd, seen ++ input.take r.remaining, h.head_length, h.accepted, ?_⟩, rfl, rfl⟩
  have := h.remaining
  have := h.seen_lt
  rw [List.length_append, List.length_take]
  omega

end InFrame

theorem Wire.bytes_eq {f : Wire F} {tail : List β} (h₁ : f.head = hd)
    (h₂ : f.payload = seen ++ tail) : f.bytes = hd ++ seen ++ tail := by
  rw [Wire.bytes, h₁, h₂, List.append_assoc]

theorem Wire.header_eq {f : Wire F} (h : f.head = hd) : f.header = F.decode hd := by
  rw [Wire.header, h]

/-! ### One call -/

/-- What holds of the rest of a call holds of the call: `n` bytes were used
before, none of them to be passed on. -/
theorem FeedSpec.advance {n : ℕ} {res : Reader β η × Outcome β η ε} (hn : n ≤ input.length)
    (hsame : F.streamed (p ++ input.take n) = F.streamed p)
    (h : FeedSpec F (p ++ input.take n) (input.drop n) res) :
    FeedSpec F p input (advance n res) := by
  have hsplit : p ++ input.take n ++ input.drop n = p ++ input := by
    rw [List.append_assoc, List.take_append_drop]
  have hlen : n + (input.drop n).length = input.length := by
    rw [List.length_drop]
    omega
  have htake : ∀ m, p ++ input.take n ++ (input.drop n).take m = p ++ input.take (n + m) := by
    intro m
    rw [List.append_assoc, List.take_add]
  cases h with
  | more place same =>
    rw [hsplit] at place same
    simp only [Framing.advance, Except.map, hlen]
    exact .more place (by rw [same, hsame])
  | control f place pos le bytes kind cut same =>
    rw [htake] at bytes
    exact .control f place (by omega) (by omega) bytes kind cut (by rw [← hsame, same])
  | last f place pos le bytes kind rest tail =>
    rw [htake] at bytes
    rw [hsame] at rest
    exact .last f place (by omega) (by omega) bytes kind rest tail
  | chunk place pos nonempty enough more =>
    simp only [Framing.advance, Except.map, hlen]
    rw [hsplit] at place more enough ⊢
    rw [hsame] at more
    exact .chunk place (by omega) nonempty enough more
  | refused place pos le len error same =>
    rw [htake] at len error
    exact .refused place (by omega) (by omega) len error (by rw [← hsame, same])

theorem feedDraining_spec (h : InFrame F r hd seen) (hph : r.phase = .draining)
    (hc : F.control (F.decode hd) = true) (hkept : r.control = seen.take F.controlMax)
    (hfull : F.controlMax ≤ seen.length) (input : List β) :
    FeedSpec F (hd ++ seen) input (Format.feedDraining r input) := by
  unfold Format.feedDraining
  rcases Nat.lt_or_ge input.length r.remaining with hlt | hge
  · -- the frame goes on beyond the input
    have hmin : min r.remaining input.length = input.length := by omega
    simp only [hmin, if_pos (show 0 < r.remaining - input.length by omega)]
    refine .more ?_ ?_
    · rw [List.append_assoc]
      refine .draining (h.extend hlt rfl rfl rfl) hph hc ?_ ?_
      · rw [hkept, List.take_append_of_le_length hfull]
      · rw [List.length_append]
        omega
    · rw [List.append_assoc, h.streamed_control hc, h.streamed_control hc]
  · have hmin : min r.remaining input.length = r.remaining := by omega
    simp only [hmin, Nat.sub_self, Nat.lt_irrefl, if_false]
    obtain ⟨f, hf₁, hf₂⟩ := h.finish hge
    rw [h.current, ← Wire.header_eq hf₁]
    refine .control f (.nil rfl h.header) h.remaining_pos hge (Wire.bytes_eq hf₁ hf₂) ?_ ?_ ?_
    · rw [Wire.header_eq hf₁, h.whole_eq, hc]
    · rw [hkept, hf₂, List.take_append_of_le_length hfull]
    · exact h.streamed_control hc seen

/-- Without input nothing happens. -/
theorem FeedSpec.empty {p : List β} (place : At F r p) : FeedSpec F p [] (r, .ok (0, none)) :=
  .more (by rwa [List.append_nil]) (by rw [List.append_nil])

theorem feedStreaming_spec (h : InFrame F r hd seen) (hph : r.phase = .streaming)
    (hc : F.control (F.decode hd) = false) (input : List β) :
    FeedSpec F (hd ++ seen) input (Format.feedStreaming r input) := by
  unfold Format.feedStreaming
  by_cases hnil : input.length = 0
  · obtain rfl := List.length_eq_zero_iff.mp hnil
    rw [if_pos hnil]
    exact .empty (.streaming h hph hc)
  rw [if_neg hnil]
  rcases Nat.lt_or_ge input.length r.remaining with hlt | hge
  · have hmin : min r.remaining input.length = input.length := by omega
    have hne : ¬ r.remaining - input.length = 0 := by omega
    simp only [hmin, hne, decide_false, cond_false, List.take_length]
    -- the chunk goes out under the header that stands in front of all input
    have hhd : (hd ++ seen ++ input).take F.headerLen = hd := by
      rw [List.append_assoc, ← h.head_length, List.take_left]
    have hcur : (Item.body r.current input false : Item β η) =
        .body (F.decode ((hd ++ seen ++ input).take F.headerLen)) input false := by
      rw [hhd, h.current]
    rw [hcur]
    refine .chunk ?_ (by omega) ?_ ?_ ?_
    · rw [List.append_assoc]
      exact .streaming (h.extend hlt rfl rfl rfl) hph hc
    · exact fun he => hnil (by rw [he]; rfl)
    · have := h.head_length
      simp only [List.length_append]
      omega
    · rw [List.append_assoc, h.streamed_body hc, h.streamed_body hc]
  · have hmin : min r.remaining input.length = r.remaining := by omega
    simp only [hmin, Nat.sub_self, decide_true, cond_true]
    -- the rest of the payload is there, and the frame is complete
    obtain ⟨f, hf₁, hf₂⟩ := h.finish hge
    rw [h.current, ← Wire.header_eq hf₁]
    refine .last f (.nil rfl h.header) h.remaining_pos hge (Wire.bytes_eq hf₁ hf₂) ?_ ?_ ?_
    · rw [Wire.header_eq hf₁, h.whole_eq, hc]
    · rw [h.streamed_body hc, hf₂]
    · intro he
      have hl := congrArg List.length he
      have := h.remaining_pos
      rw [List.length_take, List.length_nil] at hl
      omega

theorem feedBuffering_spec (h : InFrame F r hd seen) (hph : r.phase = .buffering)
    (hc : F.control (F.decode hd) = true) (hkept : r.control = seen)
    (hroom : seen.length < F.controlMax) (input : List β) :
    FeedSpec F (hd ++ seen) input (F.feedBuffering r input) := by
  unfold Format.feedBuffering
  by_cases hnil : input.length = 0
  · obtain rfl := List.length_eq_zero_iff.mp hnil
    rw [if_pos hnil]
    exact .empty (.buffering h hph hc hkept hroom)
  rw [if_neg hnil]
  have hrem := h.remaining_pos
  simp only [hkept]
  generalize hn : min (min r.remaining input.length) (F.controlMax - seen.length) = n
  have hnle : n ≤ input.length := by omega
  have htl : (input.take n).length = n := by rw [List.length_take]; omega
  -- whatever comes first: the end of the frame, of the room, or of the input
  rcases Nat.lt_or_ge n r.remaining with hlt | hge
  · rw [if_neg (by omega), List.length_append, htl]
    rcases Nat.lt_or_ge (seen.length + n) F.controlMax with hspace | hfull
    · have hall : n = input.length := by omega
      subst hall
      rw [if_neg (by omega), List.take_length]
      refine .more ?_ ?_
      · rw [List.append_assoc]
        refine .buffering (h.extend hlt rfl rfl rfl) hph hc rfl ?_
        rw [List.length_append]
        exact hspace
      · rw [List.append_assoc, h.streamed_control hc, h.streamed_control hc]
    · rw [if_pos (by omega)]
      refine FeedSpec.advance hnle ?_ ?_
      · rw [List.append_assoc, h.streamed_control hc, h.streamed_control hc]
      · rw [List.append_assoc]
        have hlen : (seen ++ input.take n).length = F.controlMax := by
          rw [List.length_append, htl]
          omega
        have hin : InFrame F { r with
            phase := .draining
            control := seen ++ input.take n
            remaining := r.remaining - n } hd (seen ++ input.take n) :=
          h.extend (by rw [htl]; exact hlt) rfl rfl (by rw [htl])
        exact feedDraining_spec hin rfl hc (List.take_of_length_le (Nat.le_of_eq hlen)).symm
          (Nat.le_of_eq hlen.symm) _
  · have hall : n = r.remaining := by omega
    subst hall
    rw [Nat.sub_self, if_pos rfl]
    obtain ⟨f, hf₁, hf₂⟩ := h.finish hnle
    rw [h.current, ← Wire.header_eq hf₁]
    refine .control f (.nil rfl h.header) hrem hnle (Wire.bytes_eq hf₁ hf₂) ?_ ?_ ?_
    · rw [Wire.header_eq hf₁, h.whole_eq, hc]
    · have hle : (seen ++ input.take r.remaining).length ≤ F.controlMax := by
        rw [List.length_append, htl]
        omega
      rw [hf₂, List.take_of_length_le hle]
    · exact h.streamed_control hc seen

theorem feedHeader_spec (hh : r.header = p) (hph : r.phase = .header)
    (hp : p.length < F.headerLen) (input : List β) :
    FeedSpec F p input (F.feedHeader r input) := by
  unfold Format.feedHeader
  rw [hh]
  have hpnil := streamed_of_short hp
  rcases Nat.lt_or_ge (p.length + input.length) F.headerLen with hlt | hge
  · -- the header goes on beyond the input
    have hn : min (F.headerLen - p.length) input.length = input.length := by omega
    simp only [hn, List.take_length, List.length_append, if_pos hlt]
    have hlen : (p ++ input).length < F.headerLen := by rw [List.length_append]; exact hlt
    refine .more (.header hph rfl hlen) ?_
    rw [hpnil, streamed_of_short hlen]
  -- the input completes the header
  have hn : min (F.headerLen - p.length) input.length = F.headerLen - p.length := by omega
  generalize hm : F.headerLen - p.length = m at hn
  simp only [hn]
  have hml : m ≤ input.length := by omega
  have hhd : (p ++ input.take m).length = F.headerLen := by
    rw [List.length_append, List.length_take]
    omega
  generalize hhdr : p ++ input.take m = head at hhd
  rw [if_neg (by omega)]
  rcases href : F.refuse (F.decode head) with - | e
  · simp only
    have hsame : F.streamed (p ++ input.take m) = F.streamed p := by
      rw [hhdr, hpnil, ← List.append_nil head, streamed_frame hhd]
      split_ifs <;> rfl
    by_cases hzero : F.length (F.decode head) = 0
    · -- a frame without payload
      rw [if_pos hzero]
      have hwhole : F.whole (F.decode head) = F.emptyControl (F.decode head) := by
        rw [Format.whole, if_pos hzero]
      let f : Wire F := ⟨head, [], hhd, href, by rw [hzero]; rfl⟩
      have hbytes : f.bytes = p ++ input.take m := by
        rw [hhdr]
        exact List.append_nil head
      cases hec : F.emptyControl (F.decode head) with
      | true =>
        simp only [if_true]
        exact .control f (.nil rfl rfl) (by omega) hml hbytes (hwhole.trans hec)
          List.take_nil.symm hpnil
      | false =>
        simp only [Bool.false_eq_true, if_false]
        refine .last f (.nil rfl rfl) (by omega) hml hbytes (hwhole.trans hec) ?_ (fun _ => rfl)
        rw [hpnil]
        rfl
    · -- the payload follows, buffered or streamed as its kind says
      rw [if_neg hzero]
      have hin : ∀ ph, InFrame F ⟨ph, [], F.decode head, F.length (F.decode head), []⟩ head [] := by
        intro ph
        exact ⟨hhd, href, by simp only [List.length_nil]; omega, rfl, rfl, rfl⟩
      cases hctl : F.control (F.decode head) with
      | true =>
        rw [if_pos rfl]
        refine FeedSpec.advance hml hsame ?_
        rw [hhdr, ← List.append_nil head]
        simp only [List.append_nil head]
        have := feedBuffering_spec (hin .buffering) rfl hctl rfl F.controlMax_pos (input.drop m)
        rwa [List.append_nil] at this
      | false =>
        rw [if_neg (by decide)]
        refine FeedSpec.advance hml hsame ?_
        rw [hhdr]
        have := feedStreaming_spec (hin .streaming) rfl hctl (input.drop m)
        rwa [List.append_nil] at this
  · -- the header itself is refused
    refine .refused (.nil hph rfl) (by omega) hml ?_ ?_ hpnil
    · rw [hhdr, hhd]
    · rw [hhdr, href]

/-- **One call.** -/
theorem feed_spec (h : At F r p) (input : List β) : FeedSpec F p input (F.feed r input) := by
  unfold Format.feed
  cases h with
  | header phase eq lt =>
    rw [phase]
    exact feedHeader_spec eq phase lt input
  | buffering inside phase kind kept room =>
    rw [phase]
    exact feedBuffering_spec inside phase kind kept room input
  | draining inside phase kind kept full =>
    rw [phase]
    exact feedDraining_spec inside phase kind kept full input
  | streaming inside phase kind =>
    rw [phase]
    exact feedStreaming_spec inside phase kind input

/-! ### Frames of a stream

A byte string has at most one reading: frames, and then something that does
not start with a frame. -/

/-- No frame lies at the front of `t`. -/
def NoFrame (F : Format β η ε) (t : List β) : Prop :=
  ∀ (f : Wire F) (rest : List β), t ≠ f.bytes ++ rest

theorem Wire.take_bytes (f : Wire F) (rest : List β) :
    (f.bytes ++ rest).take F.headerLen = f.head := by
  rw [Wire.bytes, List.append_assoc, ← f.head_length, List.take_left]

theorem Wire.length_bytes (f : Wire F) : f.bytes.length = F.headerLen + F.length f.header := by
  rw [Wire.bytes, List.length_append, f.head_length, f.payload_length, Wire.header]

theorem Wire.append_inj {f g : Wire F} {a b : List β} (h : f.bytes ++ a = g.bytes ++ b) :
    f = g ∧ a = b := by
  have hhead : f.head = g.head := by
    rw [← f.take_bytes a, h, g.take_bytes b]
  have hlen : f.bytes.length = g.bytes.length := by
    rw [f.length_bytes, g.length_bytes, Wire.header, Wire.header, hhead]
  obtain ⟨hbytes, hrest⟩ := List.append_inj h hlen
  rw [Wire.bytes, Wire.bytes, hhead] at hbytes
  exact ⟨Wire.ext' hhead (List.append_cancel_left hbytes), hrest⟩

theorem noFrame_short (h : p.length < F.headerLen) : NoFrame F p := by
  rintro f rest rfl
  rw [List.length_append, f.length_bytes] at h
  omega

theorem noFrame_nil (F : Format β η ε) : NoFrame F [] := noFrame_short F.headerLen_pos

theorem noFrame_refused (hlen : hd.length = F.headerLen) (h : F.refuse (F.decode hd) ≠ none)
    (rest : List β) : NoFrame F (hd ++ rest) := by
  intro f rest' he
  have hhead : hd = f.head := by
    rw [← f.take_bytes rest', ← he, ← hlen, List.take_left]
  rw [hhead] at h
  exact h f.accepted

theorem InFrame.noFrame (h : InFrame F r hd seen) : NoFrame F (hd ++ seen) := by
  intro f rest he
  have hhead : hd = f.head := by
    rw [← f.take_bytes rest, ← he, ← h.head_length, List.take_left]
  have hlen := congrArg List.length he
  rw [List.length_append, List.length_append, f.length_bytes, Wire.header, ← hhead,
    h.head_length] at hlen
  have := h.seen_lt
  omega

theorem At.noFrame (h : At F r p) : NoFrame F p := by
  cases h with
  | header phase eq lt => exact noFrame_short lt
  | buffering inside => exact inside.noFrame
  | draining inside => exact inside.noFrame
  | streaming inside => exact inside.noFrame

/-- A complete header behind which a reader stands was accepted. -/
theorem At.accepted (h : At F r p) (hlen : F.headerLen ≤ p.length) :
    F.refuse (F.decode (p.take F.headerLen)) = none := by
  have frame : ∀ {hd seen : List β}, InFrame F r hd seen →
      F.refuse (F.decode ((hd ++ seen).take F.headerLen)) = none := by
    intro hd seen hin
    rw [← hin.head_length, List.take_left, hin.accepted]
  cases h with
  | header phase eq lt => omega
  | buffering inside => exact frame inside
  | draining inside => exact frame inside
  | streaming inside => exact frame inside

@[simp] theorem stream_nil : stream ([] : List (Wire F)) = [] := rfl

@[simp] theorem stream_cons (f : Wire F) (fs : List (Wire F)) :
    stream (f :: fs) = f.bytes ++ stream fs := rfl

@[simp] theorem stream_append (fs gs : List (Wire F)) :
    stream (fs ++ gs) = stream fs ++ stream gs := by
  rw [stream, List.map_append, List.flatten_append, stream, stream]

/-- **Unique reading.** -/
theorem stream_inj {fs gs : List (Wire F)} {t u : List β} (ht : NoFrame F t)
    (hu : NoFrame F u) (h : stream fs ++ t = stream gs ++ u) : fs = gs ∧ t = u := by
  induction fs generalizing gs with
  | nil =>
    cases gs with
    | nil => exact ⟨rfl, h⟩
    | cons g gs =>
      rw [stream_nil, List.nil_append, stream_cons, List.append_assoc] at h
      exact absurd h (ht g _)
  | cons f fs ih =>
    cases gs with
    | nil =>
      rw [stream_nil, List.nil_append, stream_cons, List.append_assoc] at h
      exact absurd h.symm (hu f _)
    | cons g gs =>
      rw [stream_cons, stream_cons, List.append_assoc, List.append_assoc] at h
      obtain ⟨rfl, hrest⟩ := Wire.append_inj h
      obtain ⟨rfl, rfl⟩ := ih hrest
      exact ⟨rfl, rfl⟩

/-- A frame at the front of a stream is its first one. -/
theorem stream_eq_frame {fs : List (Wire F)} {f : Wire F} {rest : List β}
    (h : stream fs = f.bytes ++ rest) : ∃ fs', fs = f :: fs' ∧ stream fs' = rest := by
  cases fs with
  | nil => exact absurd h (noFrame_nil F f rest)
  | cons g fs =>
    obtain ⟨rfl, hrest⟩ := Wire.append_inj h
    exact ⟨fs, rfl, hrest⟩

/-- No header of a stream of frames is refused. -/
theorem stream_ne_refused (fs : List (Wire F)) (hlen : hd.length = F.headerLen)
    (h : F.refuse (F.decode hd) ≠ none) (rest : List β) : hd ++ rest ≠ stream fs := by
  intro he
  have hsplit : stream ([] : List (Wire F)) ++ (hd ++ rest) = stream fs ++ [] := by
    rw [stream_nil, List.nil_append, List.append_nil, he]
  obtain ⟨-, hnil⟩ := stream_inj (noFrame_refused hlen h rest) (noFrame_nil F) hsplit
  have hpos := F.headerLen_pos
  rw [← hlen, (List.append_eq_nil_iff.mp hnil).1, List.length_nil] at hpos
  exact Nat.lt_irrefl 0 hpos

/-! ### One call, from outside -/

/-- A call without an item used all of its input. -/
theorem feed_none (h : At F r p) {r' : Reader β η} {n : ℕ}
    (he : F.feed r input = (r', .ok (n, none))) : n = input.length := by
  have hs := feed_spec h input
  rw [he] at hs
  cases hs
  rfl

/-- The bytes at which a header is complete. -/
theorem take_header {n : ℕ} (hle : n ≤ input.length)
    (hlen : (p ++ input.take n).length = F.headerLen) :
    (p ++ input).take F.headerLen = p ++ input.take n := by
  rw [← hlen, List.length_append, List.length_take, Nat.min_eq_left hle,
    List.take_length_add_append]

/-- **A call fails exactly where it completes a header that is not
acceptable.** -/
theorem feed_error_iff (h : At F r p) (e : ε) :
    (F.feed r input).2 = .error e ↔
      p.length < F.headerLen ∧ F.headerLen ≤ (p ++ input).length ∧
        F.refuse (F.decode ((p ++ input).take F.headerLen)) = some e := by
  have hs := feed_spec h input
  generalize F.feed r input = res at hs
  -- a frame that ends in the input has an acceptable header
  have ended : ∀ {n : ℕ} (f : Wire F), f.bytes = p ++ input.take n →
      F.refuse (F.decode ((p ++ input).take F.headerLen)) ≠ some e := by
    intro n f hf
    have hsplit : p ++ input = f.bytes ++ input.drop n := by
      rw [hf, List.append_assoc, List.take_append_drop]
    rw [hsplit, f.take_bytes, f.accepted]
    exact nofun
  have inside : ∀ {r' : Reader β η}, At F r' (p ++ input) → F.headerLen ≤ (p ++ input).length →
      F.refuse (F.decode ((p ++ input).take F.headerLen)) ≠ some e := by
    intro r' hat hlen
    rw [hat.accepted hlen]
    exact nofun
  cases hs with
  | more place same =>
    refine ⟨nofun, ?_⟩
    rintro ⟨-, hlen, he⟩
    exact absurd he (inside place hlen)
  | control f place pos le bytes kind cut same =>
    refine ⟨nofun, ?_⟩
    rintro ⟨-, -, he⟩
    exact absurd he (ended f bytes)
  | last f place pos le bytes kind rest tail =>
    refine ⟨nofun, ?_⟩
    rintro ⟨-, -, he⟩
    exact absurd he (ended f bytes)
  | chunk place pos nonempty enough more =>
    refine ⟨nofun, ?_⟩
    rintro ⟨-, hlen, he⟩
    exact absurd he (inside place hlen)
  | @refused r' n e' place pos le len error same =>
    rw [take_header le len, error]
    rw [List.length_append, List.length_take, Nat.min_eq_left le] at len
    refine ⟨fun he => ?_, ?_⟩
    · cases he
      refine ⟨by omega, ?_, rfl⟩
      rw [List.length_append]
      omega
    · rintro ⟨-, -, he⟩
      cases he
      rfl

/-! ### The calls of a reader

The caller of `feed` gives each input to the reader until it is used up. -/

/-- How the calls ended: out of input, with an error, or with input that the
calls allowed did not use up. -/
inductive Ending (ε : Type)
  | more
  | failed (e : ε)
  | stuck
  deriving DecidableEq

section Calls

variable {ρ ρ' ι ι' : Type}

/-- At most `k` calls on one input, each on what is left of it. -/
def feedInput (feed : ρ → List β → ρ × Except ε (ℕ × Option ι)) :
    ℕ → ρ → List β → ρ × List ι × Ending ε
  | _, r, [] => (r, [], .more)
  | 0, r, _ :: _ => (r, [], .stuck)
  | k + 1, r, b :: bs =>
      match feed r (b :: bs) with
      | (r', .error e) => (r', [], .failed e)
      | (r', .ok (n, item)) =>
          let rest := feedInput feed k r' ((b :: bs).drop n)
          (rest.1, item.toList ++ rest.2.1, rest.2.2)

/-- The inputs one after another. -/
def feedAll (feed : ρ → List β → ρ × Except ε (ℕ × Option ι)) :
    ρ → List (List β) → ρ × List ι × Ending ε
  | r, [] => (r, [], .more)
  | r, input :: inputs =>
      match feedInput feed input.length r input with
      | (r', items, .more) =>
          let rest := feedAll feed r' inputs
          (rest.1, items ++ rest.2.1, rest.2.2)
      | stopped => stopped

/-- The states that calls lead to. -/
inductive Reach (feed : ρ → List β → ρ × Except ε (ℕ × Option ι)) (r₀ : ρ) : ρ → Prop
  | start : Reach feed r₀ r₀
  | call {r : ρ} (before : Reach feed r₀ r) (input : List β) : Reach feed r₀ (feed r input).1

/-- `feed'` does what `feed` does, on states seen through `π` and with items
written by `φ`. -/
def Refines (feed' : ρ' → List β → ρ' × Except ε (ℕ × Option ι'))
    (feed : ρ → List β → ρ × Except ε (ℕ × Option ι)) (π : ρ' → ρ) (φ : ι → ι') : Prop :=
  ∀ r input, π (feed' r input).1 = (feed (π r) input).1 ∧
    (feed' r input).2 = (feed (π r) input).2.map fun o => (o.1, o.2.map φ)

variable {feed' : ρ' → List β → ρ' × Except ε (ℕ × Option ι')}
  {feed : ρ → List β → ρ × Except ε (ℕ × Option ι)} {π : ρ' → ρ} {φ : ι → ι'}

theorem Refines.feedInput (h : Refines feed' feed π φ) (k : ℕ) (r : ρ') (input : List β) :
    π (feedInput feed' k r input).1 = (feedInput feed k (π r) input).1 ∧
      (feedInput feed' k r input).2.1 = (feedInput feed k (π r) input).2.1.map φ ∧
      (feedInput feed' k r input).2.2 = (feedInput feed k (π r) input).2.2 := by
  induction k generalizing r input with
  | zero =>
    cases input with
    | nil => exact ⟨rfl, rfl, rfl⟩
    | cons b bs => exact ⟨rfl, rfl, rfl⟩
  | succ k ih =>
    cases input with
    | nil => exact ⟨rfl, rfl, rfl⟩
    | cons b bs =>
      obtain ⟨hstate, hout⟩ := h r (b :: bs)
      unfold Framing.feedInput
      rcases he : feed (π r) (b :: bs) with ⟨r₁, out⟩
      rcases he' : feed' r (b :: bs) with ⟨r₂, out'⟩
      rw [he, he'] at hstate hout
      simp only at hstate hout
      subst hstate hout
      cases out with
      | error e => exact ⟨rfl, rfl, rfl⟩
      | ok o =>
        obtain ⟨n, item⟩ := o
        obtain ⟨h₁, h₂, h₃⟩ := ih r₂ ((b :: bs).drop n)
        refine ⟨h₁, ?_, h₃⟩
        show (item.map φ).toList ++ _ = _
        rw [h₂, List.map_append]
        cases item <;> rfl

theorem Refines.feedAll (h : Refines feed' feed π φ) (r : ρ') (inputs : List (List β)) :
    π (feedAll feed' r inputs).1 = (feedAll feed (π r) inputs).1 ∧
      (feedAll feed' r inputs).2.1 = (feedAll feed (π r) inputs).2.1.map φ ∧
      (feedAll feed' r inputs).2.2 = (feedAll feed (π r) inputs).2.2 := by
  induction inputs generalizing r with
  | nil => exact ⟨rfl, rfl, rfl⟩
  | cons input inputs ih =>
    obtain ⟨h₁, h₂, h₃⟩ := h.feedInput input.length r input
    unfold Framing.feedAll
    rcases he : Framing.feedInput feed input.length (π r) input with ⟨r₁, items, ending⟩
    rcases he' : Framing.feedInput feed' input.length r input with ⟨r₂, items', ending'⟩
    rw [he, he'] at h₁ h₂ h₃
    simp only at h₁ h₂ h₃
    subst h₁ h₂ h₃
    cases ending' with
    | more =>
      obtain ⟨g₁, g₂, g₃⟩ := ih r₂
      refine ⟨g₁, ?_, g₃⟩
      show items.map φ ++ _ = _
      rw [g₂, List.map_append]
    | failed e => exact ⟨rfl, rfl, rfl⟩
    | stuck => exact ⟨rfl, rfl, rfl⟩

theorem Refines.feedAll_eq (h : Refines feed' feed π φ) {r : ρ'} {inputs : List (List β)}
    {s : ρ} {items : List ι} {ending : Ending ε}
    (he : Framing.feedAll feed (π r) inputs = (s, items, ending)) :
    ∃ r', π r' = s ∧ Framing.feedAll feed' r inputs = (r', items.map φ, ending) := by
  obtain ⟨h₁, h₂, h₃⟩ := h.feedAll r inputs
  rw [he] at h₁ h₂ h₃
  exact ⟨_, h₁, Prod.ext rfl (Prod.ext h₂ h₃)⟩

theorem Refines.reach (h : Refines feed' feed π φ) {r₀ r : ρ'} (hr : Reach feed' r₀ r) :
    Reach feed (π r₀) (π r) := by
  induction hr with
  | start => exact .start
  | call before input ih =>
    rw [(h _ input).1]
    exact .call ih input

end Calls

/-- The items that stand for the frames `fs` and the bytes `p` of an
unfinished frame behind them, when `acc` of the first payload was passed on
before. -/
inductive Renders (F : Format β η ε) :
    List β → List (Wire F) → List β → List (Item β η) → Prop
  | nil {acc p : List β} (all : F.streamed p = acc) : Renders F acc [] p []
  | control {f : Wire F} {fs : List (Wire F)} {p : List β} {items : List (Item β η)}
      (kind : F.whole f.header = true) (rest : Renders F [] fs p items) :
      Renders F [] (f :: fs) p (.control f.header (f.payload.take F.controlMax) :: items)
  | last {acc chunk : List β} {f : Wire F} {fs : List (Wire F)} {p : List β}
      {items : List (Item β η)} (kind : F.whole f.header = false)
      (payload : acc ++ chunk = f.payload) (tail : chunk = [] → f.payload = [])
      (rest : Renders F [] fs p items) :
      Renders F acc (f :: fs) p (.body f.header chunk true :: items)
  | chunk {acc chunk : List β} {f : Wire F} {fs : List (Wire F)} {p : List β}
      {items : List (Item β η)} (nonempty : chunk ≠ [])
      (rest : Renders F (acc ++ chunk) (f :: fs) p items) :
      Renders F acc (f :: fs) p (.body f.header chunk false :: items)
  | tail {acc chunk p : List β} {items : List (Item β η)} (nonempty : chunk ≠ [])
      (enough : F.headerLen ≤ p.length) (rest : Renders F (acc ++ chunk) [] p items) :
      Renders F acc [] p (.body (F.decode (p.take F.headerLen)) chunk false :: items)

/-- What calls on `input` do from behind the bytes `p`. -/
inductive RunSpec (F : Format β η ε) (p input : List β) :
    Reader β η × List (Item β η) × Ending ε → Prop
  | more {r' : Reader β η} {fs : List (Wire F)} {p' : List β} {items : List (Item β η)}
      (place : At F r' p') (split : p ++ input = stream fs ++ p')
      (renders : Renders F (F.streamed p) fs p' items) : RunSpec F p input (r', items, .more)
  | failed {r' : Reader β η} {fs : List (Wire F)} {hd rest : List β}
      {items : List (Item β η)} {e : ε} (place : At F r' [])
      (split : p ++ input = stream fs ++ (hd ++ rest)) (len : hd.length = F.headerLen)
      (error : F.refuse (F.decode hd) = some e)
      (renders : Renders F (F.streamed p) fs hd items) :
      RunSpec F p input (r', items, .failed e)

/-- A payload passed on in parts belongs to the frame that starts with the
header of the bytes `p`. -/
theorem take_header_stream {fs : List (Wire F)} {a t : List β} {f : Wire F}
    (hlen : F.headerLen ≤ p.length) (h : p ++ a = stream (f :: fs) ++ t) :
    p.take F.headerLen = f.head := by
  rw [← List.take_append_of_le_length hlen, h, stream_cons, List.append_assoc, f.take_bytes]

theorem Renders.append {acc q a c : List β} {fs gs : List (Wire F)}
    {items items' : List (Item β η)} (h : Renders F acc fs p items)
    (hsplit : p ++ a = stream gs ++ (q ++ c)) (hq : c = [] ∨ F.headerLen ≤ q.length)
    (h' : Renders F (F.streamed p) gs q items') :
    Renders F acc (fs ++ gs) q (items ++ items') := by
  induction h with
  | nil all => exact all ▸ h'
  | control kind rest ih => exact .control kind (ih hsplit h')
  | last kind payload tail rest ih => exact .last kind payload tail (ih hsplit h')
  | chunk nonempty rest ih => exact .chunk nonempty (ih hsplit h')
  | @tail acc chunk p items nonempty enough rest ih =>
    have hrest := ih hsplit h'
    cases gs with
    | nil =>
      rw [stream_nil, List.nil_append] at hsplit
      have hlen : F.headerLen ≤ q.length := by
        rcases hq with rfl | hq
        · rw [← List.append_nil q, ← hsplit, List.length_append]
          omega
        · exact hq
      have htake : p.take F.headerLen = q.take F.headerLen := by
        rw [← List.take_append_of_le_length enough, hsplit, List.take_append_of_le_length hlen]
      rw [htake]
      exact .tail nonempty hlen hrest
    | cons g gs =>
      rw [take_header_stream enough hsplit]
      exact .chunk nonempty hrest

/-- No calls. -/
theorem RunSpec.nil (h : At F r p) : RunSpec F p [] (r, [], .more) := by
  have hsplit : p ++ [] = stream ([] : List (Wire F)) ++ p := by
    rw [stream_nil, List.nil_append, List.append_nil]
  exact .more h hsplit (.nil rfl)

/-- Calls that used all of `a`, followed by calls on `b`. -/
theorem RunSpec.append {r' : Reader β η} {a b : List β} {items : List (Item β η)}
    {res : Reader β η × List (Item β η) × Ending ε} (h : RunSpec F p a (r', items, .more))
    (next : ∀ p', At F r' p' → RunSpec F p' b res) :
    RunSpec F p (a ++ b) (res.1, items ++ res.2.1, res.2.2) := by
  cases h with
  | @more _ fs p' _ place split renders =>
    have hs : p ++ (a ++ b) = stream fs ++ (p' ++ b) := by
      rw [← List.append_assoc, split, List.append_assoc]
    cases next p' place with
    | @more r'' gs p'' items' place' split' renders' =>
      have hs' : p' ++ b = stream gs ++ (p'' ++ []) := by rw [List.append_nil, split']
      refine .more place' ?_ (renders.append hs' (.inl rfl) renders')
      rw [hs, split', stream_append, List.append_assoc]
    | @failed r'' gs hd rest items' e place' split' len error renders' =>
      have hs' : p ++ (a ++ b) = stream (fs ++ gs) ++ (hd ++ rest) := by
        rw [hs, split', stream_append, List.append_assoc]
      exact .failed place' hs' len error
        (renders.append split' (.inr (Nat.le_of_eq len.symm)) renders')

/-- One call, as a run. -/
theorem FeedSpec.run {r' : Reader β η} {n : ℕ} {item : Option (Item β η)}
    (h : FeedSpec F p input (r', .ok (n, item))) :
    RunSpec F p (input.take n) (r', item.toList, .more) := by
  have single : ∀ f : Wire F, f.bytes = p ++ input.take n →
      p ++ input.take n = stream [f] ++ [] := by
    intro f hf
    rw [← hf, stream_cons, stream_nil, List.append_nil, List.append_nil]
  have hnil : Renders F [] [] [] [] := .nil (streamed_nil F)
  cases h with
  | more place same =>
    rw [List.take_length]
    exact .more place (List.nil_append _).symm (.nil same)
  | @control _ _ payload f place pos le bytes kind cut same =>
    refine .more place (single f bytes) ?_
    rw [same, cut]
    exact .control kind hnil
  | @last _ _ chunk f place pos le bytes kind rest tail =>
    exact .more place (single f bytes) (.last kind rest tail hnil)
  | @chunk _ chunk place pos nonempty enough more =>
    rw [List.take_length]
    exact .more place (List.nil_append _).symm (.tail nonempty enough (.nil more))

/-- A call on input uses some of it. -/
theorem FeedSpec.used_pos {r' : Reader β η} {n : ℕ} {item : Option (Item β η)}
    (h : FeedSpec F p input (r', .ok (n, item))) (hne : input ≠ []) : 0 < n := by
  cases h with
  | more => exact List.length_pos_iff.mpr hne
  | control f place pos => exact pos
  | last f place pos => exact pos
  | chunk place pos => exact pos

theorem feedInput_spec (k : ℕ) (h : At F r p) (hk : input.length ≤ k) :
    RunSpec F p input (feedInput F.feed k r input) := by
  induction k generalizing r p input with
  | zero =>
    rw [List.length_eq_zero_iff.mp (Nat.le_zero.mp hk), feedInput]
    exact .nil h
  | succ k ih =>
    cases input with
    | nil =>
      rw [feedInput]
      exact .nil h
    | cons b bs =>
      rw [feedInput]
      have hs := feed_spec h (b :: bs)
      rcases he : F.feed r (b :: bs) with ⟨r', out⟩
      rw [he] at hs
      cases out with
      | error e =>
        cases hs with
        | @refused _ n _ place pos le len error same =>
          have hsplit : p ++ (b :: bs) =
              stream ([] : List (Wire F)) ++ (p ++ (b :: bs).take n ++ (b :: bs).drop n) := by
            rw [stream_nil, List.nil_append, List.append_assoc, List.take_append_drop]
          refine .failed place hsplit len error (.nil ?_)
          rw [same, Format.streamed]
          split_ifs
          · exact List.drop_eq_nil_of_le (Nat.le_of_eq len)
          · rfl
      | ok res =>
        obtain ⟨n, item⟩ := res
        have hpos := hs.used_pos (List.cons_ne_nil b bs)
        have hlen : ((b :: bs).drop n).length ≤ k := by
          rw [List.length_drop]
          omega
        have hrun := hs.run.append fun p' hat => ih hat hlen
        rw [List.take_append_drop] at hrun
        exact hrun

/-- **Any inputs.**  The calls never get stuck; they hand back exactly the
frames of the bytes they were given, up to the first header that is not
acceptable. -/
theorem feedAll_spec (h : At F r p) (inputs : List (List β)) :
    RunSpec F p inputs.flatten (feedAll F.feed r inputs) := by
  induction inputs generalizing r p with
  | nil => exact .nil h
  | cons input inputs ih =>
    rw [feedAll, List.flatten_cons]
    have hs := feedInput_spec input.length h (Nat.le_refl _)
    rcases he : feedInput F.feed input.length r input with ⟨r', items, ending⟩
    rw [he] at hs
    cases ending with
    | more => exact hs.append fun p' hat => ih hat
    | stuck => cases hs
    | failed e =>
      cases hs with
      | @failed _ fs hd rest _ _ place split len error renders =>
        have hsplit : p ++ (input ++ inputs.flatten) =
            stream fs ++ (hd ++ (rest ++ inputs.flatten)) := by
          rw [← List.append_assoc, split]
          simp only [List.append_assoc]
        exact .failed place hsplit len error renders

/-! ### Whole frames -/

/-- The items that stand for one frame: one control item, or chunks none of
which is empty unless the payload is, the last one marked. -/
def Wire.Rendered (acc : List β) (f : Wire F) (items : List (Item β η)) : Prop :=
  if F.whole f.header then acc = [] ∧ items = [.control f.header (f.payload.take F.controlMax)]
  else ∃ (chunks : List (List β)) (final : List β),
    items = chunks.map (.body f.header · false) ++ [.body f.header final true] ∧
      acc ++ (chunks.flatten ++ final) = f.payload ∧ (∀ c ∈ chunks, c ≠ []) ∧
        (final = [] → f.payload = [])

/-- The items that stand for the frames `fs`, when `acc` of the first payload
was passed on before. -/
def Rendering (acc : List β) : List (Wire F) → List (Item β η) → Prop
  | [], items => acc = [] ∧ items = []
  | f :: fs, items =>
      ∃ first rest, items = first ++ rest ∧ f.Rendered acc first ∧ Rendering [] fs rest

/-- A frame in one item, whatever its chunks were. -/
def Wire.joined (f : Wire F) : Item β η :=
  if F.whole f.header then .control f.header (f.payload.take F.controlMax)
  else .body f.header f.payload true

/-- Joins the chunks of each payload, `acc` being what came before. -/
def assemble (acc : List β) : List (Item β η) → List (Item β η)
  | [] => []
  | .control h payload :: items => .control h payload :: assemble acc items
  | .body _ chunk false :: items => assemble (acc ++ chunk) items
  | .body h chunk true :: items => .body h (acc ++ chunk) true :: assemble [] items

theorem Wire.Rendered.chunk {acc chunk : List β} {f : Wire F} {items : List (Item β η)}
    (hne : chunk ≠ []) (h : f.Rendered (acc ++ chunk) items) :
    f.Rendered acc (.body f.header chunk false :: items) := by
  unfold Wire.Rendered at h ⊢
  split_ifs at h ⊢ with hw
  · exact absurd h.1 fun he => hne (List.append_eq_nil_iff.mp he).2
  · obtain ⟨chunks, final, rfl, hpay, hchunks, hfinal⟩ := h
    refine ⟨chunk :: chunks, final, rfl, ?_, ?_, hfinal⟩
    · rw [← hpay, List.flatten_cons]
      simp only [List.append_assoc]
    · intro c hc
      rcases List.mem_cons.mp hc with rfl | hc
      · exact hne
      · exact hchunks c hc

/-- The items of a run that ends between frames, frame by frame. -/
theorem Renders.rendering {acc : List β} {fs : List (Wire F)} {items : List (Item β η)}
    (h : Renders F acc fs p items) (hp : F.streamed p = []) : Rendering acc fs items := by
  induction h with
  | nil all => exact ⟨by rw [← all, hp], rfl⟩
  | @control f fs p items kind rest ih =>
    refine ⟨[_], items, rfl, ?_, ih hp⟩
    rw [Wire.Rendered, if_pos kind]
    exact ⟨rfl, rfl⟩
  | @last acc chunk f fs p items kind payload tail rest ih =>
    refine ⟨[_], items, rfl, ?_, ih hp⟩
    rw [Wire.Rendered, if_neg (by rw [kind]; decide)]
    exact ⟨[], chunk, rfl, payload, nofun, tail⟩
  | @chunk acc chunk f fs p items nonempty rest ih =>
    obtain ⟨first, others, rfl, hfirst, hothers⟩ := ih hp
    exact ⟨_, others, rfl, hfirst.chunk nonempty, hothers⟩
  | tail nonempty enough rest ih =>
    exact absurd (ih hp).1 fun he => nonempty (List.append_eq_nil_iff.mp he).2

/-- **A stream of whole frames.**  However it is cut into inputs, the calls
hand back exactly its frames and leave the reader between frames. -/
theorem feedAll_stream (h : At F r []) (fs : List (Wire F)) (inputs : List (List β))
    (hbytes : inputs.flatten = stream fs) :
    ∃ r' items, feedAll F.feed r inputs = (r', items, .more) ∧ At F r' [] ∧ Rendering [] fs items := by
  have hs := feedAll_spec h inputs
  rw [hbytes] at hs
  have hnil := noFrame_nil F
  rcases he : feedAll F.feed r inputs with ⟨r', items, ending⟩
  rw [he] at hs
  cases hs with
  | @more _ gs p' _ place split renders =>
    rw [List.nil_append, ← List.append_nil (stream fs)] at split
    obtain ⟨rfl, rfl⟩ := stream_inj hnil place.noFrame split
    exact ⟨r', items, rfl, place, streamed_nil F ▸ renders.rendering (streamed_nil F)⟩
  | @failed _ gs hd rest _ e place split len error renders =>
    have hrefused : F.refuse (F.decode hd) ≠ none := by
      rw [error]
      exact nofun
    rw [List.nil_append, ← List.append_nil (stream fs)] at split
    obtain ⟨-, hbad⟩ := stream_inj hnil (noFrame_refused len hrefused rest) split
    exact absurd hbad.symm (stream_ne_refused [] len hrefused rest)

/-- **A header that is not acceptable behind whole frames.**  The calls hand
back the frames, and then fail. -/
theorem feedAll_refused (h : At F r []) {fs : List (Wire F)} {hd rest : List β} {e : ε}
    {inputs : List (List β)} (hbytes : inputs.flatten = stream fs ++ (hd ++ rest))
    (hlen : hd.length = F.headerLen) (herr : F.refuse (F.decode hd) = some e) :
    ∃ r' items, feedAll F.feed r inputs = (r', items, .failed e) ∧ At F r' [] ∧
      Rendering [] fs items := by
  have hs := feedAll_spec h inputs
  rw [hbytes] at hs
  have hno := noFrame_refused hlen (by rw [herr]; exact nofun) rest
  rcases he : feedAll F.feed r inputs with ⟨r', items, ending⟩
  rw [he] at hs
  cases hs with
  | @more _ gs p' _ place split renders =>
    rw [List.nil_append] at split
    obtain ⟨-, rfl⟩ := stream_inj hno place.noFrame split
    have hacc := place.accepted (by rw [List.length_append]; omega)
    rw [← hlen, List.take_left, herr] at hacc
    cases hacc
  | @failed _ gs hd' rest' _ e' place split len error renders =>
    rw [List.nil_append] at split
    have hno' := noFrame_refused len (by rw [error]; exact nofun) rest'
    obtain ⟨rfl, htail⟩ := stream_inj hno hno' split
    obtain ⟨rfl, -⟩ := List.append_inj htail (hlen.trans len.symm)
    rw [herr] at error
    cases error
    have hhd : F.streamed hd = [] := by
      rw [← List.append_nil hd, streamed_frame hlen, ite_self]
    exact ⟨r', items, rfl, place, streamed_nil F ▸ renders.rendering hhd⟩

/-- Calls fail only there. -/
theorem feedAll_failed (h : At F r []) {inputs : List (List β)} {e : ε}
    (he : (feedAll F.feed r inputs).2.2 = .failed e) :
    ∃ (fs : List (Wire F)) (hd rest : List β), inputs.flatten = stream fs ++ (hd ++ rest) ∧
      hd.length = F.headerLen ∧ F.refuse (F.decode hd) = some e := by
  have hs := feedAll_spec h inputs
  rcases hres : feedAll F.feed r inputs with ⟨r', items, ending⟩
  rw [hres] at hs he
  simp only at he
  subst he
  cases hs with
  | @failed _ fs hd rest _ _ place split len error renders => exact ⟨fs, hd, rest, split, len, error⟩

/-- Every state that calls lead to is a place in the stream. -/
theorem Reach.place {r₀ : Reader β η} (h₀ : At F r₀ []) (h : Reach F.feed r₀ r) :
    ∃ p, At F r p := by
  induction h with
  | start => exact ⟨[], h₀⟩
  | @call r before input ih =>
    obtain ⟨p, hp⟩ := ih
    have hs := feed_spec hp input
    generalize F.feed r input = res at hs ⊢
    cases hs with
    | more place => exact ⟨_, place⟩
    | control f place => exact ⟨_, place⟩
    | last f place => exact ⟨_, place⟩
    | chunk place => exact ⟨_, place⟩
    | refused place => exact ⟨_, place⟩

/-- A call that fails looks at nothing behind the header. -/
theorem feed_error_take (h : At F r p) {e : ε} (he : (F.feed r input).2 = .error e) :
    ∃ n, n ≤ input.length ∧ p = r.header ∧ (p ++ input.take n).length = F.headerLen ∧
      F.refuse (F.decode (p ++ input.take n)) = some e ∧
      F.feed r (input.take n) = F.feed r input := by
  obtain ⟨hlt, hle, href⟩ := (feed_error_iff h e).mp he
  have frame : ∀ {hd seen : List β}, InFrame F r hd seen → F.headerLen ≤ (hd ++ seen).length := by
    intro hd seen hin
    rw [List.length_append, hin.head_length]
    omega
  cases h with
  | buffering inside => exact absurd (frame inside) (by omega)
  | draining inside => exact absurd (frame inside) (by omega)
  | streaming inside => exact absurd (frame inside) (by omega)
  | header phase eq lt =>
    subst eq
    rw [List.length_append] at hle
    generalize hn : F.headerLen - r.header.length = n
    have hnle : n ≤ input.length := by omega
    have hlen : (r.header ++ input.take n).length = F.headerLen := by
      rw [List.length_append, List.length_take]
      omega
    rw [take_header hnle hlen] at href
    refine ⟨n, hnle, rfl, hlen, href, ?_⟩
    -- with this many bytes or more, the header is the same, and so is the error
    have hfail : ∀ bytes : List β, n ≤ bytes.length → bytes.take n = input.take n →
        F.feed r bytes =
          ({ r with header := [], current := F.decode (r.header ++ input.take n) }, .error e) := by
      intro bytes hb htake
      unfold Format.feed
      rw [phase]
      unfold Format.feedHeader
      simp only [hn, Nat.min_eq_left hb, htake, hlen, Nat.lt_irrefl, if_false, href, phase]
    rw [hfail input hnle rfl]
    refine hfail (input.take n) ?_ ?_
    · rw [List.length_take]
      omega
    · rw [List.take_take, Nat.min_self]

theorem assemble_chunks (h : η) (chunks : List (List β)) (acc final : List β)
    (items : List (Item β η)) :
    assemble acc (chunks.map (.body h · false) ++ .body h final true :: items) =
      .body h (acc ++ (chunks.flatten ++ final)) true :: assemble [] items := by
  induction chunks generalizing acc with
  | nil => rfl
  | cons c chunks ih =>
    rw [List.map_cons, List.cons_append, assemble, ih, List.flatten_cons]
    simp only [List.append_assoc]

/-- Joined, the items are a function of the frames. -/
theorem Rendering.assemble {fs : List (Wire F)} {items : List (Item β η)}
    (h : Rendering [] fs items) : assemble [] items = fs.map Wire.joined := by
  induction fs generalizing items with
  | nil =>
    rw [h.2]
    rfl
  | cons f fs ih =>
    obtain ⟨first, rest, rfl, hfirst, hrest⟩ := h
    unfold Wire.Rendered at hfirst
    rw [List.map_cons, Wire.joined]
    split_ifs at hfirst ⊢ with hw
    · rw [hfirst.2, List.singleton_append, Framing.assemble, ih hrest]
    · obtain ⟨chunks, final, rfl, hpay, -, -⟩ := hfirst
      rw [List.append_assoc, List.singleton_append, assemble_chunks, hpay, ih hrest]

end Framing
