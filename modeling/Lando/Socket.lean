/-
Lando/Socket.lean

The reading end of a byte stream that arrives in segments.

A read takes at most as many bytes as there is room for, and at most the
first segment; an empty read is the end of the stream, so a stream that goes
on has no empty segment (`Flowing`).  What a reader may rely on is in
`read_spec`: it got the next bytes, some if it had room, and the rest is
still to come.  `readExact` takes a fixed number of bytes over as many
segments as they lie in; `fill` reads into a buffer until enough bytes are
there, and may read more; `reads` are all reads to the end, each into a buffer
of the same size.
-/
import Mathlib.Data.List.Basic
import Mathlib.Tactic.SplitIfs

namespace Socket

variable {β : Type}

/-- At most `room` bytes of the first segment; nothing when no segment is
left. -/
def read (room : ℕ) : List (List β) → Option (List β × List (List β))
  | [] => none
  | seg :: segs =>
      if seg.length ≤ room then some (seg, segs) else some (seg.take room, seg.drop room :: segs)

/-- The stream goes on: no segment is empty. -/
def Flowing (segs : List (List β)) : Prop := ∀ seg ∈ segs, seg ≠ []

instance [DecidableEq β] (segs : List (List β)) : Decidable (Flowing segs) :=
  inferInstanceAs (Decidable (∀ _ ∈ segs, _))

/-- Exactly `n` bytes, or nothing when the stream ends before. -/
def readExact : ℕ → List (List β) → Option (List β × List (List β))
  | 0, segs => some ([], segs)
  | _ + 1, [] => none
  | n + 1, seg :: segs =>
      if seg = [] then none
      else if seg.length ≤ n + 1 then
        (readExact (n + 1 - seg.length) segs).map fun r => (seg ++ r.1, r.2)
      else some (seg.take (n + 1), seg.drop (n + 1) :: segs)

variable {segs : List (List β)}

theorem Flowing.tail {seg : List β} (h : Flowing (seg :: segs)) : Flowing segs :=
  fun s hs => h s (List.mem_cons_of_mem _ hs)

theorem Flowing.drop {seg : List β} {n : ℕ} (h : Flowing (seg :: segs)) (hn : n < seg.length) :
    Flowing (seg.drop n :: segs) := by
  intro s hs
  rcases List.mem_cons.mp hs with rfl | hs
  · intro hnil
    have := List.drop_eq_nil_iff.mp hnil
    omega
  · exact h.tail s hs

/-- What a read got, and what is still to come. -/
theorem read_spec {room : ℕ} {bytes : List β} {rest : List (List β)} (h : Flowing segs)
    (he : read room segs = some (bytes, rest)) :
    bytes ++ rest.flatten = segs.flatten ∧ bytes.length ≤ room ∧ (0 < room → bytes ≠ []) ∧
      Flowing rest := by
  cases segs with
  | nil => cases he
  | cons seg segs =>
    have hne := h seg List.mem_cons_self
    have hpos : 0 < seg.length := List.length_pos_iff.mpr hne
    rw [read] at he
    by_cases hle : seg.length ≤ room
    · rw [if_pos hle] at he
      obtain ⟨rfl, rfl⟩ := Prod.mk.inj (Option.some.inj he)
      exact ⟨rfl, hle, fun _ => hne, h.tail⟩
    · rw [if_neg hle] at he
      obtain ⟨rfl, rfl⟩ := Prod.mk.inj (Option.some.inj he)
      refine ⟨?_, ?_, ?_, h.drop (by omega)⟩
      · rw [List.flatten_cons, List.flatten_cons, ← List.append_assoc, List.take_append_drop]
      · rw [List.length_take]
        omega
      · intro hroom hnil
        have hlen := congrArg List.length hnil
        rw [List.length_take, List.length_nil] at hlen
        omega

theorem read_none {room : ℕ} (he : read room segs = none) : segs = [] := by
  cases segs with
  | nil => rfl
  | cons seg segs =>
    rw [read] at he
    split at he <;> cases he

/-- Enough bytes are read in any segments. -/
theorem readExact_spec {n : ℕ} (h : Flowing segs) (hn : n ≤ segs.flatten.length) :
    ∃ rest, readExact n segs = some (segs.flatten.take n, rest) ∧
      rest.flatten = segs.flatten.drop n ∧ Flowing rest := by
  induction segs generalizing n with
  | nil =>
    obtain rfl : n = 0 := Nat.le_zero.mp hn
    exact ⟨[], rfl, rfl, h⟩
  | cons seg segs ih =>
    cases n with
    | zero => exact ⟨seg :: segs, rfl, rfl, h⟩
    | succ n =>
      have hne := h seg List.mem_cons_self
      rw [readExact, if_neg hne]
      by_cases hle : seg.length ≤ n + 1
      · rw [if_pos hle]
        rw [List.flatten_cons, List.length_append] at hn
        obtain ⟨rest, he, hrest, hflow⟩ := ih (n := n + 1 - seg.length) h.tail (by omega)
        refine ⟨rest, ?_, ?_, hflow⟩
        · rw [he, Option.map_some, List.flatten_cons, List.take_append,
            List.take_of_length_le hle]
        · rw [hrest, List.flatten_cons, List.drop_append, List.drop_eq_nil_of_le hle,
            List.nil_append]
      · rw [if_neg hle]
        have hlt : n + 1 ≤ seg.length := by omega
        refine ⟨seg.drop (n + 1) :: segs, ?_, ?_, h.drop (by omega)⟩
        · rw [List.flatten_cons, List.take_append_of_le_length hlt]
        · rw [List.flatten_cons, List.flatten_cons, List.drop_append_of_le_length hlt]

/-- Too few bytes are not. -/
theorem readExact_none {n : ℕ} (hn : segs.flatten.length < n) : readExact n segs = none := by
  induction segs generalizing n with
  | nil =>
    cases n with
    | zero => cases hn
    | succ n => rfl
  | cons seg segs ih =>
    rw [List.flatten_cons, List.length_append] at hn
    cases n with
    | zero => cases hn
    | succ n =>
      rw [readExact]
      by_cases hne : seg = []
      · rw [if_pos hne]
      · rw [if_neg hne, if_pos (by omega), ih (by omega)]
        rfl

theorem length_readExact {n : ℕ} {bytes : List β} {rest : List (List β)}
    (he : readExact n segs = some (bytes, rest)) : bytes.length = n := by
  induction segs generalizing n bytes with
  | nil =>
    cases n with
    | zero =>
      obtain ⟨rfl, -⟩ := Prod.mk.inj (Option.some.inj he)
      rfl
    | succ n => cases he
  | cons seg segs ih =>
    cases n with
    | zero =>
      obtain ⟨rfl, -⟩ := Prod.mk.inj (Option.some.inj he)
      rfl
    | succ n =>
      rw [readExact] at he
      split_ifs at he with hnil hle
      · obtain ⟨⟨more, rest'⟩, hmore, hr⟩ := Option.map_eq_some_iff.mp he
        obtain ⟨rfl, rfl⟩ := Prod.mk.inj hr
        rw [List.length_append, ih hmore]
        omega
      · obtain ⟨rfl, -⟩ := Prod.mk.inj (Option.some.inj he)
        rw [List.length_take]
        omega

/-- What was read stood in front. -/
theorem readExact_flatten {n : ℕ} {bytes : List β} {rest : List (List β)}
    (he : readExact n segs = some (bytes, rest)) : bytes ++ rest.flatten = segs.flatten := by
  induction segs generalizing n bytes with
  | nil =>
    cases n with
    | zero =>
      obtain ⟨rfl, rfl⟩ := Prod.mk.inj (Option.some.inj he)
      rfl
    | succ n => cases he
  | cons seg segs ih =>
    cases n with
    | zero =>
      obtain ⟨rfl, rfl⟩ := Prod.mk.inj (Option.some.inj he)
      rfl
    | succ n =>
      rw [readExact] at he
      split_ifs at he with hnil hle
      · obtain ⟨⟨more, rest'⟩, hmore, hr⟩ := Option.map_eq_some_iff.mp he
        obtain ⟨rfl, rfl⟩ := Prod.mk.inj hr
        rw [List.append_assoc, ih hmore, List.flatten_cons]
      · obtain ⟨rfl, rfl⟩ := Prod.mk.inj (Option.some.inj he)
        rw [List.flatten_cons, List.flatten_cons, ← List.append_assoc, List.take_append_drop]

/-! ### Filling a buffer -/

/-- Reads into a buffer of `cap` bytes until `n` of them are there. -/
def fill (cap n : ℕ) : List β → List (List β) → List β × List (List β)
  | buf, [] => (buf, [])
  | buf, seg :: segs =>
      if n ≤ buf.length then (buf, seg :: segs)
      else if seg.length ≤ cap - buf.length then fill cap n (buf ++ seg) segs
      else (buf ++ seg.take (cap - buf.length), seg.drop (cap - buf.length) :: segs)

theorem fill_of_le {cap n : ℕ} {buf : List β} (h : n ≤ buf.length) :
    fill cap n buf segs = (buf, segs) := by
  cases segs with
  | nil => rfl
  | cons seg segs => rw [fill, if_pos h]

/-- A read on the way. -/
theorem fill_read {cap n : ℕ} {buf bytes : List β} {rest : List (List β)} (hn : n ≤ cap)
    (hlt : buf.length < n) (he : read (cap - buf.length) segs = some (bytes, rest)) :
    fill cap n buf segs = fill cap n (buf ++ bytes) rest := by
  cases segs with
  | nil => cases he
  | cons seg segs =>
    rw [read] at he
    rw [fill, if_neg (Nat.not_le.mpr hlt)]
    by_cases hle : seg.length ≤ cap - buf.length
    · rw [if_pos hle] at he ⊢
      obtain ⟨rfl, rfl⟩ := Prod.mk.inj (Option.some.inj he)
      rfl
    · rw [if_neg hle] at he ⊢
      obtain ⟨rfl, rfl⟩ := Prod.mk.inj (Option.some.inj he)
      -- the buffer is full now
      have hfull : (buf ++ seg.take (cap - buf.length)).length = cap := by
        rw [List.length_append, List.length_take]
        omega
      rw [fill_of_le (by rw [hfull]; exact hn)]

/-- What is in the buffer then, and what is still to come. -/
theorem fill_spec {cap n : ℕ} {buf : List β} (h : Flowing segs) (hn : n ≤ cap)
    (henough : n ≤ (buf ++ segs.flatten).length) :
    (fill cap n buf segs).1 ++ (fill cap n buf segs).2.flatten = buf ++ segs.flatten ∧
      n ≤ (fill cap n buf segs).1.length ∧ Flowing (fill cap n buf segs).2 := by
  induction segs generalizing buf with
  | nil =>
    rw [List.flatten_nil, List.append_nil] at henough
    exact ⟨rfl, henough, h⟩
  | cons seg segs ih =>
    rw [fill]
    by_cases hdone : n ≤ buf.length
    · rw [if_pos hdone]
      exact ⟨rfl, hdone, h⟩
    rw [if_neg hdone]
    by_cases hle : seg.length ≤ cap - buf.length
    · rw [if_pos hle]
      have hassoc : buf ++ seg ++ segs.flatten = buf ++ (seg :: segs).flatten := by
        rw [List.flatten_cons, List.append_assoc]
      rw [← hassoc] at henough ⊢
      exact ih h.tail henough
    · rw [if_neg hle]
      refine ⟨?_, ?_, h.drop (by omega)⟩
      · rw [List.flatten_cons, List.flatten_cons, List.append_assoc, ← List.append_assoc _ _
          segs.flatten, List.take_append_drop]
      · rw [List.length_append, List.length_take]
        omega

/-- It never overflows. -/
theorem length_fill_le {cap n : ℕ} {buf : List β} (h : buf.length ≤ cap) :
    (fill cap n buf segs).1.length ≤ cap := by
  induction segs generalizing buf with
  | nil => exact h
  | cons seg segs ih =>
    rw [fill]
    split_ifs with hdone hle
    · exact h
    · exact ih (by rw [List.length_append]; omega)
    · rw [List.length_append, List.length_take]
      omega

/-- Filling up to `m` on the way to `n`. -/
theorem fill_fill {cap m n : ℕ} {buf : List β} (hmn : m ≤ n) (hn : n ≤ cap) :
    fill cap n (fill cap m buf segs).1 (fill cap m buf segs).2 = fill cap n buf segs := by
  induction segs generalizing buf with
  | nil => rfl
  | cons seg segs ih =>
    by_cases hm : m ≤ buf.length
    · rw [fill_of_le hm]
    have hlt : buf.length < n := by omega
    rcases hread : read (cap - buf.length) (seg :: segs) with - | ⟨bytes, rest⟩
    · exact absurd (read_none hread) (List.cons_ne_nil _ _)
    rw [fill_read (Nat.le_trans hmn hn) (by omega) hread, fill_read hn hlt hread]
    rw [read] at hread
    by_cases hle : seg.length ≤ cap - buf.length
    · rw [if_pos hle] at hread
      obtain ⟨rfl, rfl⟩ := Prod.mk.inj (Option.some.inj hread)
      exact ih
    · rw [if_neg hle] at hread
      obtain ⟨rfl, rfl⟩ := Prod.mk.inj (Option.some.inj hread)
      have hfull : cap ≤ (buf ++ seg.take (cap - buf.length)).length := by
        rw [List.length_append, List.length_take]
        omega
      rw [fill_of_le (Nat.le_trans (Nat.le_trans hmn hn) hfull)]

/-! ### Reading to the end -/

/-- What `k` reads return, each into a buffer of `room` bytes. -/
def readsUpTo (room : ℕ) : ℕ → List (List β) → List (List β)
  | 0, _ => []
  | k + 1, segs =>
      match read room segs with
      | none => []
      | some (bytes, rest) => bytes :: readsUpTo room k rest

/-- What the reads return, each into a buffer of `room` bytes; none returns
nothing. -/
def reads (room : ℕ) (segs : List (List β)) : List (List β) :=
  readsUpTo room segs.flatten.length segs

theorem readsUpTo_spec {room k : ℕ} (h : Flowing segs) (hroom : 0 < room)
    (hk : segs.flatten.length ≤ k) :
    (readsUpTo room k segs).flatten = segs.flatten ∧
      ∀ bytes ∈ readsUpTo room k segs, bytes ≠ [] ∧ bytes.length ≤ room := by
  induction k generalizing segs with
  | zero =>
    rw [List.length_eq_zero_iff.mp (Nat.le_zero.mp hk)]
    exact ⟨rfl, fun bytes hb => by cases hb⟩
  | succ k ih =>
    rw [readsUpTo]
    rcases hread : read room segs with - | ⟨bytes, rest⟩
    · rw [read_none hread]
      exact ⟨rfl, fun bytes hb => by cases hb⟩
    · obtain ⟨hsplit, hle, hne, hflow⟩ := read_spec h hread
      have hpos := List.length_pos_iff.mpr (hne hroom)
      have hlen := congrArg List.length hsplit
      rw [List.length_append] at hlen
      obtain ⟨hflat, hall⟩ := ih hflow (by omega)
      refine ⟨?_, ?_⟩
      · show (bytes :: readsUpTo room k rest).flatten = _
        rw [List.flatten_cons, hflat, hsplit]
      · intro bytes' hb
        rcases List.mem_cons.mp hb with rfl | hb
        · exact ⟨hne hroom, hle⟩
        · exact hall bytes' hb

/-- All bytes are read, in order. -/
theorem reads_spec {room : ℕ} (h : Flowing segs) (hroom : 0 < room) :
    (reads room segs).flatten = segs.flatten ∧ Flowing (reads room segs) := by
  obtain ⟨hflat, hall⟩ := readsUpTo_spec h hroom (Nat.le_refl _)
  exact ⟨hflat, fun bytes hb => (hall bytes hb).1⟩

end Socket
