/-
Lando/DnsQuestions.lean

The question section of a DNS message, as a format.

A name is a sequence of labels of 1 to 63 bytes, each behind its length, and
ends with a zero length; a question is a name, a type and a class of two
bytes each.  The encoding is prefix-free:

    encode q ++ r = encode q' ++ r'   →   q = q' ∧ r = r',

so a byte string has one longest run of complete questions in front
(`Leading`), whoever looks for it.  Editing the class bytes of these questions
keeps the run (`Leading.mapClass`), which is why a message can be rewritten
while it is being walked.
-/
import Mathlib.Data.List.Basic
import Mathlib.Data.UInt

namespace Dns

/-! ### Names and questions -/

/-- A label of a name. -/
structure Label where
  bytes : List UInt8
  nonempty : 0 < bytes.length
  short : bytes.length < 64

/-- The length, and the label. -/
def Label.encode (l : Label) : List UInt8 := UInt8.ofNat l.bytes.length :: l.bytes

/-- The labels of a name, and the root. -/
def encodeName : List Label → List UInt8
  | [] => [0]
  | l :: ls => l.encode ++ encodeName ls

/-- A question as RFC 1035 has it. -/
structure Question where
  name : List Label
  qtype : UInt8 × UInt8
  qclass : UInt8 × UInt8

/-- The name, the type and the class. -/
def Question.encode (q : Question) : List UInt8 :=
  encodeName q.name ++ [q.qtype.1, q.qtype.2, q.qclass.1, q.qclass.2]

/-- A question section. -/
def encodeAll (qs : List Question) : List UInt8 := qs.flatMap Question.encode

@[simp] theorem encodeAll_nil : encodeAll [] = [] := rfl

@[simp] theorem encodeAll_cons (q : Question) (qs : List Question) :
    encodeAll (q :: qs) = q.encode ++ encodeAll qs := rfl

theorem Label.toNat_length (l : Label) : (UInt8.ofNat l.bytes.length).toNat = l.bytes.length := by
  have hshort := l.short
  rw [UInt8.toNat_ofNat']
  omega

theorem Label.length_ne_zero (l : Label) : UInt8.ofNat l.bytes.length ≠ 0 := by
  intro h
  have hlen := l.toNat_length
  rw [h] at hlen
  exact absurd hlen.symm (Nat.ne_of_gt l.nonempty)

theorem Question.length_encode (q : Question) :
    q.encode.length = (encodeName q.name).length + 4 := by
  rw [Question.encode, List.length_append]
  rfl

/-! ### The encoding is prefix-free -/

theorem Label.encode_append_inj {l l' : Label} {r r' : List UInt8}
    (h : l.encode ++ r = l'.encode ++ r') : l = l' ∧ r = r' := by
  obtain ⟨hhead, htail⟩ := List.cons.inj h
  have hlen : l.bytes.length = l'.bytes.length := by
    rw [← l.toNat_length, ← l'.toNat_length, hhead]
  obtain ⟨hbytes, hr⟩ := List.append_inj htail hlen
  cases l
  cases l'
  exact ⟨by simpa using hbytes, hr⟩

theorem encodeName_append_inj {ns ns' : List Label} {r r' : List UInt8}
    (h : encodeName ns ++ r = encodeName ns' ++ r') : ns = ns' ∧ r = r' := by
  induction ns generalizing ns' with
  | nil =>
    cases ns' with
    | nil => exact ⟨rfl, (List.cons.inj h).2⟩
    | cons l' ls' => exact absurd (List.cons.inj h).1.symm l'.length_ne_zero
  | cons l ls ih =>
    cases ns' with
    | nil => exact absurd (List.cons.inj h).1 l.length_ne_zero
    | cons l' ls' =>
      rw [encodeName, encodeName, List.append_assoc, List.append_assoc] at h
      obtain ⟨rfl, hrest⟩ := Label.encode_append_inj h
      obtain ⟨rfl, hr⟩ := ih hrest
      exact ⟨rfl, hr⟩

theorem Question.encode_append_inj {q q' : Question} {r r' : List UInt8}
    (h : q.encode ++ r = q'.encode ++ r') : q = q' ∧ r = r' := by
  rw [Question.encode, Question.encode, List.append_assoc, List.append_assoc] at h
  obtain ⟨hname, hrest⟩ := encodeName_append_inj h
  cases q
  cases q'
  simp only [List.cons_append, List.nil_append, List.cons.injEq] at hname hrest
  obtain ⟨h₁, h₂, h₃, h₄, hr⟩ := hrest
  exact ⟨by rw [Question.mk.injEq]; exact ⟨hname, Prod.ext h₁ h₂, Prod.ext h₃ h₄⟩, hr⟩

/-! ### The questions in front -/

/-- `qs` are the complete questions in front of `body`, up to `n` of them, and
`rest` is what follows. -/
structure Leading (n : ℕ) (body : List UInt8) (qs : List Question) (rest : List UInt8) :
    Prop where
  split : body = encodeAll qs ++ rest
  bounded : qs.length ≤ n
  maximal : qs.length < n → ∀ q tail, rest ≠ Question.encode q ++ tail

theorem Leading.zero (body : List UInt8) : Leading 0 body [] body :=
  ⟨rfl, Nat.le_refl 0, fun h => absurd h (Nat.lt_irrefl 0)⟩

theorem Leading.none (n : ℕ) {body : List UInt8}
    (h : ∀ q tail, body ≠ Question.encode q ++ tail) : Leading n body [] body :=
  ⟨rfl, Nat.zero_le n, fun _ => h⟩

theorem Leading.cons {n : ℕ} {body rest : List UInt8} {qs : List Question} (q : Question)
    (h : Leading n body qs rest) : Leading (n + 1) (q.encode ++ body) (q :: qs) rest where
  split := by rw [encodeAll_cons, List.append_assoc, ← h.split]
  bounded := Nat.succ_le_succ h.bounded
  maximal := fun hlt => h.maximal (Nat.lt_of_succ_lt_succ hlt)

theorem Leading.tail {n : ℕ} {q : Question} {qs : List Question} {rest : List UInt8} {body}
    (h : Leading (n + 1) body (q :: qs) rest) : Leading n (encodeAll qs ++ rest) qs rest :=
  ⟨rfl, Nat.le_of_succ_le_succ h.bounded, fun hlt => h.maximal (Nat.succ_lt_succ hlt)⟩

/-- **The questions in front are unique.** -/
theorem Leading.unique {n : ℕ} {body rest rest' : List UInt8} {qs qs' : List Question}
    (h : Leading n body qs rest) (h' : Leading n body qs' rest') : qs = qs' ∧ rest = rest' := by
  induction qs generalizing n body qs' with
  | nil =>
    have hrest : rest = encodeAll qs' ++ rest' := h.split.symm.trans h'.split
    cases qs' with
    | nil => exact ⟨rfl, hrest⟩
    | cons q' qs' =>
      rw [encodeAll_cons, List.append_assoc] at hrest
      exact absurd hrest (h.maximal (Nat.lt_of_lt_of_le (Nat.succ_pos _) h'.bounded) _ _)
  | cons q qs ih =>
    have hbody := h.split.symm.trans h'.split
    rw [encodeAll_cons, List.append_assoc] at hbody
    cases qs' with
    | nil =>
      exact absurd hbody.symm (h'.maximal (Nat.lt_of_lt_of_le (Nat.succ_pos _) h.bounded) _ _)
    | cons q' qs' =>
      obtain ⟨n, rfl⟩ : ∃ k, n = k + 1 := Nat.exists_eq_succ_of_ne_zero
        (Nat.ne_of_gt (Nat.lt_of_lt_of_le (Nat.succ_pos _) h.bounded))
      rw [encodeAll_cons, List.append_assoc] at hbody
      obtain ⟨rfl, htail⟩ := Question.encode_append_inj hbody
      have ht' := h'.tail
      rw [← htail] at ht'
      obtain ⟨rfl, hr⟩ := ih h.tail ht'
      exact ⟨rfl, hr⟩

/-! ### Editing the class -/

/-- The question with the high byte of its class edited. -/
def Question.mapClass (f : UInt8 → UInt8) (q : Question) : Question :=
  { q with qclass := (f q.qclass.1, q.qclass.2) }

/-- Where the high class byte stands in a question. -/
def Question.classAt (q : Question) : ℕ := (encodeName q.name).length + 2

/-- Where the high class bytes stand, the first question beginning at `start`. -/
def classOffsets : ℕ → List Question → List ℕ
  | _, [] => []
  | start, q :: qs => (start + q.classAt) :: classOffsets (start + q.encode.length) qs

theorem length_classOffsets (start : ℕ) (qs : List Question) :
    (classOffsets start qs).length = qs.length := by
  induction qs generalizing start with
  | nil => rfl
  | cons q qs ih => rw [classOffsets, List.length_cons, List.length_cons, ih]

@[simp] theorem Question.length_encode_mapClass (f : UInt8 → UInt8) (q : Question) :
    (q.mapClass f).encode.length = q.encode.length := by
  rw [Question.length_encode, Question.length_encode]
  rfl

theorem length_encodeAll_mapClass (f : UInt8 → UInt8) (qs : List Question) :
    (encodeAll (qs.map (Question.mapClass f))).length = (encodeAll qs).length := by
  induction qs with
  | nil => rfl
  | cons q qs ih => simp [ih]

/-- **An edit of the classes keeps the questions.** -/
theorem Leading.mapClass {n : ℕ} {body rest : List UInt8} {qs : List Question}
    (f : UInt8 → UInt8) (h : Leading n body qs rest) :
    Leading n (encodeAll (qs.map (Question.mapClass f)) ++ rest) (qs.map (Question.mapClass f))
      rest := by
  have hlen : (qs.map (Question.mapClass f)).length = qs.length := List.length_map _
  exact ⟨rfl, hlen ▸ h.bounded, hlen ▸ h.maximal⟩

/-- Writing the high class byte of the first question. -/
theorem set_classAt (f : UInt8 → UInt8) (pre rest : List UInt8) (q : Question) :
    (pre ++ (q.encode ++ rest)).set (pre.length + q.classAt) (f q.qclass.1) =
      pre ++ ((q.mapClass f).encode ++ rest) := by
  rw [List.set_append_right _ _ (Nat.le_add_right _ _), Nat.add_sub_cancel_left,
    Question.encode, List.append_assoc, Question.classAt,
    List.set_append_right _ _ (Nat.le_add_right _ _), Nat.add_sub_cancel_left]
  simp [Question.encode, Question.mapClass]

theorem getElem?_classAt (pre rest : List UInt8) (q : Question) :
    (pre ++ (q.encode ++ rest))[pre.length + q.classAt]? = some q.qclass.1 := by
  rw [List.getElem?_append_right (Nat.le_add_right _ _), Nat.add_sub_cancel_left,
    Question.encode, List.append_assoc, Question.classAt,
    List.getElem?_append_right (Nat.le_add_right _ _), Nat.add_sub_cancel_left]
  rfl

theorem Question.getElem?_mapClass (f : UInt8 → UInt8) (q : Question) (i : ℕ) :
    (q.mapClass f).encode[i]? = if i = q.classAt then q.encode[i]?.map f else q.encode[i]? := by
  have hset := set_classAt f [] [] q
  have hget := getElem?_classAt [] [] q
  simp only [List.nil_append, List.append_nil, List.length_nil, Nat.zero_add] at hset hget
  rw [← hset, List.getElem?_set]
  by_cases hi : q.classAt = i
  · obtain ⟨hlt, _⟩ := List.getElem?_eq_some_iff.mp hget
    rw [if_pos hi, if_pos hi.symm, ← hi, hget, if_pos hlt]
    rfl
  · rw [if_neg hi, if_neg (Ne.symm hi)]

theorem le_of_mem_classOffsets {start i : ℕ} {qs : List Question}
    (h : i ∈ classOffsets start qs) : start ≤ i := by
  induction qs generalizing start with
  | nil => exact absurd h List.not_mem_nil
  | cons q qs ih =>
    rcases List.mem_cons.mp h with rfl | h
    · exact Nat.le_add_right _ _
    · exact Nat.le_trans (Nat.le_add_right _ _) (ih h)

/-- **An edit of the classes changes the class bytes and nothing else.** -/
theorem getElem?_mapClass (f : UInt8 → UInt8) (qs : List Question) (rest : List UInt8)
    (start i : ℕ) :
    (encodeAll (qs.map (Question.mapClass f)) ++ rest)[i]? =
      if start + i ∈ classOffsets start qs then (encodeAll qs ++ rest)[i]?.map f
      else (encodeAll qs ++ rest)[i]? := by
  induction qs generalizing start i with
  | nil => simp [classOffsets]
  | cons q qs ih =>
    simp only [List.map_cons, encodeAll_cons, List.append_assoc, classOffsets, List.mem_cons,
      Nat.add_left_cancel_iff]
    by_cases hi : i < q.encode.length
    · have hlater : ¬ start + i ∈ classOffsets (start + q.encode.length) qs := fun h => by
        have := le_of_mem_classOffsets h
        omega
      rw [List.getElem?_append_left (by rwa [Question.length_encode_mapClass]),
        List.getElem?_append_left hi, Question.getElem?_mapClass]
      simp only [hlater, or_false]
    · have hnot : i ≠ q.classAt := fun h => by
        have hlen := q.length_encode
        rw [Question.classAt] at h
        omega
      have hshift : start + q.encode.length + (i - q.encode.length) = start + i := by omega
      rw [List.getElem?_append_right (by rw [Question.length_encode_mapClass]; omega),
        List.getElem?_append_right (Nat.le_of_not_lt hi), Question.length_encode_mapClass,
        ih (start + q.encode.length), hshift]
      simp only [hnot, false_or]

end Dns
