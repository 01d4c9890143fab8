/-
Lando/Mdns.lean

The mDNS relay (`mdns.rs`): a query is forwarded onto the LAN with the QU bit
of every question set, and each answer goes back with it cleared.

The message is edited in place, so a function returns its result and the
message it leaves, on an error too.  One run lemma says what the walk over the
questions does: with `qs` the complete questions in front, as many as the
header counts at most,

    header ++ encodeAll qs ++ rest   ↦   header ++ encodeAll (qs with the bit put) ++ rest

and the walk succeeds exactly if `qs` are as many as the header counts.  The
edit keeps the questions (`Leading.mapClass`), so every law about two calls in
a row is one about putting a bit twice.
-/
import Lando.Bytes
import Lando.DnsQuestions
import Lando.Hex

namespace Lando

namespace Mdns

open Bytes Dns

/-! ### The code -/

/-- Smallest message that can carry a header and one question. -/
def headerLen : ℕ := 12

/-- Top bit of a question's class: "answer me by unicast". -/
def quBit : UInt8 := 0x80

/-- `MdnsError`: the message is shorter than it says. -/
inductive MdnsError
  | malformed
  deriving DecidableEq, Repr

/-- Advances past a DNS name, returning the offset just after it. -/
def skipName (msg : List UInt8) (pos : ℕ) : Except MdnsError ℕ :=
  if h : pos < msg.length then
    let len := msg[pos]
    -- compression pointers are rejected rather than followed
    if len &&& 0xc0 ≠ 0 then .error .malformed
    else if len = 0 then .ok (pos + 1)
    else if msg.length < pos + 1 + len.toNat then .error .malformed
    else skipName msg (pos + 1 + len.toNat)
  else .error .malformed
termination_by msg.length - pos

/-- `if set { b |= QU_BIT } else { b &= !QU_BIT }`. -/
def putQu (set : Bool) (b : UInt8) : UInt8 := if set then b ||| quBit else b &&& ~~~quBit

/-- The loop of `rewrite_question_class`, with the questions left to visit. -/
def rewriteLoop (set : Bool) : ℕ → List UInt8 → ℕ → Except MdnsError Unit × List UInt8
  | 0, msg, _ => (.ok (), msg)
  | left + 1, msg, pos =>
    match skipName msg pos with
    | .error e => (.error e, msg)
    | .ok pos =>
      -- QTYPE then QCLASS
      let classAt := pos + 2
      if msg.length < classAt + 2 then (.error .malformed, msg)
      else
        rewriteLoop set left (msg.set classAt (putQu set (msg.getD classAt 0))) (classAt + 2)

/-- The question count of the header. -/
def questionCount (msg : List UInt8) : UInt16 := UInt16.ofNat (fromBE (slice msg 4 6))

/-- `rewrite_question_class`: the QU bit of every question is set, or cleared. -/
def rewriteQuestionClass (msg : List UInt8) (set : Bool) : Except MdnsError UInt16 × List UInt8 :=
  if msg.length < headerLen then (.error .malformed, msg)
  else
    let questions := questionCount msg
    match rewriteLoop set questions.toNat msg headerLen with
    | (.error e, msg) => (.error e, msg)
    | (.ok (), msg) => (.ok questions, msg)

/-- Rewrites every question to request a unicast reply. -/
def requestUnicastReplies (msg : List UInt8) : Except MdnsError UInt16 × List UInt8 :=
  rewriteQuestionClass msg true

/-- Clears the QU bit from every question. -/
def restoreMulticastQuestions (msg : List UInt8) : Except MdnsError UInt16 × List UInt8 :=
  rewriteQuestionClass msg false

/-- True if this looks like a response rather than a query. -/
def isResponse (msg : List UInt8) : Bool :=
  decide (headerLen ≤ msg.length) && msg.getD 2 0 &&& 0x80 != 0

/-- The message's transaction id. -/
def transactionId (msg : List UInt8) : Option UInt16 :=
  if msg.length < headerLen then none else some (UInt16.ofNat (fromBE (slice msg 0 2)))

/-- Overwrites the transaction id. -/
def setTransactionId (msg : List UInt8) (id : UInt16) : List UInt8 :=
  if headerLen ≤ msg.length then blit msg 0 (toBE 2 id.toNat) else msg

/-- What `serve` puts on the LAN for a query, and the id it keeps. -/
def forwardQuery (query : List UInt8) : Option (UInt16 × List UInt8) :=
  let id := (transactionId query).getD 0
  match requestUnicastReplies query with
  | (.error _, _) => none
  | (.ok _, query) => some (id, query)

/-- What `serve` hands to the client for a datagram from the LAN; whether the
questions could be restored is ignored. -/
def relayAnswer (id : UInt16) (answer : List UInt8) : Option (List UInt8) :=
  if isResponse answer then some (restoreMulticastQuestions (setTransactionId answer id)).2
  else none

/-! ### Skipping a name -/

theorem and_c0_eq_zero_iff (b : UInt8) : b &&& 0xc0 = 0 ↔ b.toNat < 64 := by
  have key : ∀ i : Fin 256, i.val &&& 192 = 0 ↔ i.val < 64 := by decide +kernel
  rw [← UInt8.toNat_inj, UInt8.toNat_and]
  exact key ⟨b.toNat, b.toNat_lt⟩

theorem skipName_encodeName (ns : List Label) (pre rest : List UInt8) :
    skipName (pre ++ (encodeName ns ++ rest)) pre.length =
      .ok (pre.length + (encodeName ns).length) := by
  induction ns generalizing pre with
  | nil =>
    rw [skipName]
    simp [encodeName]
  | cons l ls ih =>
    have hlen := l.toNat_length
    have hshort := l.short
    have hne := l.length_ne_zero
    have hmask : UInt8.ofNat l.bytes.length &&& 0xc0 = 0 := by
      rw [and_c0_eq_zero_iff, hlen]
      exact hshort
    have hassoc : pre ++ (encodeName (l :: ls) ++ rest) =
        (pre ++ l.encode) ++ (encodeName ls ++ rest) := by
      rw [encodeName, List.append_assoc, List.append_assoc]
    have hpre : pre.length + 1 + l.bytes.length = (pre ++ l.encode).length := by
      simp only [Label.encode, List.length_append, List.length_cons]
      omega
    have hbyte : ∀ _ : pre.length < (pre ++ (encodeName (l :: ls) ++ rest)).length,
        (pre ++ (encodeName (l :: ls) ++ rest))[pre.length] = UInt8.ofNat l.bytes.length := by
      simp [encodeName, Label.encode]
    have hroom : ¬ (pre ++ (encodeName (l :: ls) ++ rest)).length <
        pre.length + 1 + l.bytes.length := by
      rw [hassoc, List.length_append, hpre]
      omega
    rw [skipName, dif_pos (by simp [encodeName, Label.encode])]
    simp only [hbyte, hmask, hne, hlen, hroom, ne_eq, not_true_eq_false, if_false]
    rw [hassoc, hpre, ih, List.length_append, encodeName, List.length_append, Nat.add_assoc]

theorem skipName_ok {msg : List UInt8} {pos p : ℕ} (h : skipName msg pos = .ok p) :
    ∃ ns rest, msg.drop pos = encodeName ns ++ rest := by
  induction pos using skipName.induct msg with
  | case1 pos hlt len hmask =>
    rw [skipName, dif_pos hlt, if_pos hmask] at h
    cases h
  | case2 pos hlt len hmask hzero =>
    refine ⟨[], msg.drop (pos + 1), ?_⟩
    rw [List.drop_eq_getElem_cons hlt]
    exact congrArg (· :: msg.drop (pos + 1)) hzero
  | case3 pos hlt len hmask hzero hroom =>
    rw [skipName, dif_pos hlt, if_neg hmask, if_neg hzero, if_pos hroom] at h
    cases h
  | case4 pos hlt len hmask hzero hroom ih =>
    rw [skipName, dif_pos hlt, if_neg hmask, if_neg hzero, if_neg hroom] at h
    obtain ⟨ns, rest, hrest⟩ := ih h
    have hshort := (and_c0_eq_zero_iff len).mp (not_not.mp hmask)
    have hbytes : ((msg.drop (pos + 1)).take len.toNat).length = len.toNat := by
      rw [List.length_take, List.length_drop]
      omega
    have hpos : 0 < len.toNat := Nat.pos_of_ne_zero fun h0 => hzero (UInt8.toNat_inj.mp h0)
    -- the label behind its length byte
    let l : Label := ⟨(msg.drop (pos + 1)).take len.toNat, by rw [hbytes]; exact hpos,
      by rw [hbytes]; exact hshort⟩
    have hl : l.encode = len :: (msg.drop (pos + 1)).take len.toNat := by
      rw [Label.encode, hbytes, UInt8.ofNat_toNat]
    have hbehind : (msg.drop (pos + 1)).drop len.toNat = encodeName ns ++ rest := by
      rw [List.drop_drop, hrest]
    refine ⟨l :: ns, rest, ?_⟩
    rw [encodeName, hl, List.drop_eq_getElem_cons hlt, List.append_assoc, ← hbehind,
      List.cons_append, List.take_append_drop]
  | case5 pos hge =>
    rw [skipName, dif_neg hge] at h
    cases h

/-! ### The walk over the questions -/

/-- The result of the loop: it is an error if there are fewer questions than
the header counts. -/
def walkResult (left : ℕ) (qs : List Question) : Except MdnsError Unit :=
  if qs.length = left then .ok () else .error .malformed

theorem walkResult_cons (left : ℕ) (q : Question) (qs : List Question) :
    walkResult (left + 1) (q :: qs) = walkResult left qs := by
  simp only [walkResult, List.length_cons, Nat.add_right_cancel_iff]

/-- One question: its bit is put and the walk goes on behind it. -/
theorem rewriteLoop_question (set : Bool) (left : ℕ) (pre rest : List UInt8) (q : Question) :
    rewriteLoop set (left + 1) (pre ++ (q.encode ++ rest)) pre.length =
      rewriteLoop set left ((pre ++ (q.mapClass (putQu set)).encode) ++ rest)
        (pre ++ (q.mapClass (putQu set)).encode).length := by
  have hskip := skipName_encodeName q.name pre
    ([q.qtype.1, q.qtype.2, q.qclass.1, q.qclass.2] ++ rest)
  rw [← List.append_assoc (encodeName q.name), ← Question.encode] at hskip
  have hlen := q.length_encode
  have hroom : ¬ (pre ++ (q.encode ++ rest)).length <
      pre.length + (encodeName q.name).length + 2 + 2 := by
    simp only [List.length_append, hlen]
    omega
  have hat : pre.length + (encodeName q.name).length + 2 = pre.length + q.classAt := by
    rw [Question.classAt, Nat.add_assoc]
  have hbyte : (pre ++ (q.encode ++ rest)).getD (pre.length + q.classAt) 0 = q.qclass.1 := by
    rw [List.getD_eq_getElem?_getD, getElem?_classAt]
    rfl
  have hend : pre.length + q.classAt + 2 = (pre ++ (q.mapClass (putQu set)).encode).length := by
    rw [List.length_append, Question.length_encode_mapClass, hlen, Question.classAt]
    omega
  rw [rewriteLoop, hskip]
  simp only [if_neg hroom]
  rw [hat, hbyte, set_classAt, hend, List.append_assoc]

/-- No question: the walk stops and the message stays. -/
theorem rewriteLoop_none (set : Bool) (left : ℕ) (pre body : List UInt8)
    (h : ∀ q tail, body ≠ Question.encode q ++ tail) :
    rewriteLoop set (left + 1) (pre ++ body) pre.length = (.error .malformed, pre ++ body) := by
  rw [rewriteLoop]
  cases hskip : skipName (pre ++ body) pre.length with
  | error e => cases e; rfl
  | ok p =>
    obtain ⟨ns, rest, hrest⟩ := skipName_ok hskip
    rw [List.drop_left] at hrest
    -- the name was skipped, so it is the class that does not fit
    have hp : p = pre.length + (encodeName ns).length := by
      rw [hrest, skipName_encodeName] at hskip
      exact (Except.ok.inj hskip).symm
    have hshort : rest.length < 4 := by
      by_contra hge
      obtain ⟨t₁, t₂, c₁, c₂, tail, rfl⟩ : ∃ t₁ t₂ c₁ c₂ tail, rest = t₁ :: t₂ :: c₁ :: c₂ :: tail := by
        match rest, hge with
        | t₁ :: t₂ :: c₁ :: c₂ :: tail, _ => exact ⟨t₁, t₂, c₁, c₂, tail, rfl⟩
        | [], hge | [_], hge | [_, _], hge | [_, _, _], hge => simp at hge
      exact h ⟨ns, (t₁, t₂), (c₁, c₂)⟩ tail (by rw [hrest, Question.encode, List.append_assoc]; rfl)
    have hroom : (pre ++ body).length < p + 2 + 2 := by
      rw [hp, hrest]
      simp only [List.length_append]
      omega
    simp only [if_pos hroom]

/-- **What the walk does**: the bit is put in the complete questions in front,
as many as are left to visit. -/
theorem rewriteLoop_spec (set : Bool) (left : ℕ) (pre body : List UInt8) :
    ∃ qs rest, Leading left body qs rest ∧
      rewriteLoop set left (pre ++ body) pre.length =
        (walkResult left qs, pre ++ (encodeAll (qs.map (Question.mapClass (putQu set))) ++ rest)) := by
  induction left generalizing pre body with
  | zero => exact ⟨[], body, Leading.zero body, rfl⟩
  | succ left ih =>
    by_cases hq : ∃ q tail, body = Question.encode q ++ tail
    · obtain ⟨q, tail, rfl⟩ := hq
      obtain ⟨qs, rest, hlead, hrun⟩ := ih (pre ++ (q.mapClass (putQu set)).encode) tail
      refine ⟨q :: qs, rest, hlead.cons q, ?_⟩
      rw [rewriteLoop_question, hrun, walkResult_cons, List.map_cons, encodeAll_cons,
        List.append_assoc, List.append_assoc]
    · push Not at hq
      refine ⟨[], body, Leading.none _ hq, ?_⟩
      rw [rewriteLoop_none set left pre body hq]
      rfl

/-! ### Rewriting a message -/

/-- `qs` are the complete questions in front of the body of `msg`, up to the
number its header counts. -/
def Visited (msg : List UInt8) (qs : List Question) (rest : List UInt8) : Prop :=
  headerLen ≤ msg.length ∧ Leading (questionCount msg).toNat (msg.drop headerLen) qs rest

/-- The message with the bit of these questions put. -/
def rewritten (set : Bool) (msg : List UInt8) (qs : List Question) (rest : List UInt8) :
    List UInt8 :=
  msg.take headerLen ++ (encodeAll (qs.map (Question.mapClass (putQu set))) ++ rest)

/-- The number of questions, if none of the counted ones is missing. -/
def countResult (msg : List UInt8) (qs : List Question) : Except MdnsError UInt16 :=
  if qs.length = (questionCount msg).toNat then .ok (questionCount msg) else .error .malformed

theorem exists_visited {msg : List UInt8} (h : headerLen ≤ msg.length) :
    ∃ qs rest, Visited msg qs rest := by
  obtain ⟨qs, rest, hlead, _⟩ :=
    rewriteLoop_spec true (questionCount msg).toNat (msg.take headerLen) (msg.drop headerLen)
  exact ⟨qs, rest, h, hlead⟩

theorem rewriteQuestionClass_eq {msg : List UInt8} {qs : List Question} {rest : List UInt8}
    (set : Bool) (h : Visited msg qs rest) :
    rewriteQuestionClass msg set = (countResult msg qs, rewritten set msg qs rest) := by
  obtain ⟨qs', rest', hlead, hrun⟩ :=
    rewriteLoop_spec set (questionCount msg).toNat (msg.take headerLen) (msg.drop headerLen)
  obtain ⟨rfl, rfl⟩ := hlead.unique h.2
  have htake : (msg.take headerLen).length = headerLen := by
    rw [List.length_take, Nat.min_eq_left h.1]
  rw [htake, List.take_append_drop] at hrun
  rw [rewriteQuestionClass, if_neg (Nat.not_lt.mpr h.1)]
  simp only [hrun, walkResult, countResult, rewritten]
  by_cases hall : qs'.length = (questionCount msg).toNat
  · simp only [if_pos hall]
  · simp only [if_neg hall]

theorem rewriteQuestionClass_short {msg : List UInt8} (set : Bool) (h : msg.length < headerLen) :
    rewriteQuestionClass msg set = (.error .malformed, msg) := by
  rw [rewriteQuestionClass, if_pos h]

/-- What a front of `headerLen` bytes keeps. -/
theorem questionCount_congr {msg msg' : List UInt8}
    (h : msg'.take headerLen = msg.take headerLen) : questionCount msg' = questionCount msg := by
  have hslice : ∀ m : List UInt8, slice m 4 6 = slice (m.take headerLen) 4 6 := fun m => by
    simp only [slice, headerLen, List.drop_take, List.take_take]
    rfl
  rw [questionCount, questionCount, hslice msg', h, ← hslice]

theorem take_rewritten {msg : List UInt8} (set : Bool) (qs : List Question) (rest : List UInt8)
    (h : headerLen ≤ msg.length) :
    (rewritten set msg qs rest).take headerLen = msg.take headerLen := by
  have htake : (msg.take headerLen).length = headerLen := by
    rw [List.length_take, Nat.min_eq_left h]
  exact List.take_left' htake

theorem drop_rewritten {msg : List UInt8} (set : Bool) (qs : List Question) (rest : List UInt8)
    (h : headerLen ≤ msg.length) :
    (rewritten set msg qs rest).drop headerLen =
      encodeAll (qs.map (Question.mapClass (putQu set))) ++ rest := by
  have htake : (msg.take headerLen).length = headerLen := by
    rw [List.length_take, Nat.min_eq_left h]
  exact List.drop_left' htake

theorem length_rewritten {msg : List UInt8} {qs : List Question} {rest : List UInt8} (set : Bool)
    (h : Visited msg qs rest) : (rewritten set msg qs rest).length = msg.length := by
  have hsplit := congrArg List.length h.2.split
  rw [List.length_drop, List.length_append] at hsplit
  have hhead := h.1
  rw [rewritten, List.length_append, List.length_take, List.length_append,
    length_encodeAll_mapClass]
  omega

/-- **The questions of the rewritten message are those of the original**, with
their bits put. -/
theorem Visited.rewritten {msg : List UInt8} {qs : List Question} {rest : List UInt8} (set : Bool)
    (h : Visited msg qs rest) :
    Visited (Mdns.rewritten set msg qs rest) (qs.map (Question.mapClass (putQu set))) rest := by
  refine ⟨?_, ?_⟩
  · rw [length_rewritten set h]
    exact h.1
  · rw [questionCount_congr (take_rewritten set qs rest h.1), drop_rewritten set qs rest h.1]
    exact h.2.mapClass _

theorem testBit_putQu (set : Bool) (b : UInt8) (k : ℕ) :
    (putQu set b).toNat.testBit k = if k = 7 then set else b.toNat.testBit k := by
  have hset : (0x80 : UInt8).toNat.testBit k = decide (7 = k) := @Nat.testBit_two_pow 7 k
  have hclear : (~~~(0x80 : UInt8)).toNat.testBit k = decide (k < 7) :=
    Nat.testBit_two_pow_sub_one 7 k
  have hhigh : 8 ≤ k → b.toNat.testBit k = false := fun hk =>
    Nat.testBit_lt_two_pow (Nat.lt_of_lt_of_le b.toNat_lt (Nat.pow_le_pow_right (by decide) hk))
  cases set with
  | true =>
    rw [putQu, if_pos rfl, quBit, UInt8.toNat_or, Nat.testBit_or, hset]
    split_ifs with hk
    · simp [hk]
    · simp [Ne.symm hk]
  | false =>
    rw [putQu, if_neg Bool.false_ne_true, quBit, UInt8.toNat_and, Nat.testBit_and, hclear]
    split_ifs with hk
    · simp [hk]
    · rcases Nat.lt_or_ge k 7 with hlt | hge
      · simp [hlt]
      · simp [hhigh (by omega)]

theorem putQu_putQu (set set' : Bool) (b : UInt8) : putQu set' (putQu set b) = putQu set' b := by
  refine UInt8.toNat_inj.mp (Nat.eq_of_testBit_eq fun k => ?_)
  rw [testBit_putQu, testBit_putQu, testBit_putQu]
  split_ifs <;> rfl

/-- The second of two calls decides. -/
theorem rewriteQuestionClass_twice (msg : List UInt8) (set set' : Bool) :
    rewriteQuestionClass (rewriteQuestionClass msg set).2 set' = rewriteQuestionClass msg set' := by
  by_cases hlen : msg.length < headerLen
  · rw [rewriteQuestionClass_short set hlen, rewriteQuestionClass_short set' hlen]
  · obtain ⟨qs, rest, h⟩ := exists_visited (Nat.le_of_not_lt hlen)
    have hput : ∀ q : Question, (q.mapClass (putQu set)).mapClass (putQu set') =
        q.mapClass (putQu set') := fun q => by
      simp only [Question.mapClass, putQu_putQu]
    rw [rewriteQuestionClass_eq set h, rewriteQuestionClass_eq set' h,
      rewriteQuestionClass_eq set' (h.rewritten set), countResult, countResult,
      questionCount_congr (take_rewritten set qs rest h.1), List.length_map]
    refine Prod.ext rfl ?_
    rw [Mdns.rewritten, take_rewritten set qs rest h.1, List.map_map, Mdns.rewritten]
    simp only [Function.comp_def, hput]

/-! ### Both calls on one message -/

/-- The question section of `msg` is `qs`, and `rest` follows it. -/
structure Asks (msg : List UInt8) (qs : List Question) (rest : List UInt8) : Prop where
  header : headerLen ≤ msg.length
  counted : qs.length = (questionCount msg).toNat
  body : msg.drop headerLen = encodeAll qs ++ rest

theorem Asks.visited {msg : List UInt8} {qs : List Question} {rest : List UInt8}
    (h : Asks msg qs rest) : Visited msg qs rest :=
  ⟨h.header, h.body, Nat.le_of_eq h.counted, fun hlt => absurd h.counted (Nat.ne_of_lt hlt)⟩

theorem Asks.split {msg : List UInt8} {qs : List Question} {rest : List UInt8}
    (h : Asks msg qs rest) : msg = msg.take headerLen ++ (encodeAll qs ++ rest) := by
  rw [← h.body, List.take_append_drop]

/-- **A message is rewritten exactly if it holds the questions it counts.** -/
theorem rewriteQuestionClass_ok_iff {msg : List UInt8} {set : Bool} {n : UInt16} :
    (rewriteQuestionClass msg set).1 = .ok n ↔ n = questionCount msg ∧ ∃ qs rest, Asks msg qs rest := by
  constructor
  · intro hok
    by_cases hlen : msg.length < headerLen
    · rw [rewriteQuestionClass_short set hlen] at hok
      cases hok
    · obtain ⟨qs, rest, h⟩ := exists_visited (Nat.le_of_not_lt hlen)
      rw [rewriteQuestionClass_eq set h, countResult] at hok
      split_ifs at hok with hall
      exact ⟨(Except.ok.inj hok).symm, qs, rest, h.1, hall, h.2.split⟩
  · rintro ⟨rfl, qs, rest, h⟩
    rw [rewriteQuestionClass_eq set h.visited, countResult, if_pos h.counted]

/-- `msg'` is `msg` with the top bits at the offsets `offs` put to `set`. -/
structure TopBitsPut (set : Bool) (offs : List ℕ) (msg msg' : List UInt8) : Prop where
  length : msg'.length = msg.length
  bits : ∀ i (h : i < msg.length) (h' : i < msg'.length) (k : ℕ),
    msg'[i].toNat.testBit k =
      if k = 7 ∧ i ∈ offs then set else msg[i].toNat.testBit k

theorem Visited.topBitsPut {msg : List UInt8} {qs : List Question} {rest : List UInt8}
    (set : Bool) (h : Visited msg qs rest) :
    TopBitsPut set (classOffsets headerLen qs) msg (Mdns.rewritten set msg qs rest) := by
  refine ⟨length_rewritten set h, fun i hi hi' k => ?_⟩
  have htake : (msg.take headerLen).length = headerLen := by
    rw [List.length_take, Nat.min_eq_left h.1]
  have hbyte : (Mdns.rewritten set msg qs rest)[i]? =
      if i ∈ classOffsets headerLen qs then msg[i]?.map (putQu set) else msg[i]? := by
    rcases Nat.lt_or_ge i headerLen with hfront | hbehind
    · have hnot : i ∉ classOffsets headerLen qs := fun hmem =>
        Nat.not_le.mpr hfront (le_of_mem_classOffsets hmem)
      rw [if_neg hnot, Mdns.rewritten, List.getElem?_append_left (by omega),
        List.getElem?_take_of_lt hfront]
    · have hget := getElem?_mapClass (putQu set) qs rest headerLen (i - headerLen)
      have hmsg : msg[i]? = (encodeAll qs ++ rest)[i - headerLen]? := by
        rw [← h.2.split, List.getElem?_drop, Nat.add_sub_cancel' hbehind]
      rw [Nat.add_sub_cancel' hbehind] at hget
      rw [Mdns.rewritten, List.getElem?_append_right (by omega), htake, hget, hmsg]
  rw [List.getElem?_eq_getElem hi, List.getElem?_eq_getElem hi'] at hbyte
  by_cases hmem : i ∈ classOffsets headerLen qs
  · rw [if_pos hmem] at hbyte
    rw [Option.some.inj hbyte, testBit_putQu]
    simp only [hmem, and_true]
  · rw [if_neg hmem] at hbyte
    rw [Option.some.inj hbyte]
    simp only [hmem, and_false, if_false]

/-- **Requesting and restoring, on any message**: they succeed on the same
messages, return the count of the header, put the top class bit of each counted
question and no other bit, and the second of two calls decides. -/
theorem requestUnicastReplies_restoreMulticastQuestions (msg : List UInt8) :
    ((∃ n, (requestUnicastReplies msg).1 = .ok n) ↔
      ∃ n, (restoreMulticastQuestions msg).1 = .ok n) ∧
    (∀ n, (requestUnicastReplies msg).1 = .ok n →
      n = questionCount msg ∧ (restoreMulticastQuestions msg).1 = .ok n ∧
      ∃ qs rest, Asks msg qs rest ∧ (classOffsets headerLen qs).length = n.toNat ∧
        TopBitsPut true (classOffsets headerLen qs) msg (requestUnicastReplies msg).2 ∧
        TopBitsPut false (classOffsets headerLen qs) msg (restoreMulticastQuestions msg).2) ∧
    requestUnicastReplies (requestUnicastReplies msg).2 = requestUnicastReplies msg ∧
    restoreMulticastQuestions (restoreMulticastQuestions msg).2 = restoreMulticastQuestions msg ∧
    restoreMulticastQuestions (requestUnicastReplies msg).2 = restoreMulticastQuestions msg ∧
    requestUnicastReplies (restoreMulticastQuestions msg).2 = requestUnicastReplies msg := by
  refine ⟨?_, ?_, rewriteQuestionClass_twice msg true true, rewriteQuestionClass_twice msg false
    false, rewriteQuestionClass_twice msg true false, rewriteQuestionClass_twice msg false true⟩
  · simp only [requestUnicastReplies, restoreMulticastQuestions, rewriteQuestionClass_ok_iff]
  · intro n hok
    obtain ⟨hn, qs, rest, hasks⟩ := rewriteQuestionClass_ok_iff.mp hok
    have hput : ∀ set, (rewriteQuestionClass msg set).2 = Mdns.rewritten set msg qs rest :=
      fun set => by rw [rewriteQuestionClass_eq set hasks.visited]
    refine ⟨hn, rewriteQuestionClass_ok_iff.mpr ⟨hn, qs, rest, hasks⟩, qs, rest, hasks, ?_, ?_, ?_⟩
    · rw [length_classOffsets, hasks.counted, hn]
    · rw [requestUnicastReplies, hput]
      exact hasks.visited.topBitsPut true
    · rw [restoreMulticastQuestions, hput]
      exact hasks.visited.topBitsPut false

/-! ### Putting a client's question back -/

/-- Both messages have the same question section, byte for byte. -/
def SameQuestions (msg msg' : List UInt8) : Prop :=
  ∃ qs rest rest', Asks msg qs rest ∧ Asks msg' qs rest'

/-- No question asks for a unicast answer. -/
def NoQu (msg : List UInt8) : Prop :=
  ∀ qs rest, Asks msg qs rest → ∀ q ∈ qs, q.qclass.1 &&& quBit = 0

theorem Asks.unique {msg : List UInt8} {qs qs' : List Question} {rest rest' : List UInt8}
    (h : Asks msg qs rest) (h' : Asks msg qs' rest') : qs = qs' ∧ rest = rest' :=
  h.visited.2.unique h'.visited.2

theorem Asks.rewritten {msg : List UInt8} {qs : List Question} {rest : List UInt8} (set : Bool)
    (h : Asks msg qs rest) :
    Asks (Mdns.rewritten set msg qs rest) (qs.map (Question.mapClass (putQu set))) rest where
  header := (h.visited.rewritten set).1
  counted := by
    rw [List.length_map, h.counted, questionCount_congr (take_rewritten set qs rest h.header)]
  body := drop_rewritten set qs rest h.header

/-- The question section stands behind byte 4. -/
theorem Asks.congr {msg msg' : List UInt8} {qs : List Question} {rest : List UInt8}
    (h : Asks msg qs rest) (htail : msg'.drop 4 = msg.drop 4) : Asks msg' qs rest := by
  have hdrop : ∀ m : List UInt8, m.drop headerLen = (m.drop 4).drop 8 := fun m => by
    rw [List.drop_drop]
    rfl
  have hlen := congrArg List.length htail
  have hhead := h.header
  rw [List.length_drop, List.length_drop] at hlen
  refine ⟨by rw [headerLen] at hhead ⊢; omega, ?_, ?_⟩
  · rw [h.counted, questionCount, questionCount, slice, slice, htail]
  · rw [hdrop, htail, ← hdrop, h.body]

theorem drop_setTransactionId (msg : List UInt8) (id : UInt16) :
    (setTransactionId msg id).drop 4 = msg.drop 4 := by
  rw [setTransactionId]
  split_ifs with hlen
  · have hid : ([] ++ toBE 2 id.toNat).length = 2 := by
      rw [List.nil_append, length_toBE]
    rw [blit, List.take_zero, show 4 = ([] ++ toBE 2 id.toNat).length + 2 by rw [hid],
      ← List.drop_drop, List.drop_left, List.drop_drop, length_toBE, hid]
  · rfl

theorem putQu_false_eq_self_iff (b : UInt8) : putQu false b = b ↔ b &&& quBit = 0 := by
  revert b
  apply Hex.forall_byte
  decide +kernel

/-- Clearing after setting gives the questions back exactly if no bit was set. -/
theorem map_putQu_false_eq_iff (qs : List Question) :
    (qs.map (Question.mapClass (putQu true))).map (Question.mapClass (putQu false)) = qs ↔
      ∀ q ∈ qs, q.qclass.1 &&& quBit = 0 := by
  rw [List.map_map]
  conv_lhs => rhs; rw [← List.map_id qs]
  rw [List.map_inj_left]
  refine forall₂_congr fun q _ => ?_
  rw [← putQu_false_eq_self_iff]
  simp only [Function.comp_apply, Question.mapClass, putQu_putQu, id]
  constructor
  · intro h
    exact congrArg (fun q : Question => q.qclass.1) h
  · intro h
    rw [h]

theorem forwardQuery_eq_some {query forwarded : List UInt8} {id : UInt16}
    (h : forwardQuery query = some (id, forwarded)) :
    ∃ qs rest, Asks query qs rest ∧ forwarded = rewritten true query qs rest := by
  rw [forwardQuery] at h
  cases hreq : requestUnicastReplies query with
  | mk result msg =>
    cases result with
    | error e => simp only [hreq] at h; cases h
    | ok n =>
      simp only [hreq, Option.some.injEq, Prod.mk.injEq] at h
      obtain ⟨-, qs, rest, hasks⟩ := rewriteQuestionClass_ok_iff.mp (congrArg Prod.fst hreq)
      rw [requestUnicastReplies, rewriteQuestionClass_eq true hasks.visited] at hreq
      exact ⟨qs, rest, hasks, h.2.symm.trans (congrArg Prod.snd hreq).symm⟩

/-- **Which clients get their own question back**: those that set the QU bit on
none of their questions.  Every answer that echoes the forwarded questions then
reaches the client with its own, and restoring undoes requesting; a query with
a QU bit of its own loses it in both. -/
theorem relayAnswer_sameQuestions_iff {query forwarded : List UInt8} {id : UInt16}
    (h : forwardQuery query = some (id, forwarded)) :
    ((∀ answer, isResponse answer = true → SameQuestions forwarded answer →
        ∃ relayed, relayAnswer id answer = some relayed ∧ SameQuestions query relayed) ↔
      NoQu query) ∧
    ((restoreMulticastQuestions forwarded).2 = query ↔ NoQu query) := by
  obtain ⟨qs, rest, hasks, rfl⟩ := forwardQuery_eq_some h
  -- the client has set no bit exactly when clearing undoes setting
  have hnoQu : NoQu query ↔
      (qs.map (Question.mapClass (putQu true))).map (Question.mapClass (putQu false)) = qs := by
    rw [map_putQu_false_eq_iff]
    constructor
    · exact fun hno => hno qs rest hasks
    · intro hno qs' rest' hasks'
      obtain ⟨rfl, -⟩ := hasks.unique hasks'
      exact hno
  have hfwd := hasks.rewritten true
  refine ⟨?_, ?_⟩
  · -- an answer keeps its questions up to the bits, which restoring clears
    have hrelay : ∀ answer rest', Asks answer (qs.map (Question.mapClass (putQu true))) rest' →
        Asks (restoreMulticastQuestions (setTransactionId answer id)).2
          ((qs.map (Question.mapClass (putQu true))).map (Question.mapClass (putQu false)))
          rest' := by
      intro answer rest' hans
      have hid := hans.congr (drop_setTransactionId answer id)
      rw [restoreMulticastQuestions, rewriteQuestionClass_eq false hid.visited]
      exact hid.rewritten false
    rw [hnoQu]
    constructor
    · intro hall
      -- the forwarded query itself, made a response
      have hbyte : isResponse ((rewritten true query qs rest).set 2 0x80) = true := by
        have hlen := hfwd.header
        rw [headerLen] at hlen
        have hflags : 2 < (rewritten true query qs rest).length := by omega
        simp [isResponse, headerLen, hlen, hflags]
      have hans : Asks ((rewritten true query qs rest).set 2 0x80)
          (qs.map (Question.mapClass (putQu true))) rest :=
        hfwd.congr (List.drop_set_of_lt (by decide))
      obtain ⟨relayed, hrel, qs', r, r', hq, hr⟩ := hall _ hbyte ⟨_, _, _, hfwd, hans⟩
      rw [relayAnswer, if_pos hbyte, Option.some.injEq] at hrel
      subst hrel
      obtain ⟨rfl, -⟩ := hasks.unique hq
      exact ((hrelay _ _ hans).unique hr).1
    · rintro hqs answer hresp ⟨qs', r, r', hf, ha⟩
      obtain ⟨rfl, -⟩ := hfwd.unique hf
      refine ⟨_, by rw [relayAnswer, if_pos hresp], qs, rest, r', hasks, ?_⟩
      have := hrelay answer r' ha
      rwa [hqs] at this
  · rw [hnoQu, restoreMulticastQuestions, rewriteQuestionClass_eq false hfwd.visited]
    constructor
    · intro heq
      have hback := hfwd.rewritten false
      rw [show Mdns.rewritten false _ _ _ = query from heq] at hback
      exact (hback.unique hasks).1
    · intro hqs
      change Mdns.rewritten false _ _ _ = query
      rw [Mdns.rewritten, hqs, take_rewritten true qs rest hasks.header]
      exact hasks.split.symm

/-- A query of one question, for the root: type 12 and the class given. -/
def rootQuery (qclass : UInt8) : List UInt8 :=
  [0x12, 0x34, 0, 0, 0, 1, 0, 0, 0, 0, 0, 0, 0, 0, 12, qclass, 1]

theorem relayAnswer_sameQuestions_iff_multicast :
    ((∀ answer, isResponse answer = true → SameQuestions (rootQuery 0x80) answer →
        ∃ relayed, relayAnswer 0x1234 answer = some relayed ∧
          SameQuestions (rootQuery 0) relayed) ↔ NoQu (rootQuery 0)) ∧
    ((restoreMulticastQuestions (rootQuery 0x80)).2 = rootQuery 0 ↔ NoQu (rootQuery 0)) :=
  relayAnswer_sameQuestions_iff (by decide +kernel)

/-- A client that asked for a unicast answer itself. -/
theorem relayAnswer_loses_qu :
    (requestUnicastReplies (rootQuery 0x80)).1 = .ok 1 ∧
    (requestUnicastReplies (rootQuery 0x80)).2 = rootQuery 0x80 ∧
    (restoreMulticastQuestions (requestUnicastReplies (rootQuery 0x80)).2).2 = rootQuery 0 ∧
    relayAnswer 0x1234 ((rootQuery 0x80).set 2 0x80) = some ((rootQuery 0).set 2 0x80) ∧
    rootQuery 0 ≠ rootQuery 0x80 := by
  refine ⟨?_, ?_, ?_, ?_, ?_⟩ <;> decide +kernel

/-! ### A call that fails -/

/-- **What a failed call leaves**: the bits of the complete questions in front
of the first faulty one are put, and nothing else has changed. -/
theorem rewriteQuestionClass_malformed (msg : List UInt8) (set : Bool)
    (h : (rewriteQuestionClass msg set).1 = .error .malformed) :
    msg.length < headerLen ∧ (rewriteQuestionClass msg set).2 = msg ∨
    ∃ qs rest, headerLen ≤ msg.length ∧ msg = msg.take headerLen ++ (encodeAll qs ++ rest) ∧
      qs.length < (questionCount msg).toNat ∧
      (∀ q tail, rest ≠ Question.encode q ++ tail) ∧
      (rewriteQuestionClass msg set).2 =
        msg.take headerLen ++ (encodeAll (qs.map (Question.mapClass (putQu set))) ++ rest) ∧
      TopBitsPut set (classOffsets headerLen qs) msg (rewriteQuestionClass msg set).2 := by
  by_cases hlen : msg.length < headerLen
  · exact .inl ⟨hlen, by rw [rewriteQuestionClass_short set hlen]⟩
  · obtain ⟨qs, rest, hvis⟩ := exists_visited (Nat.le_of_not_lt hlen)
    rw [rewriteQuestionClass_eq set hvis, countResult] at h
    have hfew : qs.length < (questionCount msg).toNat := by
      refine Nat.lt_of_le_of_ne hvis.2.bounded fun hall => ?_
      rw [if_pos hall] at h
      cases h
    have hsplit : msg = msg.take headerLen ++ (encodeAll qs ++ rest) := by
      rw [← hvis.2.split, List.take_append_drop]
    refine .inr ⟨qs, rest, hvis.1, hsplit, hfew, hvis.2.maximal hfew, ?_, ?_⟩
    · rw [rewriteQuestionClass_eq set hvis, Mdns.rewritten]
    · rw [rewriteQuestionClass_eq set hvis]
      exact hvis.topBitsPut set

/-- Two counted questions, and the message ends behind the first. -/
def truncatedQuery (qclass : UInt8) : List UInt8 :=
  [0x12, 0x34, 0, 0, 0, 2, 0, 0, 0, 0, 0, 0, 0, 0, 12, qclass, 1]

theorem rewriteQuestionClass_malformed_truncated :
    (truncatedQuery 0).length < headerLen ∧
      (rewriteQuestionClass (truncatedQuery 0) true).2 = truncatedQuery 0 ∨
    ∃ qs rest, headerLen ≤ (truncatedQuery 0).length ∧
      truncatedQuery 0 = (truncatedQuery 0).take headerLen ++ (encodeAll qs ++ rest) ∧
      qs.length < (questionCount (truncatedQuery 0)).toNat ∧
      (∀ q tail, rest ≠ Question.encode q ++ tail) ∧
      (rewriteQuestionClass (truncatedQuery 0) true).2 = (truncatedQuery 0).take headerLen ++
        (encodeAll (qs.map (Question.mapClass (putQu true))) ++ rest) ∧
      TopBitsPut true (classOffsets headerLen qs) (truncatedQuery 0)
        (rewriteQuestionClass (truncatedQuery 0) true).2 :=
  rewriteQuestionClass_malformed (truncatedQuery 0) true (by decide +kernel)

/-- Both calls leave a message half rewritten. -/
theorem rewriteQuestionClass_half_rewritten :
    requestUnicastReplies (truncatedQuery 0) = (.error .malformed, truncatedQuery 0x80) ∧
    restoreMulticastQuestions (truncatedQuery 0x80) = (.error .malformed, truncatedQuery 0) ∧
    truncatedQuery 0 ≠ truncatedQuery 0x80 := by
  refine ⟨?_, ?_, ?_⟩ <;> decide +kernel

end Mdns

end Lando
