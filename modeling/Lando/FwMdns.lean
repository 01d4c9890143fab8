/-
Lando/FwMdns.lean

The mDNS proxy of the firmware (`serve` in `lando-fw/src/mdns.rs`).

The proxy serves one query at a time.  It takes a query from the tunnel, throws
away what is still in its LAN socket, forwards the query, and hands what comes
in for 1200 ms to the client, with the client's id and its question bits.  The
socket is one queue for all browses, so what keeps the answers of one browse out
of the next is the discarding in between.  With the datagrams that came in since
the last query was forwarded,

    heard = received ++ still in the socket      while a browse is open

if the socket was emptied before, and what the clients get is `received` in this
order (`browses_answered`).  The discarding stops after 64 datagrams; then this is
not promised.  Nor does an answer always reach its client: `send_mdns_answer` drops
it silently when the tunnel does not take it.
-/
import Lando.Mdns

namespace Lando.Fw.MdnsProxy

open Lando.Mdns

/-! ### The loop -/

/-- `GATHER`, in milliseconds. -/
def gather : ℕ := 1200

/-- `MAX`. -/
def maxDatagram : ℕ := 1400

/-- How many late answers are discarded. -/
def staleLimit : ℕ := 64

variable {κ : Type}

/-- Where `serve` waits. -/
inductive Phase (κ : Type)
  | waiting
  /-- A query, and how many datagrams were discarded since; the timer of 2 ms
  runs from `since`. -/
  | draining (query : List UInt8) (client : κ) (stale since : ℕ)
  | gathering (id : UInt16) (client : κ) (deadline : ℕ)

/-- A query that was forwarded: how many datagrams were discarded for it, and the
datagrams that were read since, each with whether the tunnel took an answer then. -/
structure Browse (κ : Type) where
  query : List UInt8
  client : κ
  id : UInt16
  stale : ℕ
  received : List (List UInt8 × Bool)

/-- A browse gets one more datagram. -/
def Browse.receive (b : Browse κ) (datagram : List UInt8) (takes : Bool) : Browse κ :=
  { b with received := b.received ++ [(datagram, takes)] }

/-- The datagrams of a browse. -/
def Browse.datagrams (b : Browse κ) : List (List UInt8) := b.received.map Prod.fst

/-- The proxy with its two sockets, what went out of them, and a record of the
browses and of what came in, each datagram with the number of queries that had
been forwarded by then. -/
structure World (κ : Type) where
  phase : Phase κ
  lan : List (List UInt8)
  asked : List (List UInt8 × κ)
  forwarded : List (List UInt8)
  answered : List (List UInt8 × κ)
  browses : List (Browse κ)
  heard : List (ℕ × List UInt8)
  asks : List (List UInt8 × κ)

/-- What happens around the proxy. -/
inductive Event (κ : Type)
  /-- A datagram from the LAN for which the socket has room. -/
  | hears (datagram : List UInt8)
  /-- A query out of the tunnel for which its socket has room. -/
  | asks (query : List UInt8) (client : κ)
  /-- `serve` goes on; `sends` says whether the LAN takes a query, and `takes`
  whether the tunnel takes an answer: its queue of 12 datagrams and 4096 bytes has
  room, and the packet fits the MTU of 1400 bytes. -/
  | wakes (now : ℕ) (sends takes : Bool)
  /-- The session ends, and with it `serve` and its socket. -/
  | restarts

namespace World

/-- The proxy waits, and nothing has been sent. -/
def start : World κ := ⟨.waiting, [], [], [], [], [], [], []⟩

/-- From the end of the discarding to the first wait for an answer. -/
def forward (w : World κ) (query : List UInt8) (client : κ) (stale now : ℕ) (sends : Bool) :
    World κ :=
  match forwardQuery query with
  | none => { w with phase := .waiting }
  | some (id, message) =>
      if sends then
        { w with
          phase := .gathering id client (now + gather)
          forwarded := w.forwarded ++ [message]
          browses := w.browses ++ [⟨query, client, id, stale, []⟩] }
      else { w with phase := .waiting }

/-- `send_mdns_answer`, which says nothing when the answer is dropped. -/
def sendAnswer (w : World κ) (answer : List UInt8) (client : κ) (takes : Bool) : World κ :=
  if takes then { w with answered := w.answered ++ [(answer, client)] } else w

/-- One datagram of the open browse, for the client if it is a response. -/
def relay (w : World κ) (id : UInt16) (client : κ) (datagram : List UInt8) (takes : Bool) :
    World κ :=
  let w := { w with
    browses := w.browses.dropLast ++
      (w.browses.getLast?.map (Browse.receive · datagram takes)).toList }
  match relayAnswer id datagram with
  | none => w
  | some answer => w.sendAnswer answer client takes

/-- `serve`, up to where it waits again. -/
def wake (w : World κ) (now : ℕ) (sends takes : Bool) : World κ :=
  match w.phase with
  | .waiting =>
      match w.asked with
      | [] => w
      | (query, client) :: asked =>
          { w with phase := .draining (query.take maxDatagram) client 0 now, asked := asked }
  | .draining query client stale since =>
      if stale < staleLimit then
        match w.lan with
        | _ :: lan => { w with phase := .draining query client (stale + 1) now, lan := lan }
        | [] => if since + 2 ≤ now then w.forward query client stale now sends else w
      else w.forward query client stale now sends
  | .gathering id client deadline =>
      if deadline ≤ now then { w with phase := .waiting }
      else
        match w.lan with
        | [] => w
        | datagram :: lan =>
            -- a datagram that does not fit is an error, and that ends the browse
            if maxDatagram < datagram.length then { w with phase := .waiting, lan := lan }
            else { w with lan := lan }.relay id client datagram takes

/-- One event. -/
def step (w : World κ) : Event κ → World κ
  | .hears datagram =>
      { w with
        lan := w.lan ++ [datagram]
        heard := w.heard ++ [(w.browses.length, datagram)] }
  | .asks query client =>
      { w with asked := w.asked ++ [(query, client)], asks := w.asks ++ [(query, client)] }
  | .wakes now sends takes => w.wake now sends takes
  | .restarts => { w with phase := .waiting, lan := [] }

/-- The world after a list of events. -/
def run (w : World κ) (evs : List (Event κ)) : World κ := evs.foldl step w

/-- What came in while `n` queries had been forwarded. -/
def heardAfter (w : World κ) (n : ℕ) : List (List UInt8) :=
  (w.heard.filter fun h => h.1 = n).map Prod.snd

end World

/-! ### The id of an answer -/

/-- Only class bits are put, and none of them is in the header. -/
theorem transactionId_rewriteQuestionClass (msg : List UInt8) (set : Bool) :
    transactionId (rewriteQuestionClass msg set).2 = transactionId msg := by
  by_cases hlen : msg.length < headerLen
  · rw [rewriteQuestionClass_short set hlen]
  · obtain ⟨qs, rest, h⟩ := exists_visited (Nat.le_of_not_lt hlen)
    have htake := take_rewritten set qs rest h.1
    have hslice : ∀ m : List UInt8, Bytes.slice m 0 2 = Bytes.slice (m.take headerLen) 0 2 := by
      intro m
      simp [Bytes.slice, headerLen, List.take_take]
    rw [rewriteQuestionClass_eq set h, transactionId, transactionId, length_rewritten set h,
      hslice, htake, ← hslice]

theorem transactionId_setTransactionId {msg : List UInt8} (id : UInt16)
    (h : headerLen ≤ msg.length) : transactionId (setTransactionId msg id) = some id := by
  have hid : (Bytes.toBE 2 id.toNat).length = 2 := Bytes.length_toBE 2 _
  have hset : setTransactionId msg id = Bytes.toBE 2 id.toNat ++ msg.drop 2 := by
    rw [setTransactionId, if_pos h, Bytes.blit, hid]
    rfl
  have hlen : ¬ (Bytes.toBE 2 id.toNat ++ msg.drop 2).length < headerLen := by
    rw [List.length_append, hid, List.length_drop]
    unfold headerLen at h ⊢
    omega
  rw [hset, transactionId, if_neg hlen]
  have hslice : Bytes.slice (Bytes.toBE 2 id.toNat ++ msg.drop 2) 0 2 = Bytes.toBE 2 id.toNat := by
    show ((Bytes.toBE 2 id.toNat ++ msg.drop 2).drop 0).take (2 - 0) = _
    exact List.take_left' hid
  rw [hslice, Bytes.fromBE_toBE id.toNat_lt, UInt16.ofNat_toNat]

/-- An answer goes back with the id of the query. -/
theorem transactionId_relayAnswer {id : UInt16} {datagram answer : List UInt8}
    (h : relayAnswer id datagram = some answer) : transactionId answer = some id := by
  unfold relayAnswer at h
  by_cases hr : isResponse datagram = true
  · rw [if_pos hr] at h
    obtain rfl := Option.some.inj h
    have hlen : headerLen ≤ datagram.length := by
      simp only [isResponse, Bool.and_eq_true, decide_eq_true_eq] at hr
      exact hr.1
    rw [restoreMulticastQuestions, transactionId_rewriteQuestionClass,
      transactionId_setTransactionId id hlen]
  · rw [if_neg hr] at h
    cases h

theorem forwardQuery_id {query message : List UInt8} {id : UInt16}
    (h : forwardQuery query = some (id, message)) :
    transactionId query = some id ∧ message = (requestUnicastReplies query).2 := by
  obtain ⟨qs, rest, hasks, -⟩ := forwardQuery_eq_some h
  have hid : transactionId query = some (UInt16.ofNat (Bytes.fromBE (Bytes.slice query 0 2))) :=
    if_neg (Nat.not_lt.mpr hasks.header)
  unfold forwardQuery at h
  rcases hr : requestUnicastReplies query with ⟨r, msg⟩
  rcases r with e | n
  · rw [hr] at h
    cases h
  · rw [hr, hid] at h
    obtain ⟨rfl, rfl⟩ := Prod.mk.inj (Option.some.inj h)
    exact ⟨hid, rfl⟩

/-! ### What came in, and what of it was read -/

namespace World

variable {w : World κ}

theorem heardAfter_hears (datagram : List UInt8) (n : ℕ) :
    (w.step (.hears datagram)).heardAfter n =
      w.heardAfter n ++ if w.browses.length = n then [datagram] else [] := by
  show (((w.heard ++ [(w.browses.length, datagram)]).filter fun h => h.1 = n).map Prod.snd) = _
  rw [List.filter_append, List.map_append]
  by_cases hn : w.browses.length = n
  · simp [heardAfter, hn]
  · simp [heardAfter, hn]

end World

/-- The messages for the client: the answers that the tunnel took. -/
def Browse.answers (b : Browse κ) : List (List UInt8 × κ) :=
  (b.received.filterMap fun r => if r.2 then relayAnswer b.id r.1 else none).map fun answer =>
    (answer, b.client)

/-- The query that was taken but not forwarded yet. -/
def Phase.held : Phase κ → List (List UInt8 × κ)
  | .draining query client _ _ => [(query, client)]
  | _ => []

/-- As `take_mdns_query` copies it. -/
def clipped (ask : List UInt8 × κ) : List UInt8 × κ := (ask.1.take maxDatagram, ask.2)

/-- The browse is open: nothing of what came in since is lost. -/
def Open (w : World κ) (id : UInt16) (client : κ) : Prop :=
  ∃ bs b, w.browses = bs ++ [b] ∧ b.id = id ∧ b.client = client ∧
    (b.stale < staleLimit → b.datagrams ++ w.lan = w.heardAfter w.browses.length)

/-- What holds in every world that a run reaches. -/
structure Inv (w : World κ) : Prop where
  forwarded : w.forwarded = w.browses.map fun b => (requestUnicastReplies b.query).2
  answered : w.answered = w.browses.flatMap Browse.answers
  ids : ∀ b ∈ w.browses, transactionId b.query = some b.id
  order : ∃ taken, w.asks.map clipped = taken ++ w.asked.map clipped ∧
    ((w.browses.map fun b => (b.query, b.client)) ++ w.phase.held).Sublist taken
  past : ∀ h ∈ w.heard, h.1 ≤ w.browses.length
  front : ∀ k b, w.browses[k]? = some b → b.stale < staleLimit →
    b.datagrams <+: w.heardAfter (k + 1)
  current : ∀ id client deadline, w.phase = .gathering id client deadline → Open w id client

theorem getElem?_concat {α : Type} {l : List α} {a b : α} {k : ℕ}
    (h : (l ++ [a])[k]? = some b) : l[k]? = some b ∨ k = l.length ∧ b = a := by
  rcases Nat.lt_trichotomy k l.length with hk | rfl | hk
  · rw [List.getElem?_append_left hk] at h
    exact .inl h
  · rw [List.getElem?_concat_length] at h
    exact .inr ⟨rfl, (Option.some.inj h).symm⟩
  · rw [List.getElem?_eq_none (by rw [List.length_append, List.length_singleton]; omega)] at h
    cases h

namespace Inv

variable {w : World κ}

theorem start : Inv (World.start : World κ) where
  forwarded := rfl
  answered := rfl
  ids _ hb := absurd hb List.not_mem_nil
  order := ⟨[], rfl, List.Sublist.refl _⟩
  past _ hx := absurd hx List.not_mem_nil
  front := by
    intro k b hb
    cases hb
  current := by
    intro id' client' deadline hphase'
    cases hphase'

theorem hears (h : Inv w) (datagram : List UInt8) : Inv (w.step (.hears datagram)) where
  forwarded := h.forwarded
  answered := h.answered
  ids := h.ids
  order := h.order
  past := by
    intro x hx
    rcases List.mem_append.mp hx with hx | hx
    · exact h.past x hx
    · rw [List.mem_singleton.mp hx]
      exact Nat.le_refl _
  front := by
    intro k b hb hs
    rw [World.heardAfter_hears]
    exact (h.front k b hb hs).trans (List.prefix_append _ _)
  current := by
    intro id client deadline hphase
    obtain ⟨bs, b, hbs, hid, hclient, hheard⟩ := h.current id client deadline hphase
    refine ⟨bs, b, hbs, hid, hclient, fun hs => ?_⟩
    show b.datagrams ++ (w.lan ++ [datagram]) = (w.step (.hears datagram)).heardAfter w.browses.length
    rw [World.heardAfter_hears, if_pos rfl, ← hheard hs, List.append_assoc]

theorem asks (h : Inv w) (query : List UInt8) (client : κ) :
    Inv (w.step (.asks query client)) where
  forwarded := h.forwarded
  answered := h.answered
  ids := h.ids
  order := by
    obtain ⟨taken, htaken, hsub⟩ := h.order
    refine ⟨taken, ?_, hsub⟩
    show (w.asks ++ [(query, client)]).map clipped =
      taken ++ (w.asked ++ [(query, client)]).map clipped
    rw [List.map_append, htaken, List.map_append, List.append_assoc]
  past := h.past
  front := h.front
  current := h.current

/-- A browse may be over at any time. -/
theorem close (h : Inv w) (lan : List (List UInt8)) :
    Inv { w with phase := .waiting, lan := lan } where
  forwarded := h.forwarded
  answered := h.answered
  ids := h.ids
  order := by
    obtain ⟨taken, htaken, hsub⟩ := h.order
    refine ⟨taken, htaken, ?_⟩
    show ((w.browses.map fun b : Browse κ => (b.query, b.client)) ++ []).Sublist taken
    rw [List.append_nil]
    exact (List.sublist_append_left _ _).trans hsub
  past := h.past
  front := h.front
  current := by
    intro id' client' deadline hphase'
    cases hphase'

/-- The next query is taken. -/
theorem take (h : Inv w) (hphase : w.phase = .waiting) {query : List UInt8} {client : κ}
    {asked : List (List UInt8 × κ)} (hasked : w.asked = (query, client) :: asked) (now : ℕ) :
    Inv { w with phase := .draining (query.take maxDatagram) client 0 now, asked := asked } where
  forwarded := h.forwarded
  answered := h.answered
  ids := h.ids
  order := by
    obtain ⟨taken, htaken, hsub⟩ := h.order
    refine ⟨taken ++ [clipped (query, client)], ?_, ?_⟩
    · rw [htaken, hasked, List.append_assoc]
      rfl
    · rw [hphase] at hsub
      replace hsub : ((w.browses.map fun b : Browse κ => (b.query, b.client)) ++ []).Sublist taken :=
        hsub
      rw [List.append_nil] at hsub
      exact hsub.append_right [clipped (query, client)]
  past := h.past
  front := h.front
  current := by
    intro id' client' deadline hphase'
    cases hphase'

/-- One more late answer is discarded. -/
theorem discard (h : Inv w) {query : List UInt8} {client : κ} {stale since : ℕ}
    (hphase : w.phase = .draining query client stale since) (stale' since' : ℕ)
    (lan : List (List UInt8)) :
    Inv { w with phase := .draining query client stale' since', lan := lan } where
  forwarded := h.forwarded
  answered := h.answered
  ids := h.ids
  order := by
    have horder := h.order
    rw [hphase] at horder
    exact horder
  past := h.past
  front := h.front
  current := by
    intro id' client' deadline hphase'
    cases hphase'

/-- Nothing can have come in after a query that is only now forwarded. -/
theorem heardAfter_succ (h : Inv w) : w.heardAfter (w.browses.length + 1) = [] := by
  have hnone : (w.heard.filter fun x => x.1 = w.browses.length + 1) = [] := by
    rw [List.filter_eq_nil_iff]
    intro x hx
    have := h.past x hx
    simp only [decide_eq_true_eq]
    omega
  rw [World.heardAfter, hnone]
  rfl

/-- A query is forwarded when the socket is empty. -/
theorem forward (h : Inv w) {query : List UInt8} {client : κ} {stale since : ℕ}
    (hphase : w.phase = .draining query client stale since)
    (hempty : stale < staleLimit → w.lan = []) (now : ℕ) (sends : Bool) :
    Inv (w.forward query client stale now sends) := by
  unfold World.forward
  rcases e : forwardQuery query with - | ⟨id, message⟩
  · exact h.close w.lan
  cases sends with
  | false => exact h.close w.lan
  | true =>
    obtain ⟨hid, rfl⟩ := forwardQuery_id e
    simp only [if_true]
    refine ⟨?_, ?_, ?_, ?_, ?_, ?_, ?_⟩
    · show w.forwarded ++ [_] = (w.browses ++ [_]).map _
      rw [List.map_append, h.forwarded]
      rfl
    · show w.answered = (w.browses ++ [_]).flatMap _
      rw [List.flatMap_append, ← h.answered]
      exact (List.append_nil _).symm
    · intro b hb
      rcases List.mem_append.mp hb with hb | hb
      · exact h.ids b hb
      · rw [List.mem_singleton.mp hb]
        exact hid
    · obtain ⟨taken, htaken, hsub⟩ := h.order
      refine ⟨taken, htaken, ?_⟩
      rw [hphase] at hsub
      show ((w.browses ++ [_]).map (fun b : Browse κ => (b.query, b.client)) ++ []).Sublist taken
      rw [List.append_nil, List.map_append]
      exact hsub
    · intro x hx
      show x.1 ≤ (w.browses ++ [_]).length
      rw [List.length_append]
      exact Nat.le_add_right_of_le (h.past x hx)
    · intro k b hb hs
      rcases getElem?_concat hb with hb | ⟨-, rfl⟩
      · exact h.front k b hb hs
      · exact List.nil_prefix
    · intro id' client' deadline hphase'
      obtain ⟨rfl, rfl, -⟩ := Phase.gathering.inj hphase'
      refine ⟨w.browses, _, rfl, rfl, rfl, fun hs => ?_⟩
      show [] ++ w.lan = w.heardAfter (w.browses ++ [_]).length
      rw [hempty hs, List.length_append]
      exact h.heardAfter_succ.symm

theorem answers_receive (b : Browse κ) (datagram : List UInt8) (takes : Bool) :
    (b.receive datagram takes).answers = b.answers ++
      (match relayAnswer b.id datagram with
      | none => []
      | some answer => if takes then [(answer, b.client)] else []) := by
  show ((b.received ++ [(datagram, takes)]).filterMap _).map _ = _
  rw [List.filterMap_append, List.map_append]
  apply congrArg
  rcases e : relayAnswer b.id datagram with - | answer
  · simp [Browse.receive, e]
  · cases takes <;> simp [Browse.receive, e]

/-- Relaying touches two records: the open browse, and what the clients got. -/
theorem relay_eq (w : World κ) (id : UInt16) (client : κ) (datagram : List UInt8)
    (takes : Bool) :
    w.relay id client datagram takes = { w with
      answered := w.answered ++ (match relayAnswer id datagram with
        | none => []
        | some answer => if takes then [(answer, client)] else [])
      browses := w.browses.dropLast ++
        (w.browses.getLast?.map (Browse.receive · datagram takes)).toList } := by
  unfold World.relay
  rcases relayAnswer id datagram with - | answer
  · simp only [List.append_nil]
  · cases takes
    · simp [World.sendAnswer]
    · simp [World.sendAnswer]

/-- A datagram of the open browse is relayed. -/
theorem relay (h : Inv w) {id : UInt16} {client : κ} {deadline : ℕ}
    (hphase : w.phase = .gathering id client deadline) {datagram : List UInt8}
    {lan : List (List UInt8)} (hlan : w.lan = datagram :: lan) (takes : Bool) :
    Inv ({ w with lan := lan }.relay id client datagram takes) := by
  obtain ⟨bs, b, hbs, rfl, rfl, hheard⟩ := h.current id client deadline hphase
  have hbrowses : w.browses.dropLast ++
      (w.browses.getLast?.map (Browse.receive · datagram takes)).toList =
        bs ++ [b.receive datagram takes] := by
    rw [hbs, List.dropLast_concat, List.getLast?_concat]
    rfl
  have hrelay := relay_eq { w with lan := lan } b.id b.client datagram takes
  simp only [hbrowses] at hrelay
  rw [hrelay]
  have hlen : (bs ++ [b.receive datagram takes]).length = w.browses.length := by
    rw [hbs, List.length_append, List.length_append]
    rfl
  have hread : b.stale < staleLimit →
      (b.receive datagram takes).datagrams ++ lan = w.heardAfter w.browses.length := by
    intro hs
    rw [← hheard hs, hlan, Browse.datagrams, Browse.receive, List.map_append, List.append_assoc]
    rfl
  refine ⟨?_, ?_, ?_, ?_, ?_, ?_, ?_⟩
  · show w.forwarded = (bs ++ [b.receive datagram takes]).map _
    rw [h.forwarded, hbs, List.map_append, List.map_append]
    rfl
  · show w.answered ++ _ = (bs ++ [b.receive datagram takes]).flatMap _
    rw [h.answered, hbs, List.flatMap_append, List.flatMap_append, List.flatMap_singleton,
      List.flatMap_singleton, answers_receive, List.append_assoc]
  · intro b' hb'
    rcases List.mem_append.mp hb' with hb' | hb'
    · exact h.ids b' (by rw [hbs]; exact List.mem_append_left _ hb')
    · rw [List.mem_singleton.mp hb']
      exact h.ids b (by rw [hbs]; exact List.mem_append_right _ List.mem_cons_self)
  · obtain ⟨taken, htaken, hsub⟩ := h.order
    refine ⟨taken, htaken, ?_⟩
    rw [hbs, List.map_append] at hsub
    rw [List.map_append]
    exact hsub
  · intro x hx
    show x.1 ≤ (bs ++ [b.receive datagram takes]).length
    rw [hlen]
    exact h.past x hx
  · intro k b' hb' hs
    rcases getElem?_concat hb' with hb' | ⟨rfl, rfl⟩
    · refine h.front k b' ?_ hs
      rw [hbs, List.getElem?_append_left (List.getElem?_eq_some_iff.mp hb').1, hb']
    · have hlast : bs.length + 1 = w.browses.length := by
        rw [hbs, List.length_append, List.length_singleton]
      rw [hlast]
      exact ⟨lan, hread hs⟩
  · intro id' client' deadline' hphase'
    obtain ⟨rfl, rfl, -⟩ := Phase.gathering.inj (hphase.symm.trans hphase')
    refine ⟨bs, _, rfl, rfl, rfl, fun hs => ?_⟩
    show (b.receive datagram takes).datagrams ++ lan =
      w.heardAfter (bs ++ [b.receive datagram takes]).length
    rw [hlen]
    exact hread hs

theorem wake (h : Inv w) (now : ℕ) (sends takes : Bool) : Inv (w.wake now sends takes) := by
  unfold World.wake
  rcases hphase : w.phase with - | ⟨query, client, stale, since⟩ | ⟨id, client, deadline⟩
  · rcases hasked : w.asked with - | ⟨⟨query, client⟩, asked⟩
    · exact h
    · exact h.take hphase hasked now
  · simp only
    by_cases hs : stale < staleLimit
    · rw [if_pos hs]
      rcases hlan : w.lan with - | ⟨datagram, lan⟩
      · simp only
        by_cases htimer : since + 2 ≤ now
        · rw [if_pos htimer]
          exact h.forward hphase (fun _ => hlan) now sends
        · rw [if_neg htimer]
          exact h
      · exact h.discard hphase _ _ lan
    · rw [if_neg hs]
      exact h.forward hphase (fun hlt => absurd hlt hs) now sends
  · simp only
    by_cases hdead : deadline ≤ now
    · rw [if_pos hdead]
      exact h.close w.lan
    · rw [if_neg hdead]
      rcases hlan : w.lan with - | ⟨datagram, lan⟩
      · exact h
      · simp only
        by_cases hbig : maxDatagram < datagram.length
        · rw [if_pos hbig]
          exact h.close lan
        · rw [if_neg hbig]
          have hrelay := h.relay hphase hlan takes
          rw [hphase] at hrelay
          exact hrelay

theorem step (h : Inv w) (ev : Event κ) : Inv (w.step ev) := by
  cases ev with
  | hears datagram => exact h.hears datagram
  | asks query client => exact h.asks query client
  | wakes now sends takes => exact h.wake now sends takes
  | restarts => exact h.close []

theorem run (h : Inv w) (evs : List (Event κ)) : Inv (w.run evs) := by
  induction evs generalizing w with
  | nil => exact h
  | cons ev evs ih => exact ih (h.step ev)

end Inv

/-- **What the clients get.**  After every run, whatever comes in and whenever:

* the queries that were forwarded are queries of the tunnel, in their order, each
  at most once, with their QU bits put;
* the clients got those of the responses read while their own query was the last
  one forwarded that the tunnel took, in order, and nothing else;
* each carries the id of that query;
* unless 64 late datagrams were discarded before it, what a browse read is what
  came in since its query went out, from the first datagram on and without a
  gap. -/
theorem browses_answered (evs : List (Event κ)) :
    let w := (World.start : World κ).run evs
    (w.forwarded = w.browses.map (fun b => (requestUnicastReplies b.query).2) ∧
      (w.browses.map fun b => (b.query, b.client)).Sublist (w.asks.map clipped)) ∧
    w.answered = w.browses.flatMap (fun b =>
      (b.received.filterMap fun r => if r.2 then relayAnswer b.id r.1 else none).map fun answer =>
        (answer, b.client)) ∧
    (∀ p ∈ w.answered, ∃ b ∈ w.browses, b.client = p.2 ∧
      transactionId p.1 = transactionId b.query) ∧
    ∀ k b, w.browses[k]? = some b → b.stale < staleLimit →
      b.received.map Prod.fst <+: w.heardAfter (k + 1) := by
  intro w
  have h : Inv w := Inv.start.run evs
  obtain ⟨taken, htaken, hsub⟩ := h.order
  refine ⟨⟨h.forwarded, ?_⟩, h.answered, ?_, h.front⟩
  · rw [htaken]
    exact ((List.sublist_append_left _ _).trans hsub).trans (List.sublist_append_left _ _)
  · intro p hp
    rw [h.answered] at hp
    obtain ⟨b, hb, hp⟩ := List.mem_flatMap.mp hp
    obtain ⟨answer, hanswer, rfl⟩ := List.mem_map.mp hp
    obtain ⟨⟨datagram, taken⟩, -, hrelay⟩ := List.mem_filterMap.mp hanswer
    cases taken with
    | false => cases hrelay
    | true => exact ⟨b, hb, rfl, (transactionId_relayAnswer hrelay).trans (h.ids b hb).symm⟩

end Lando.Fw.MdnsProxy
