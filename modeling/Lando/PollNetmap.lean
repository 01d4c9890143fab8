/-
Lando/PollNetmap.lean

The host's map poll (`lando-host/src/main.rs`, `poll_netmap`): the list of peers
it publishes for the datapath.

The control plane sends a netmap once and then what changed.  A frame with
`Peers` starts the set of known peers over, one with `PeersChanged` adds to it
(`knownAfter`).  The poll publishes the keys it finds in a frame, whichever list
they stand in, and leaves the list alone when it finds none (`publish`).  The
two agree after every frame exactly as long as each frame is one on which it
makes no difference (`Extends`).

The first half is about getting the frames: the response comes in pieces of any
size, and is taken apart by `MapFrames`, which hands a frame back in chunks.
-/
import Lando.MapFrames
import Lando.Netmap
import Mathlib.Data.Set.Basic

namespace Lando.Host

open Framing Netmap

/-! ### The poll -/

/-- The frame so far, and the list published for the datapath. -/
structure Assembly where
  current : List UInt8
  published : List NodePublic

/-- The list published after a frame.  One that names no peer leaves it in
place. -/
def publish (published : List NodePublic) (netmap : List UInt8) : List NodePublic :=
  let found := (peers netmap).map PeerInfo.nodeKey
  if found ≠ [] then found else published

namespace Assembly

/-- One chunk; at the end of a netmap, also the list published then. -/
def take (a : Assembly) (frame : MapFrame) : Assembly × List (List NodePublic) :=
  -- a keep-alive
  if frame.totalLen = 0 then (a, [])
  else
    let current := a.current ++ frame.chunk
    if !frame.end then ({ a with current := current }, [])
    else
      let published := publish a.published current
      (⟨[], published⟩, [published])

/-- Chunks one after another. -/
def takeAll : Assembly → List MapFrame → Assembly × List (List NodePublic)
  | a, [] => (a, [])
  | a, frame :: frames =>
      let r := (a.take frame).1.takeAll frames
      (r.1, (a.take frame).2 ++ r.2)

end Assembly

/-- What the closure owns. -/
structure Poll where
  frames : MapFrames
  assembly : Assembly

namespace Poll

/-- Before the first piece, with a list from an earlier poll. -/
def start (published : List NodePublic) : Poll := ⟨.new, ⟨[], published⟩⟩

/-- The loop of the closure, for at most `k` calls of `feed`. -/
def drain : ℕ → Poll → List UInt8 → Poll × List (List NodePublic)
  | _, p, [] => (p, [])
  | 0, p, _ :: _ => (p, [])
  | k + 1, p, b :: bs =>
      let (frames, used, frame) := p.frames.feed (b :: bs)
      match frame with
      | none =>
          if used = 0 then ({ p with frames := frames }, [])
          else drain k { p with frames := frames } ((b :: bs).drop used)
      | some frame =>
          let (assembly, log) := p.assembly.take frame
          let r := drain k ⟨frames, assembly⟩ ((b :: bs).drop used)
          (r.1, log ++ r.2)

/-- The closure: a piece of the response.  Every call of `feed` uses some of
it. -/
def onData (p : Poll) (data : List UInt8) : Poll × List (List NodePublic) :=
  p.drain data.length data

/-- Pieces one after another, with the lists published at the ends of netmaps. -/
def onResponse : Poll → List (List UInt8) → Poll × List (List NodePublic)
  | p, [] => (p, [])
  | p, data :: pieces =>
      let r := (p.onData data).1.onResponse pieces
      (r.1, (p.onData data).2 ++ r.2)

end Poll

/-! ### From pieces to netmaps -/

namespace Assembly

theorem takeAll_append (a : Assembly) (xs ys : List MapFrame) :
    a.takeAll (xs ++ ys) =
      (((a.takeAll xs).1.takeAll ys).1, (a.takeAll xs).2 ++ ((a.takeAll xs).1.takeAll ys).2) := by
  induction xs generalizing a with
  | nil => rfl
  | cons x xs ih =>
    rw [List.cons_append, takeAll, ih, takeAll]
    simp only [List.append_assoc]

end Assembly

namespace Poll

theorem drain_eq (k : ℕ) (m : MapFrames) (a : Assembly) (data : List UInt8) :
    drain k ⟨m, a⟩ data =
      (⟨(feedInput MapFrames.call k m data).1,
        (a.takeAll (feedInput MapFrames.call k m data).2.1).1⟩,
        (a.takeAll (feedInput MapFrames.call k m data).2.1).2) := by
  induction k generalizing m a data with
  | zero =>
    cases data with
    | nil => rfl
    | cons b bs => rfl
  | succ k ih =>
    cases data with
    | nil => rfl
    | cons b bs =>
      -- on input the closure never breaks off, since `feed` uses some of it
      have hpos := m.feed_used_pos (List.cons_ne_nil b bs)
      rw [drain, feedInput, MapFrames.call]
      rcases hf : m.feed (b :: bs) with ⟨m', used, - | frame⟩
      · rw [hf] at hpos
        simp only
        rw [if_neg (Nat.ne_of_gt hpos), ih]
        rfl
      · simp only
        rw [ih]
        rfl

theorem onResponse_eq {m m' : MapFrames} (a : Assembly) {inputs : List (List UInt8)}
    {items : List MapFrame} (h : feedAll MapFrames.call m inputs = (m', items, .more)) :
    onResponse ⟨m, a⟩ inputs = (⟨m', (a.takeAll items).1⟩, (a.takeAll items).2) := by
  induction inputs generalizing m a items with
  | nil =>
    obtain ⟨rfl, hitems⟩ := Prod.mk.inj h
    obtain ⟨rfl, -⟩ := Prod.mk.inj hitems
    rfl
  | cons data inputs ih =>
    rw [feedAll] at h
    rcases hd : feedInput MapFrames.call data.length m data with ⟨m₁, first, ending⟩
    rw [hd] at h
    have hdrain := drain_eq data.length m a data
    rw [hd] at hdrain
    -- the pieces before the end were all used up
    cases ending with
    | failed e => cases h
    | stuck => cases h
    | more =>
      rcases hrest : feedAll MapFrames.call m₁ inputs with ⟨m₂, rest, ending⟩
      simp only [hrest] at h
      obtain ⟨rfl, hitems⟩ := Prod.mk.inj h
      obtain ⟨rfl, rfl⟩ := Prod.mk.inj hitems
      rw [onResponse, onData, hdrain, ih _ hrest, Assembly.takeAll_append]

end Poll

/-- The netmaps among the bodies of a response; an empty body is a keep-alive. -/
def netmaps (bodies : List MapBody) : List (List UInt8) :=
  (bodies.map MapBody.bytes).filter fun bytes => !bytes.isEmpty

/-- The lists published after each netmap. -/
def publishedAfterEach : List NodePublic → List (List UInt8) → List (List NodePublic)
  | _, [] => []
  | published, netmap :: rest =>
      publish published netmap :: publishedAfterEach (publish published netmap) rest

namespace Assembly

theorem takeAll_chunks {total : UInt32} (htotal : total ≠ 0) (a : Assembly)
    (chunks : List (List UInt8)) (final : List UInt8) :
    a.takeAll (chunks.map (⟨total, ·, false⟩) ++ [⟨total, final, true⟩]) =
      (⟨[], publish a.published (a.current ++ (chunks.flatten ++ final))⟩,
        [publish a.published (a.current ++ (chunks.flatten ++ final))]) := by
  induction chunks generalizing a with
  | nil =>
    simp only [List.map_nil, List.nil_append, takeAll, take, if_neg htotal, List.flatten_nil]
    rfl
  | cons c chunks ih =>
    rw [List.map_cons, List.cons_append, takeAll]
    have htake : a.take ⟨total, c, false⟩ = ({ a with current := a.current ++ c }, []) := by
      rw [take, if_neg htotal]
      rfl
    rw [htake, ih]
    simp only [List.flatten_cons, List.append_assoc, List.nil_append]

/-- The chunks of one body. -/
theorem takeAll_body {b : MapBody} {frames : List MapFrame} (h : b.Delivered frames)
    (published : List NodePublic) :
    takeAll ⟨[], published⟩ frames =
      if b.bytes = [] then (⟨[], published⟩, [])
      else (⟨[], publish published b.bytes⟩, [publish published b.bytes]) := by
  obtain ⟨chunks, final, rfl, hbytes, hchunks, -⟩ := h
  by_cases hempty : b.bytes = []
  · -- a keep-alive is one empty chunk
    rw [if_pos hempty]
    rw [hempty, List.append_eq_nil_iff] at hbytes
    obtain ⟨hflat, rfl⟩ := hbytes
    have hnone : chunks = [] := by
      rw [List.eq_nil_iff_forall_not_mem]
      intro c hc
      exact hchunks c hc (List.flatten_eq_nil_iff.mp hflat c hc)
    subst hnone
    have htotal : b.totalLen = 0 := by
      rw [MapBody.totalLen, hempty]
      rfl
    simp only [List.map_nil, List.nil_append, takeAll, take, htotal, if_true]
  · have htotal : b.totalLen ≠ 0 := by
      intro hz
      have hlen := b.toNat_totalLen
      rw [hz] at hlen
      exact hempty (List.eq_nil_of_length_eq_zero hlen.symm)
    rw [if_neg hempty, takeAll_chunks htotal, List.nil_append, hbytes]

theorem takeAll_bodies {bodies : List MapBody} {frames : List MapFrame}
    (h : MapFrames.Delivered bodies frames) (published : List NodePublic) :
    (takeAll ⟨[], published⟩ frames).2 = publishedAfterEach published (netmaps bodies) := by
  induction bodies generalizing frames published with
  | nil =>
    rw [show frames = [] from h]
    rfl
  | cons b bodies ih =>
    obtain ⟨first, rest, rfl, hfirst, hrest⟩ := h
    rw [takeAll_append, takeAll_body hfirst]
    by_cases hempty : b.bytes = []
    · have hskip : netmaps (b :: bodies) = netmaps bodies :=
        List.filter_cons_of_neg (by rw [hempty]; decide)
      rw [if_pos hempty, hskip, ih hrest]
      rfl
    · have hkeep : netmaps (b :: bodies) = b.bytes :: netmaps bodies :=
        List.filter_cons_of_pos (by rw [Bool.not_eq_true', List.isEmpty_eq_false_iff]; exact hempty)
      rw [if_neg hempty, hkeep, ih hrest]
      rfl

end Assembly

/-- **Every netmap is published, once and in order,** however the response was
cut. -/
theorem Poll.onResponse_published {bodies : List MapBody} {pieces : List (List UInt8)}
    (hbytes : pieces.flatten = mapWires bodies) (published : List NodePublic) :
    ((Poll.start published).onResponse pieces).2 =
      publishedAfterEach published (netmaps bodies) := by
  obtain ⟨m, frames, he, hdelivered⟩ := MapFrames.feedAll_delivered hbytes
  rw [Poll.start, Poll.onResponse_eq _ he]
  exact Assembly.takeAll_bodies hdelivered published

/-! ### Known peers -/

/-- The keys in a list of the netmap. -/
def keysIn (netmap : List UInt8) (k : String) : Set NodePublic :=
  {key | ∃ info ∈ peersIn netmap k, info.nodeKey = key}

/-- A raw value that is an array. -/
def isArray (raw : List UInt8) : Bool :=
  decide ((Json.Parser.skipWs ⟨raw, 0⟩).peek = some Json.openBracket)

/-- The netmap has a list of all peers. -/
def carriesPeers (netmap : List UInt8) : Bool := isArray (list netmap "Peers")

/-- The known peers after a netmap: the keys of its list of all peers, if it has
one, and the ones it says changed. -/
def knownAfter (known : Set NodePublic) (netmap : List UInt8) : Set NodePublic :=
  (if carriesPeers netmap then keysIn netmap "Peers" else known) ∪ keysIn netmap "PeersChanged"

/-- The known peers after each netmap. -/
def knownAfterEach : Set NodePublic → List (List UInt8) → List (Set NodePublic)
  | _, [] => []
  | known, netmap :: rest => knownAfter known netmap :: knownAfterEach (knownAfter known netmap) rest

/-- A list of all peers that names none comes when none is known, and changes
that name some name every known peer. -/
def Extends (known : Set NodePublic) (netmap : List UInt8) : Prop :=
  if carriesPeers netmap then
    keysIn netmap "Peers" ∪ keysIn netmap "PeersChanged" = ∅ → known = ∅
  else keysIn netmap "PeersChanged" = ∅ ∨ known ⊆ keysIn netmap "PeersChanged"

/-- Every netmap of a sequence is such. -/
def AllExtend : Set NodePublic → List (List UInt8) → Prop
  | _, [] => True
  | known, netmap :: rest => Extends known netmap ∧ AllExtend (knownAfter known netmap) rest

theorem keysIn_eq_empty {netmap : List UInt8} {k : String} :
    keysIn netmap k = ∅ ↔ peersIn netmap k = [] := by
  constructor
  · intro h
    rw [List.eq_nil_iff_forall_not_mem]
    intro info hinfo
    exact (Set.eq_empty_iff_forall_notMem.mp h) info.nodeKey ⟨info, hinfo, rfl⟩
  · intro h
    rw [Set.eq_empty_iff_forall_notMem]
    rintro key ⟨info, hinfo, -⟩
    rw [h] at hinfo
    cases hinfo

theorem keysIn_peers_of_not_carried {netmap : List UInt8} (h : carriesPeers netmap = false) :
    keysIn netmap "Peers" = ∅ := by
  rw [keysIn_eq_empty, peersIn, Json.elements_eq_nil (of_decide_eq_false h)]
  rfl

/-- What is published is what the netmap names, if it names any peer. -/
theorem mem_publish (published : List NodePublic) (netmap : List UInt8) :
    {key | key ∈ publish published netmap} =
      if keysIn netmap "Peers" ∪ keysIn netmap "PeersChanged" = ∅ then {key | key ∈ published}
      else keysIn netmap "Peers" ∪ keysIn netmap "PeersChanged" := by
  have hfound : {key | key ∈ (peers netmap).map PeerInfo.nodeKey} =
      keysIn netmap "Peers" ∪ keysIn netmap "PeersChanged" := by
    ext key
    rw [peers_eq, List.map_append, Set.mem_ofPred_eq, List.mem_append, List.mem_map, List.mem_map]
    rfl
  have hnone : keysIn netmap "Peers" ∪ keysIn netmap "PeersChanged" = ∅ ↔
      (peers netmap).map PeerInfo.nodeKey = [] := by
    rw [← hfound, Set.eq_empty_iff_forall_notMem, List.eq_nil_iff_forall_not_mem]
    rfl
  unfold publish
  by_cases h : (peers netmap).map PeerInfo.nodeKey = []
  · rw [if_pos (hnone.mpr h)]
    simp only [h, ne_eq, not_true_eq_false, if_false]
  · rw [if_neg (mt hnone.mp h)]
    simp only [ne_eq, h, not_false_eq_true, if_true]
    exact hfound

/-- **One netmap.**  Publishing follows what is known exactly when the netmap
extends it. -/
theorem publish_iff (published : List NodePublic) (netmap : List UInt8) :
    {key | key ∈ publish published netmap} = knownAfter {key | key ∈ published} netmap ↔
      Extends {key | key ∈ published} netmap := by
  rw [mem_publish]
  unfold knownAfter Extends
  generalize {key | key ∈ published} = known
  cases hc : carriesPeers netmap with
  | true =>
    simp only [if_true]
    by_cases hempty : keysIn netmap "Peers" ∪ keysIn netmap "PeersChanged" = ∅
    · -- the old list stays, and should be empty
      rw [if_pos hempty, hempty]
      exact ⟨fun h _ => h, fun h => h rfl⟩
    · rw [if_neg hempty]
      exact iff_of_true rfl fun h => absurd h hempty
  | false =>
    -- what changed takes the place of the list, and should be added to it
    rw [keysIn_peers_of_not_carried hc, Set.empty_union]
    simp only [Bool.false_eq_true, if_false]
    by_cases hempty : keysIn netmap "PeersChanged" = ∅
    · rw [if_pos hempty, hempty, Set.union_empty]
      exact iff_of_true rfl (.inl rfl)
    · rw [if_neg hempty, eq_comm, Set.union_eq_right, or_iff_right hempty]

/-- A sequence of netmaps. -/
theorem publishedAfterEach_iff (published : List NodePublic) (sequence : List (List UInt8)) :
    List.Forall₂ (fun list known => {key | key ∈ list} = known)
        (publishedAfterEach published sequence)
        (knownAfterEach {key | key ∈ published} sequence) ↔
      AllExtend {key | key ∈ published} sequence := by
  induction sequence generalizing published with
  | nil => exact iff_of_true .nil trivial
  | cons netmap rest ih =>
    rw [publishedAfterEach, knownAfterEach, List.forall₂_cons, AllExtend, publish_iff]
    refine and_congr_right fun h => ?_
    rw [← (publish_iff published netmap).mpr h]
    exact ih _

/-- The text of a netmap with one peer in a list, whose key is a digit 64 times. -/
def onePeer (k : String) (digit : UInt8) : List UInt8 :=
  "\x7b\"".toUTF8.toList ++ k.toUTF8.toList ++ "\":[\x7b\"Key\":\"nodekey:".toUTF8.toList ++
    List.replicate 64 digit ++ "\"\x7d]\x7d".toUTF8.toList

theorem fits_onePeer_full : (onePeer "Peers" 0x61).length < 2 ^ 32 := by decide +kernel

theorem fits_onePeer_delta : (onePeer "PeersChanged" 0x62).length < 2 ^ 32 := by decide +kernel

/-- **What the poll publishes.**  However the response is cut, the list published
after every netmap is what is known then, the keys of the latest list of all
peers and of the changes since, exactly when every netmap extends what was known
before it. -/
theorem published_iff (published : List NodePublic) (bodies : List MapBody)
    (pieces : List (List UInt8)) (hbytes : pieces.flatten = mapWires bodies) :
    List.Forall₂ (fun list known => {key | key ∈ list} = known)
        ((Poll.start published).onResponse pieces).2
        (knownAfterEach {key | key ∈ published} (netmaps bodies)) ↔
      AllExtend {key | key ∈ published} (netmaps bodies) := by
  rw [Poll.onResponse_published hbytes]
  exact publishedAfterEach_iff published (netmaps bodies)

/-- A list of all peers and a keep-alive, cut inside the length of the first. -/
theorem published_iff_full :
    let bodies : List MapBody := [⟨onePeer "Peers" 0x61, fits_onePeer_full⟩, ⟨[], by decide⟩]
    let pieces := [(mapWires bodies).take 3, (mapWires bodies).drop 3]
    List.Forall₂ (fun list known => {key | key ∈ list} = known)
      ((Poll.start []).onResponse pieces).2
      (knownAfterEach {key | key ∈ ([] : List NodePublic)} (netmaps bodies)) := by
  intro bodies pieces
  have hnet : netmaps bodies = [onePeer "Peers" 0x61] := by decide +kernel
  refine (published_iff [] bodies pieces ?_).mpr ?_
  · simp only [pieces, List.flatten_cons, List.flatten_nil, List.append_nil]
    exact List.take_append_drop 3 _
  · rw [hnet]
    refine ⟨?_, trivial⟩
    unfold Extends
    rw [if_pos (by decide +kernel)]
    intro _
    exact Set.eq_empty_iff_forall_notMem.mpr fun _ => List.not_mem_nil

/-- A peer is published; then the control plane says that another one changed,
and the first is gone. -/
theorem delta_removes_peer :
    let full := onePeer "Peers" 0x61
    let delta := onePeer "PeersChanged" 0x62
    let bodies : List MapBody := [⟨full, fits_onePeer_full⟩, ⟨delta, fits_onePeer_delta⟩]
    let log := ((Poll.start []).onResponse [mapWires bodies]).2
    log = [[⟨Vector.replicate 32 0xaa⟩], [⟨Vector.replicate 32 0xbb⟩]] ∧
      ¬ List.Forall₂ (fun list known => {key | key ∈ list} = known) log
        (knownAfterEach {key | key ∈ ([] : List NodePublic)} [full, delta]) := by
  intro full delta bodies log
  have hlog : log = [[⟨Vector.replicate 32 0xaa⟩], [⟨Vector.replicate 32 0xbb⟩]] := by
    have hpublished : publishedAfterEach [] (netmaps bodies) =
        [[⟨Vector.replicate 32 0xaa⟩], [⟨Vector.replicate 32 0xbb⟩]] := by decide +kernel
    rw [← hpublished]
    exact Poll.onResponse_published (List.append_nil _) []
  refine ⟨hlog, ?_⟩
  rw [hlog]
  intro h
  -- the first peer is known after both, and not published after the second
  rw [knownAfterEach, knownAfterEach, List.forall₂_cons, List.forall₂_cons] at h
  obtain ⟨hfull, hdelta, -⟩ := h
  have hknown : (⟨Vector.replicate 32 0xaa⟩ : NodePublic) ∈
      knownAfter (knownAfter {key | key ∈ []} full) delta := by
    refine .inl ?_
    rw [if_neg (by decide +kernel), ← hfull]
    exact List.mem_cons_self
  rw [← hdelta] at hknown
  exact absurd hknown (by decide +kernel)

end Lando.Host
