/-
Lando/Timestamps.lean

The order of handshake timestamps (`wireguard/mod.rs`) and what it makes of a
counter (`peer.rs`).

A timestamp is two big-endian fields, the first one with the TAI epoch added,
and is compared as a byte string.  As long as the sum does not overflow, that is
the lexicographic order of seconds and nanoseconds.  A peer accepts what is
newer than the last timestamp it accepted, so for timestamps from a counter it
keeps a running maximum: the invariant is

    last timestamp = the greatest counter accepted, as a timestamp.
-/
import Lando.HostNode

namespace Lando

open Bytes

namespace Tai64n

/-! ### Timestamps from numbers -/

/-- TAI64 labels the second 2^62 as the epoch, plus 10 leap seconds. -/
def epoch : UInt64 := 0x400000000000000A

/-- A sum that stays below `2 ^ 64`. -/
def Fits (seconds : UInt64) : Prop := epoch.toNat + seconds.toNat < 2 ^ 64

instance (seconds : UInt64) : Decidable (Fits seconds) := inferInstanceAs (Decidable (_ < _))

/-- `from_unix`.  A sum that does not fit is a panic with overflow checks, and
wraps without. -/
def fromUnix (checks : Bool) (seconds : UInt64) (nanos : UInt32) : Option Tai64n :=
  if checks = true ∧ ¬ Fits seconds then none
  else some ⟨read 12 (toBE 8 (epoch + seconds).toNat ++ toBE 4 nanos.toNat) 0⟩

/-- Builds a timestamp from a monotonic counter rather than a clock. -/
def fromCounter (checks : Bool) (counter : UInt64) : Option Tai64n := fromUnix checks counter 0

/-- The largest number of seconds whose sum fits. -/
theorem fits_iff (seconds : UInt64) : Fits seconds ↔ seconds ≤ 0xffffffffffffffff - epoch := by
  have hepoch : epoch.toNat = 4611686018427387914 := rfl
  have hmax : (0xffffffffffffffff - epoch).toNat = 13835058055282163701 := rfl
  rw [Fits, hepoch, UInt64.le_iff_toNat_le, hmax]
  omega

theorem fromUnix_of_fits (checks : Bool) {seconds : UInt64} (h : Fits seconds) (nanos : UInt32) :
    ∃ ts, fromUnix checks seconds nanos = some ts ∧
      ts.bytes.toList = toBE 8 (epoch.toNat + seconds.toNat) ++ toBE 4 nanos.toNat := by
  refine ⟨_, if_neg fun hover => hover.2 h, ?_⟩
  have hlen : (toBE 8 (epoch + seconds).toNat ++ toBE 4 nanos.toNat).length = 12 := by
    rw [List.length_append, length_toBE, length_toBE]
  have hsum : (epoch + seconds).toNat = epoch.toNat + seconds.toNat := by
    rw [UInt64.toNat_add, Nat.mod_eq_of_lt h]
  rw [toList_read (Nat.le_of_eq hlen.symm), slice, List.drop_zero,
    List.take_of_length_le (Nat.le_of_eq hlen), hsum]

/-- **Timestamps are ordered like the times they are made of.** -/
theorem isNewerThan_fromUnix (checks : Bool) {s₁ s₂ : UInt64} (n₁ n₂ : UInt32) (h₁ : Fits s₁)
    (h₂ : Fits s₂) :
    ∃ ts₁ ts₂, fromUnix checks s₁ n₁ = some ts₁ ∧ fromUnix checks s₂ n₂ = some ts₂ ∧
      (ts₂.isNewerThan ts₁ = true ↔ s₁ < s₂ ∨ s₁ = s₂ ∧ n₁ < n₂) := by
  obtain ⟨ts₁, hts₁, hbytes₁⟩ := fromUnix_of_fits checks h₁ n₁
  obtain ⟨ts₂, hts₂, hbytes₂⟩ := fromUnix_of_fits checks h₂ n₂
  refine ⟨ts₁, ts₂, hts₁, hts₂, ?_⟩
  have hlen : (toBE 8 (epoch.toNat + s₁.toNat)).length = (toBE 8 (epoch.toNat + s₂.toNat)).length := by
    rw [length_toBE, length_toBE]
  have heq : toBE 8 (epoch.toNat + s₁.toNat) = toBE 8 (epoch.toNat + s₂.toNat) ↔ s₁ = s₂ := by
    constructor
    · intro h
      have hsum := congrArg fromBE h
      rw [fromBE_toBE h₁, fromBE_toBE h₂] at hsum
      exact UInt64.toNat_inj.mp (Nat.add_left_cancel hsum)
    · rintro rfl
      rfl
  rw [Host.Node.isNewerThan_iff, hbytes₁, hbytes₂, append_lt_append_iff hlen,
    toBE_lt_toBE_iff h₁ h₂, heq, toBE_lt_toBE_iff n₁.toNat_lt n₂.toNat_lt,
    Nat.add_lt_add_iff_left, UInt64.lt_iff_toNat_lt, UInt32.lt_iff_toNat_lt]

end Tai64n

namespace Peer

open Tai64n

/-! ### Counters presented to a peer -/

/-- A call of `accept_handshake_timestamp` with `Tai64n::from_counter(counter)`; there
is none if that panics. -/
def present (checks : Bool) (p : Peer) (counter : UInt64) :
    Peer × Option (Except WgError Unit) :=
  match fromCounter checks counter with
  | none => (p, none)
  | some ts =>
    let (p, result) := p.acceptHandshakeTimestamp ts
    (p, some result)

/-- The peer behind a sequence of calls. -/
def presentAll (checks : Bool) (p : Peer) (counters : List UInt64) : Peer :=
  counters.foldl (fun p counter => (p.present checks counter).1) p

/-- The counters that were accepted on the way. -/
def accepted (checks : Bool) : Peer → List UInt64 → List UInt64
  | _, [] => []
  | p, counter :: counters =>
    let (p', result) := p.present checks counter
    if result = some (.ok ()) then counter :: accepted checks p' counters
    else accepted checks p' counters

/-- The last timestamp is that of the greatest counter accepted. -/
def Tracks (checks : Bool) (p : Peer) (counters : List UInt64) : Prop :=
  counters = [] ∧ p.lastHandshakeTimestamp = none ∨
  ∃ greatest ts, Fits greatest ∧ fromCounter checks greatest = some ts ∧
    p.lastHandshakeTimestamp = some ts ∧ greatest ∈ counters ∧ ∀ c ∈ counters, c ≤ greatest

theorem tracks_new (checks : Bool) (key : NodePublic) : Tracks checks (Peer.new key) [] :=
  .inl ⟨rfl, rfl⟩

theorem present_of_not_fits (p : Peer) {counter : UInt64} (h : ¬ Fits counter) :
    p.present true counter = (p, none) := by
  rw [present, fromCounter, fromUnix, if_pos ⟨rfl, h⟩]

/-- **One call**: a counter greater than all accepted ones is accepted, and
another one changes nothing. -/
theorem present_cases {checks : Bool} {p : Peer} {counters : List UInt64} {counter : UInt64}
    (h : Tracks checks p counters) (hfits : Fits counter) :
    ((∀ c ∈ counters, c < counter) ∧ (p.present checks counter).2 = some (.ok ()) ∧
      Tracks checks (p.present checks counter).1 (counters ++ [counter])) ∨
    ((∃ c ∈ counters, counter ≤ c) ∧
      p.present checks counter = (p, some (.error .replayedHandshake))) := by
  obtain ⟨ts, hts, -⟩ := fromUnix_of_fits checks hfits 0
  have hpresent : p.present checks counter =
      ((p.acceptHandshakeTimestamp ts).1, some (p.acceptHandshakeTimestamp ts).2) := by
    rw [present, fromCounter, hts]
  -- against the last timestamp, newer means greater
  have hnewer : ∀ greatest last, Fits greatest → fromCounter checks greatest = some last →
      (ts.isNewerThan last = true ↔ greatest < counter) := by
    intro greatest last hgreatest hlast
    obtain ⟨last', ts', hlast', hts', hiff⟩ := isNewerThan_fromUnix checks 0 0 hgreatest hfits
    obtain rfl := Option.some.inj (hlast.symm.trans hlast')
    obtain rfl := Option.some.inj (hts.symm.trans hts')
    rw [hiff]
    simp
  rcases p.acceptHandshakeTimestamp_cases ts with ⟨last, hlast, hold, hrefused⟩ | ⟨hnew, hok⟩
  · right
    rcases h with ⟨-, hnone⟩ | ⟨greatest, last', hgreatest, hlast', hstored, hmem, -⟩
    · rw [hnone] at hlast
      cases hlast
    · obtain rfl := Option.some.inj (hlast.symm.trans hstored)
      have hle : ¬ greatest < counter := fun hlt => by
        rw [(hnewer greatest last hgreatest hlast').mpr hlt] at hold
        cases hold
      exact ⟨⟨greatest, hmem, UInt64.not_lt.mp hle⟩, by rw [hpresent, hrefused]⟩
  · left
    have hall : ∀ c ∈ counters, c < counter := by
      intro c hc
      rcases h with ⟨rfl, -⟩ | ⟨greatest, last, hgreatest, hlast, hstored, -, hmax⟩
      · exact absurd hc List.not_mem_nil
      · have hlt := (hnewer greatest last hgreatest hlast).mp (hnew last hstored)
        exact UInt64.lt_of_le_of_lt (hmax c hc) hlt
    refine ⟨hall, by rw [hpresent, hok], .inr ⟨counter, ts, hfits, hts, ?_, ?_, ?_⟩⟩
    · rw [hpresent, hok]
    · exact List.mem_append_right _ (List.mem_singleton_self counter)
    · intro c hc
      rcases List.mem_append.mp hc with hc | hc
      · exact UInt64.le_of_lt (hall c hc)
      · rw [List.mem_singleton.mp hc]
        exact UInt64.le_refl counter

/-- **A whole run keeps track of the greatest counter.** -/
theorem tracks_presentAll {checks : Bool} {p : Peer} {counters : List UInt64} (more : List UInt64)
    (h : Tracks checks p counters) (hfits : checks = false → ∀ c ∈ more, Fits c) :
    Tracks checks (p.presentAll checks more) (counters ++ accepted checks p more) := by
  induction more generalizing p counters with
  | nil =>
    rw [accepted, List.append_nil]
    exact h
  | cons counter more ih =>
    have hrest : checks = false → ∀ c ∈ more, Fits c :=
      fun hc c hm => hfits hc c (List.mem_cons_of_mem _ hm)
    rw [presentAll, List.foldl_cons, ← presentAll, accepted]
    simp only
    by_cases hf : Fits counter
    · rcases present_cases h hf with ⟨-, hok, htracks⟩ | ⟨-, hrefused⟩
      · rw [if_pos hok]
        have := ih htracks hrest
        rwa [List.append_assoc, List.singleton_append] at this
      · rw [hrefused, if_neg (by simp)]
        exact ih h hrest
    · -- a counter that does not fit makes no call
      have hchecks : checks = true := by
        by_contra hc
        exact hf (hfits (Bool.eq_false_iff.mpr hc) counter List.mem_cons_self)
      subst hchecks
      rw [present_of_not_fits p hf, if_neg (by simp)]
      exact ih h hrest

/-- **Timestamps from a counter.**  Below the overflow of the epoch's sum,
timestamps are ordered like the times they are made of; and behind any sequence
of counters presented to a fresh peer, the next one is accepted exactly if it is
greater than all that were accepted, and a refused one changes nothing.  With
overflow checks, a counter that overflows makes no timestamp and no call. -/
theorem accepts_greater_counters :
    (∀ (checks : Bool) (s₁ s₂ : UInt64) (n₁ n₂ : UInt32), s₁ ≤ 0xffffffffffffffff - epoch →
      s₂ ≤ 0xffffffffffffffff - epoch →
      ∃ ts₁ ts₂, fromUnix checks s₁ n₁ = some ts₁ ∧ fromUnix checks s₂ n₂ = some ts₂ ∧
        (ts₂.isNewerThan ts₁ = true ↔ s₁ < s₂ ∨ s₁ = s₂ ∧ n₁ < n₂)) ∧
    ∀ (checks : Bool) (key : NodePublic) (before : List UInt64) (counter : UInt64),
      (checks = false → ∀ c ∈ counter :: before, c ≤ 0xffffffffffffffff - epoch) →
      let p := (Peer.new key).presentAll checks before
      (counter ≤ 0xffffffffffffffff - epoch →
        ((p.present checks counter).2 = some (.ok ()) ↔
          ∀ c ∈ accepted checks (Peer.new key) before, c < counter)) ∧
      (¬ counter ≤ 0xffffffffffffffff - epoch → (p.present checks counter).2 = none) ∧
      ((p.present checks counter).2 ≠ some (.ok ()) → (p.present checks counter).1 = p) := by
  refine ⟨?_, ?_⟩
  · intro checks s₁ s₂ n₁ n₂ h₁ h₂
    exact isNewerThan_fromUnix checks n₁ n₂ ((fits_iff s₁).mpr h₁) ((fits_iff s₂).mpr h₂)
  · intro checks key before counter hbound p
    -- the peer behind the run keeps the greatest counter accepted
    have htracks : Tracks checks p (accepted checks (Peer.new key) before) := by
      have := tracks_presentAll before (tracks_new checks key) fun hc c hm =>
        (fits_iff c).mpr (hbound hc c (List.mem_cons_of_mem _ hm))
      rwa [List.nil_append] at this
    rw [← fits_iff]
    by_cases hf : Fits counter
    · refine ⟨fun _ => ?_, fun h => absurd hf h, ?_⟩
      · rcases present_cases htracks hf with ⟨hall, hok, -⟩ | ⟨⟨c, hc, hle⟩, hrefused⟩
        · exact iff_of_true hok hall
        · rw [hrefused]
          exact iff_of_false (by simp) fun hall => UInt64.not_le.mpr (hall c hc) hle
      · intro hnot
        rcases present_cases htracks hf with ⟨-, hok, -⟩ | ⟨-, hrefused⟩
        · exact absurd hok hnot
        · rw [hrefused]
    · have hchecks : checks = true := by
        by_contra hc
        exact hf ((fits_iff counter).mpr
          (hbound (Bool.eq_false_iff.mpr hc) counter List.mem_cons_self))
      subst hchecks
      rw [present_of_not_fits p hf]
      exact ⟨fun h => absurd h hf, fun _ => rfl, fun _ => rfl⟩

/-- The counters 5, 5 and 4, and then 6. -/
theorem accepts_greater_counters_six :
    (((Peer.new ⟨Vector.replicate 32 0⟩).presentAll false [5, 5, 4]).present false 6).2 =
      some (.ok ()) := by
  have hbound : ∀ c ∈ ([6, 5, 5, 4] : List UInt64), c ≤ 0xffffffffffffffff - epoch := by
    simp only [List.forall_mem_cons]
    exact ⟨by decide, by decide, by decide, by decide, List.forall_mem_nil _⟩
  have haccepted : accepted false (Peer.new ⟨Vector.replicate 32 0⟩) [5, 5, 4] = [5] := by
    decide +kernel
  refine ((accepts_greater_counters.2 false _ [5, 5, 4] 6 fun _ => hbound).1 (by decide)).mpr ?_
  rw [haccepted]
  intro c hc
  rw [List.mem_singleton.mp hc]
  decide

end Peer

end Lando
