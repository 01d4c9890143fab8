/-
Lando/FwControl.lean

How the firmware opens the control channel (`lando-fw/src/control.rs`): the
upgrade request, the `101`, the Noise response, and whatever of the session
came with it.

Two loops read into one buffer of 512 bytes.  The first parses the buffer
after every read until the headers are complete, the second goes on until the
Noise response is; what lies behind it is handed on as leftover.  Both loops
keep

    buf ++ socket.flatten = everything the server sent

so the outcome is a function of that byte string, and no cut of it into
segments can matter (`connect_spec`).
-/
import Lando.NoiseHandshake
import Lando.Socket
import Lando.Upgrade

namespace Lando.Fw.Control

open Bytes Noise Upgrade Socket

/-- `ControlError`. -/
inductive ControlError
  | dns
  | connect
  | io
  | refused
  | handshake
  deriving DecidableEq, Repr

/-- The length of the read buffer. -/
def bufLen : ℕ := 512

/-- What `connect` hands over: the socket, the session, and the bytes of the
session that were read already. -/
structure Connected where
  socket : List (List UInt8)
  session : Noise.Session
  leftover : List UInt8

/-- Reads until the headers of the response are complete.  Every turn reads
a byte at least, so `k` turns are enough when `k` is more than the room. -/
def awaitUpgrade : ℕ → List UInt8 → List (List UInt8) →
    Except ControlError (ℕ × List UInt8 × List (List UInt8))
  | 0, _, _ => .error .handshake
  | k + 1, buf, socket =>
      if buf.length = bufLen then .error .handshake
      else
        match read (bufLen - buf.length) socket with
        | none => .error .io
        | some ([], _) => .error .io
        | some (b :: bs, socket) =>
            let buf := buf ++ b :: bs
            match parseResponse buf with
            | .ok bodyStart => .ok (bodyStart, buf, socket)
            | .error .incomplete => awaitUpgrade k buf socket
            | .error _ => .error .refused

/-- Reads until the Noise response is complete. -/
def awaitResponse (bodyStart : ℕ) : ℕ → List UInt8 → List (List UInt8) →
    Except ControlError (List UInt8 × List (List UInt8))
  | k, buf, socket =>
      if buf.length - bodyStart < responseLen then
        -- an unauthenticated error of the server, in plain text
        if headerLen ≤ buf.length - bodyStart ∧ buf.getD bodyStart 0 = msgTypeError then
          .error .refused
        else
          match k with
          | 0 => .error .io
          | k + 1 =>
              match read (bufLen - buf.length) socket with
              | none => .error .io
              | some ([], _) => .error .io
              | some (b :: bs, socket) => awaitResponse bodyStart k (buf ++ b :: bs) socket
      else .ok (buf, socket)

/-- Everything after the request was sent. -/
def receive (P : Primitives) (handshake : Handshake) (socket : List (List UInt8)) :
    Except ControlError Connected := do
  let (bodyStart, buf, socket) ← awaitUpgrade (bufLen + 1) [] socket
  let (buf, socket) ← awaitResponse bodyStart (bufLen + 1) buf socket
  match handshake.finish P (slice buf bodyStart (bodyStart + responseLen)) with
  | .error _ => .error .handshake
  | .ok session => .ok ⟨socket, session, buf.drop (bodyStart + responseLen)⟩

/-- Opens a session.  `dial` is what name resolution and TCP came to, `sent`
whether the request could be written. -/
def connect (P : Primitives) (dial : Except ControlError Unit) (sent : Bool) (host : String)
    (controlKey : MachinePublic) (machineKey ephemeral : MachinePrivate)
    (capabilityVersion : UInt16) (socket : List (List UInt8)) : Except ControlError Connected := do
  dial
  match Handshake.start P machineKey controlKey capabilityVersion ephemeral with
  -- a panic of the source, on a cipher that cannot encrypt 32 bytes
  | .error _ => .error .handshake
  | .ok (handshake, initiation) =>
      match buildRequest host initiation maxRequestLen with
      | .error _ => .error .handshake
      | .ok _ => if sent then receive P handshake socket else .error .io

/-! ### The first loop -/

/-- The first loop stops at the first blank line, if that is within the
buffer and answers with `101`. -/
theorem awaitUpgrade_spec {k : ℕ} {buf : List UInt8} {socket : List (List UInt8)}
    (hflow : Flowing socket) (hbuf : parseResponse buf = .error .incomplete)
    (hlen : buf.length ≤ bufLen) (hk : bufLen < k + buf.length) :
    match parseResponse ((buf ++ socket.flatten).take bufLen) with
    | .ok bodyStart => ∃ buf' socket', awaitUpgrade k buf socket = .ok (bodyStart, buf', socket') ∧
        buf' ++ socket'.flatten = buf ++ socket.flatten ∧ Flowing socket' ∧
        buf'.length ≤ bufLen ∧ bodyStart ≤ buf'.length
    | .error _ => ∃ e, awaitUpgrade k buf socket = .error e := by
  induction k generalizing buf socket with
  | zero => omega
  | succ k ih =>
    rw [awaitUpgrade]
    by_cases hfull : buf.length = bufLen
    · rw [if_pos hfull, ← hfull, List.take_left, hbuf]
      exact ⟨_, rfl⟩
    rw [if_neg hfull]
    rcases hread : read (bufLen - buf.length) socket with - | ⟨bytes, socket'⟩
    · rw [read_none hread, List.flatten_nil, List.append_nil, List.take_of_length_le hlen, hbuf]
      exact ⟨_, rfl⟩
    obtain ⟨hsplit, hroom, hsome, hflow'⟩ := read_spec hflow hread
    cases bytes with
    | nil => exact absurd rfl (hsome (by omega))
    | cons b bs =>
      have hlen' : (buf ++ b :: bs).length ≤ bufLen := by
        rw [List.length_append]
        omega
      have htotal : buf ++ b :: bs ++ socket'.flatten = buf ++ socket.flatten := by
        rw [← hsplit, List.append_assoc]
      -- the buffer is the front of what the server sent
      have htake : (buf ++ socket.flatten).take bufLen =
          buf ++ b :: bs ++ socket'.flatten.take (bufLen - (buf ++ b :: bs).length) := by
        rw [← htotal, List.take_append, List.take_of_length_le hlen']
      simp only
      by_cases hinc : parseResponse (buf ++ b :: bs) = .error .incomplete
      · have hk' : bufLen < k + (buf ++ b :: bs).length := by
          rw [List.length_append, List.length_cons]
          omega
        have hnext := ih hflow' hinc hlen' hk'
        rw [htotal] at hnext
        rw [hinc]
        exact hnext
      · rw [htake, parseResponse_append hinc]
        rcases hp : parseResponse (buf ++ b :: bs) with e | n
        · refine ⟨.refused, ?_⟩
          cases e with
          | incomplete => exact absurd hp hinc
          | notSwitching => rfl
          | malformed => rfl
          | shortBuffer => rfl
        · exact ⟨_, _, rfl, htotal, hflow', hlen', parseResponse_le hp⟩

/-! ### The second loop -/

/-- The second loop stops behind the Noise response, if that is within the
buffer; an error of the server in its place may end it before. -/
theorem awaitResponse_spec {bodyStart k : ℕ} {buf : List UInt8} {socket : List (List UInt8)}
    (hflow : Flowing socket) (hlen : buf.length ≤ bufLen) (hk : bufLen < k + buf.length)
    (hstart : bodyStart ≤ buf.length) :
    (∃ buf' socket', awaitResponse bodyStart k buf socket = .ok (buf', socket') ∧
        buf' ++ socket'.flatten = buf ++ socket.flatten ∧ bodyStart + responseLen ≤ buf'.length ∧
        buf'.length ≤ bufLen) ∨
      (∃ e, awaitResponse bodyStart k buf socket = .error e) ∧
        (bufLen < bodyStart + responseLen ∨
          (buf ++ socket.flatten).length < bodyStart + responseLen ∨
          (buf ++ socket.flatten).getD bodyStart 0 = msgTypeError) := by
  induction k generalizing buf socket with
  | zero => omega
  | succ k ih =>
    rw [awaitResponse]
    by_cases hmore : buf.length - bodyStart < responseLen
    swap
    · rw [if_neg hmore]
      exact .inl ⟨buf, socket, rfl, rfl, by omega, hlen⟩
    rw [if_pos hmore]
    by_cases hthree : headerLen ≤ buf.length - bodyStart ∧ buf.getD bodyStart 0 = msgTypeError
    · rw [if_pos hthree]
      refine .inr ⟨⟨_, rfl⟩, .inr (.inr ?_)⟩
      have hlt : bodyStart < buf.length := by
        have := hthree.1
        simp only [headerLen] at this
        omega
      rw [← hthree.2, List.getD_eq_getElem?_getD, List.getElem?_append_left hlt,
        ← List.getD_eq_getElem?_getD]
    rw [if_neg hthree]
    rcases hread : read (bufLen - buf.length) socket with - | ⟨bytes, socket'⟩
    · refine .inr ⟨⟨_, rfl⟩, .inr (.inl ?_)⟩
      rw [read_none hread, List.flatten_nil, List.append_nil]
      omega
    obtain ⟨hsplit, hroom, hsome, hflow'⟩ := read_spec hflow hread
    cases bytes with
    | nil =>
      -- no room for a byte of the response that is still missing
      have hfull : ¬ 0 < bufLen - buf.length := fun hpos => hsome hpos rfl
      exact .inr ⟨⟨_, rfl⟩, .inl (by omega)⟩
    | cons b bs =>
      have htotal : buf ++ b :: bs ++ socket'.flatten = buf ++ socket.flatten := by
        rw [← hsplit, List.append_assoc]
      have hlen' : (buf ++ b :: bs).length ≤ bufLen := by
        rw [List.length_append]
        omega
      have hk' : bufLen < k + (buf ++ b :: bs).length := by
        rw [List.length_append, List.length_cons]
        omega
      have hstart' : bodyStart ≤ (buf ++ b :: bs).length := by
        rw [List.length_append]
        omega
      have hnext := ih hflow' hlen' hk' hstart'
      rw [htotal] at hnext
      exact hnext

/-! ### What the server sent decides -/

/-- The bytes `sent` open the session: the headers and the Noise response
are within the buffer, and the handshake accepts the response. -/
def Opens (P : Primitives) (handshake : Handshake) (sent : List UInt8) (bodyStart : ℕ)
    (session : Noise.Session) : Prop :=
  parseResponse sent = .ok bodyStart ∧ bodyStart + responseLen ≤ bufLen ∧
    bodyStart + responseLen ≤ sent.length ∧
    handshake.finish P (slice sent bodyStart (bodyStart + responseLen)) = .ok session

variable {P : Primitives}

/-- The response stands at the same place in every front that holds it. -/
theorem slice_append_of_le {a b : List UInt8} {lo hi : ℕ} (h : hi ≤ a.length) :
    slice (a ++ b) lo hi = slice a lo hi := by
  rcases Nat.le_total lo hi with hle | hle
  · rw [slice, slice, List.drop_append_of_le_length (by omega),
      List.take_append_of_le_length (by rw [List.length_drop]; omega)]
  · rw [slice, slice, Nat.sub_eq_zero_of_le hle, List.take_zero, List.take_zero]

theorem getD_slice (sent : List UInt8) (n : ℕ) :
    (slice sent n (n + responseLen)).getD 0 0 = sent.getD n 0 := by
  rw [List.getD_eq_getElem?_getD, getElem?_slice, Nat.add_sub_cancel_left, if_pos (by decide),
    Nat.add_zero, ← List.getD_eq_getElem?_getD]

/-- **The outcome is a function of the bytes sent.** -/
theorem receive_spec (handshake : Handshake) {socket : List (List UInt8)}
    (hflow : Flowing socket) :
    (∃ bodyStart session leftover socket',
      receive P handshake socket = .ok ⟨socket', session, leftover⟩ ∧
        Opens P handshake socket.flatten bodyStart session ∧
        leftover ++ socket'.flatten = socket.flatten.drop (bodyStart + responseLen)) ∨
      (∃ e, receive P handshake socket = .error e) ∧
        ∀ bodyStart session, ¬ Opens P handshake socket.flatten bodyStart session := by
  have hempty : parseResponse [] = .error .incomplete := rfl
  have hhead := awaitUpgrade_spec (k := bufLen + 1) hflow hempty (by decide) (by decide)
  rw [List.nil_append] at hhead
  unfold receive
  rcases hp : parseResponse (socket.flatten.take bufLen) with e | bodyStart
  · rw [hp] at hhead
    obtain ⟨e', he⟩ := hhead
    refine .inr ⟨⟨e', by rw [he]; rfl⟩, ?_⟩
    rintro n session ⟨hn, hle, -, -⟩
    rw [parseResponse_take hn (by omega)] at hp
    cases hp
  · have hparse : parseResponse socket.flatten = .ok bodyStart := by
      have hmore := parseResponse_append
        (show parseResponse (socket.flatten.take bufLen) ≠ _ by rw [hp]; exact nofun)
        (socket.flatten.drop bufLen)
      rwa [List.take_append_drop, hp] at hmore
    -- where the session opens is settled by the headers
    have hstart : ∀ n session, Opens P handshake socket.flatten n session → n = bodyStart := by
      intro n session h
      have := h.1
      rw [hparse] at this
      exact (Except.ok.inj this).symm
    rw [hp] at hhead
    obtain ⟨buf, rest, he, htotal, hflow', hlen, hle⟩ := hhead
    rw [he]
    simp only [Except.bind, bind]
    rcases awaitResponse_spec hflow' hlen (show bufLen < bufLen + 1 + buf.length by omega) hle with
      ⟨buf', rest', he', htotal', hle', hlen'⟩ | ⟨⟨e, he'⟩, hbad⟩
    · have hall : socket.flatten = buf' ++ rest'.flatten := by rw [htotal', htotal]
      have hslice : slice buf' bodyStart (bodyStart + responseLen) =
          slice socket.flatten bodyStart (bodyStart + responseLen) := by
        rw [hall, slice_append_of_le hle']
      rw [he']
      simp only
      rw [hslice]
      rcases hfin : handshake.finish P (slice socket.flatten bodyStart (bodyStart + responseLen))
        with e | session
      · refine .inr ⟨⟨_, rfl⟩, ?_⟩
        intro n session h
        have hn := hstart n session h
        subst hn
        rw [h.2.2.2] at hfin
        cases hfin
      · refine .inl ⟨bodyStart, session, _, rest', rfl, ⟨hparse, by omega, ?_, hfin⟩, ?_⟩
        · rw [hall, List.length_append]
          omega
        · rw [hall, List.drop_append_of_le_length hle']
    · rw [he']
      refine .inr ⟨⟨e, rfl⟩, ?_⟩
      intro n session h
      have hn := hstart n session h
      subst hn
      obtain ⟨-, hroom, hsent, hfin⟩ := h
      rw [htotal] at hbad
      rcases hbad with hbad | hbad | hbad
      · omega
      · omega
      · have hkind := Handshake.kind_of_finish hfin
        rw [getD_slice, hbad] at hkind
        exact absurd hkind (by decide)

/-- The outcomes of two runs agree: both fail, or both open the same session
and leave the same bytes of it, those behind the Noise response. -/
def Agree (sent : List UInt8) (a b : Except ControlError Connected) : Prop :=
  ((∃ e, a = .error e) ∧ ∃ e, b = .error e) ∨
    ∃ c d bodyStart, a = .ok c ∧ b = .ok d ∧ c.session = d.session ∧
      parseResponse sent = .ok bodyStart ∧
      c.leftover ++ c.socket.flatten = sent.drop (bodyStart + responseLen) ∧
      d.leftover ++ d.socket.flatten = sent.drop (bodyStart + responseLen)

theorem Agree.receive (handshake : Handshake) {s t : List (List UInt8)} (hs : Flowing s)
    (ht : Flowing t) (hbytes : s.flatten = t.flatten) :
    Agree s.flatten (Control.receive P handshake s) (Control.receive P handshake t) := by
  rcases receive_spec (P := P) handshake hs with
    ⟨m, session, ls, rest, he, hopens, hrest⟩ | ⟨hfail, hnot⟩
  · rcases receive_spec (P := P) handshake ht with
      ⟨n, session', lt, rest', he', hopens', hrest'⟩ | ⟨-, hnot'⟩
    · have hm := hopens.1
      have hn := hopens'.1
      rw [← hbytes] at hopens' hn hrest'
      obtain rfl : m = n := Except.ok.inj (hm.symm.trans hn)
      obtain rfl : session = session' :=
        Except.ok.inj (hopens.2.2.2.symm.trans hopens'.2.2.2)
      exact .inr ⟨_, _, m, he, he', rfl, hm, hrest, hrest'⟩
    · exact absurd (hbytes ▸ hopens) (hnot' m session)
  · rcases receive_spec (P := P) handshake ht with
      ⟨n, session', lt, rest', he', hopens', -⟩ | ⟨hfail', -⟩
    · exact absurd (hbytes ▸ hopens') (hnot n session')
    · exact .inl ⟨hfail, hfail'⟩

/-- **No cut matters.**  Whatever the server sends, two runs that receive it
in different segments fail both, or open the same session and hand over the
same bytes of it; and parsing the response again with more bytes never
changes its answer. -/
theorem connect_any_segments (P : Primitives) (dial : Except ControlError Unit) (sent : Bool)
    (host : String) (controlKey : MachinePublic) (machineKey ephemeral : MachinePrivate)
    (capabilityVersion : UInt16) {s t : List (List UInt8)} (hs : Flowing s) (ht : Flowing t)
    (hbytes : s.flatten = t.flatten) :
    Agree s.flatten
        (connect P dial sent host controlKey machineKey ephemeral capabilityVersion s)
        (connect P dial sent host controlKey machineKey ephemeral capabilityVersion t) ∧
      ∀ b e, parseResponse b ≠ .error .incomplete → parseResponse (b ++ e) = parseResponse b := by
  refine ⟨?_, fun b e h => parseResponse_append h e⟩
  unfold connect
  cases dial with
  | error e => exact .inl ⟨⟨e, rfl⟩, ⟨e, rfl⟩⟩
  | ok _ =>
    simp only [Except.bind, bind]
    rcases Handshake.start P machineKey controlKey capabilityVersion ephemeral with
      e | ⟨handshake, initiation⟩
    · exact .inl ⟨⟨_, rfl⟩, ⟨_, rfl⟩⟩
    · simp only
      rcases buildRequest host initiation maxRequestLen with e | request
      · exact .inl ⟨⟨_, rfl⟩, ⟨_, rfl⟩⟩
      · cases sent with
        | false => exact .inl ⟨⟨_, rfl⟩, ⟨_, rfl⟩⟩
        | true => exact Agree.receive handshake hs ht hbytes

/-- A whole answer and three bytes of the session, cut inside the blank line or
one byte behind the Noise response: either way the same session opens, and the
three bytes are what is left of it. -/
theorem connect_any_segments_leftover :
    let bytes := "HTTP/1.1 101 Switching Protocols\r\n\r\n".toUTF8.toList ++
      ([2, 0, 48] ++ List.replicate 32 81 ++ (List.replicate 4 [135, 71, 7, 199]).flatten) ++
      [7, 8, 9]
    let run := connect samplePrimitives (.ok ()) true "a" ⟨Vector.replicate 32 84⟩
      ⟨Vector.replicate 32 2⟩ ⟨Vector.replicate 32 3⟩ 145
    ∃ c d, run [bytes.take 34, bytes.drop 34] = .ok c ∧ run [bytes.take 88, bytes.drop 88] = .ok d ∧
      c.session = d.session ∧ (c.leftover, c.socket) = ([7, 8, 9], []) ∧
      (d.leftover, d.socket) = ([7], [[8, 9]]) ∧
      c.leftover ++ c.socket.flatten = bytes.drop 87 ∧
      d.leftover ++ d.socket.flatten = bytes.drop 87 := by
  intro bytes run
  have hs : Flowing [bytes.take 34, bytes.drop 34] := by unfold Flowing; decide +kernel
  have ht : Flowing [bytes.take 88, bytes.drop 88] := by unfold Flowing; decide +kernel
  have hjoin : ∀ n, [bytes.take n, bytes.drop n].flatten = bytes := by
    intro n
    rw [List.flatten_cons, List.flatten_singleton, List.take_append_drop]
  have hagree : Agree [bytes.take 34, bytes.drop 34].flatten (run [bytes.take 34, bytes.drop 34])
      (run [bytes.take 88, bytes.drop 88]) :=
    (connect_any_segments samplePrimitives (.ok ()) true "a" _ _ _ 145 hs ht
      ((hjoin 34).trans (hjoin 88).symm)).1
  have hrun : (run [bytes.take 34, bytes.drop 34]).toOption.map
      (fun c => (c.leftover, c.socket)) = some ([7, 8, 9], []) := by decide +kernel
  have hrun' : (run [bytes.take 88, bytes.drop 88]).toOption.map
      (fun c => (c.leftover, c.socket)) = some ([7], [[8, 9]]) := by decide +kernel
  have hparse : parseResponse bytes = .ok 36 := by decide +kernel
  rw [hjoin] at hagree
  rcases hagree with ⟨⟨e, he⟩, -⟩ | ⟨c, d, bodyStart, hc, hd, hsession, hstart, hleft, hleft'⟩
  · rw [he] at hrun
    cases hrun
  · obtain rfl : bodyStart = 36 := Except.ok.inj (hstart.symm.trans hparse)
    rw [hc] at hrun
    rw [hd] at hrun'
    exact ⟨c, d, hc, hd, hsession, Option.some.inj hrun, Option.some.inj hrun', hleft, hleft'⟩

end Lando.Fw.Control
