/-
Lando/Items.lean

What a caller makes of the items of a reader (`Framing`): the control frames,
the headers of the streamed frames that ended, and the payload bytes of the
frames it is interested in.

Each of these is a function of the frames, whatever the calls were: control
frames and ends belong to the frames that were completed, and payload bytes to
them and to the unfinished frame behind (`Renders.controls`, `Renders.finals`,
`Renders.bodies`).
-/
import Lando.Framing

namespace Framing

variable {β η ε : Type}

/-- The control frames among the items. -/
def controls : List (Item β η) → List (η × List β)
  | [] => []
  | .control h payload :: items => (h, payload) :: controls items
  | .body _ _ _ :: items => controls items

/-- The headers of the streamed frames that ended. -/
def finals : List (Item β η) → List η
  | [] => []
  | .body h _ true :: items => h :: finals items
  | _ :: items => finals items

/-- The chunks of the frames whose header satisfies `on`. -/
def bodies (on : η → Bool) : List (Item β η) → List (List β)
  | [] => []
  | .body h chunk _ :: items => if on h then chunk :: bodies on items else bodies on items
  | .control _ _ :: items => bodies on items

theorem bodies_append (on : η → Bool) (items items' : List (Item β η)) :
    bodies on (items ++ items') = bodies on items ++ bodies on items' := by
  induction items with
  | nil => rfl
  | cons item items ih =>
    cases item with
    | control h payload => simp only [List.cons_append, bodies, ih]
    | body h chunk last =>
      simp only [List.cons_append, bodies, ih]
      split_ifs <;> rfl

/-! ### Parts of a rendering -/

variable {F : Format β η ε}

/-- The control frame that a frame is handed back as. -/
def Wire.asControl (f : Wire F) : List (η × List β) :=
  if F.whole f.header then [(f.header, f.payload.take F.controlMax)] else []

/-- The header of a frame that is streamed. -/
def Wire.asFinal (f : Wire F) : List η := if F.whole f.header then [] else [f.header]

/-- The payload of a frame that is streamed to someone. -/
def Wire.asBody (on : η → Bool) (f : Wire F) : List β :=
  if on f.header && !F.whole f.header then f.payload else []

theorem Renders.controls {acc p : List β} {fs : List (Wire F)} {items : List (Item β η)}
    (h : Renders F acc fs p items) : Framing.controls items = fs.flatMap Wire.asControl := by
  induction h with
  | nil all => rfl
  | control kind rest ih =>
    rw [Framing.controls, ih, List.flatMap_cons, Wire.asControl, if_pos kind]
    rfl
  | last kind payload tail rest ih =>
    rw [Framing.controls, ih, List.flatMap_cons, Wire.asControl, if_neg (by rw [kind]; decide)]
    rfl
  | chunk nonempty rest ih => exact ih
  | tail nonempty enough rest ih => exact ih

theorem Renders.finals {acc p : List β} {fs : List (Wire F)} {items : List (Item β η)}
    (h : Renders F acc fs p items) : Framing.finals items = fs.flatMap Wire.asFinal := by
  induction h with
  | nil all => rfl
  | control kind rest ih =>
    rw [Framing.finals, ih, List.flatMap_cons, Wire.asFinal, if_pos kind]
    · rfl
    · exact nofun
  | last kind payload tail rest ih =>
    rw [Framing.finals, ih, List.flatMap_cons, Wire.asFinal, if_neg (by rw [kind]; decide)]
    rfl
  | chunk nonempty rest ih => exact ih
  | tail nonempty enough rest ih => exact ih

/-- The header of the first frame, be it finished or not. -/
def firstHeader (fs : List (Wire F)) (p : List β) : η :=
  match fs with
  | [] => F.decode (p.take F.headerLen)
  | f :: _ => f.header

/-- The bytes at the start of a run belong to its first frame. -/
theorem firstHeader_eq {fs : List (Wire F)} {p p' input : List β}
    (split : p ++ input = stream fs ++ p') (hlen : F.headerLen ≤ p.length) :
    firstHeader fs p' = F.decode (p.take F.headerLen) := by
  cases fs with
  | nil =>
    rw [stream_nil, List.nil_append] at split
    rw [firstHeader, ← split, List.take_append_of_le_length hlen]
  | cons f fs =>
    rw [take_header_stream hlen split]
    rfl

/-- What is passed on in chunks now, behind `acc` that was passed on before,
is the payload of the frames and of the unfinished one. -/
theorem Renders.bodies {acc p : List β} {fs : List (Wire F)} {items : List (Item β η)}
    (on : η → Bool) (h : Renders F acc fs p items) :
    (if on (firstHeader fs p) then acc else []) ++ (Framing.bodies on items).flatten =
      fs.flatMap (Wire.asBody on) ++
        if on (F.decode (p.take F.headerLen)) then F.streamed p else [] := by
  induction h with
  | @nil acc p all =>
    rw [← all, Framing.bodies, List.flatten_nil, List.append_nil]
    rfl
  | @control f fs p items kind rest ih =>
    rw [ite_self, List.nil_append] at ih ⊢
    rw [Framing.bodies, ih, List.flatMap_cons, Wire.asBody, kind, Bool.not_true, Bool.and_false]
    rfl
  | @last acc chunk f fs p items kind payload tail rest ih =>
    rw [ite_self, List.nil_append] at ih
    rw [Framing.bodies, List.flatMap_cons, Wire.asBody, kind, firstHeader]
    by_cases hon : on f.header
    · simp [hon, ih, ← payload]
    · simp [hon, ih]
  | @chunk acc chunk f fs p items nonempty rest ih =>
    rw [← ih, Framing.bodies, firstHeader]
    by_cases hon : on f.header
    · simp [hon]
    · simp [hon]
  | @tail acc chunk p items nonempty enough rest ih =>
    rw [← ih, Framing.bodies, firstHeader]
    by_cases hon : on (F.decode (p.take F.headerLen))
    · simp [hon]
    · simp [hon]

end Framing
