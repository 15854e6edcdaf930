/-
A table of slots, one for each thread id, that grows by whole segments and never moves a slot.

A look-up walks along the chain of segments. Where a segment is missing it appends a fresh one, in
two accesses: it looks at the end of the chain, then links its own segment there, unless another
walk has done so in between; then it goes on with the other's segment and drops its own.
-/

namespace BackoffStack

/-- Number of slots in a segment. -/
def segmentSize : Nat := 16

/-- Slots that are allocated together. -/
abbrev Segment (α : Type) := Vector α segmentSize

/-- A chain of segments. The head is always there; the others were appended, the oldest first. -/
structure SegmentTable (α : Type) where
  head : Segment α
  appended : Array (Segment α) := #[]

namespace SegmentTable

variable {α : Type}

/-- A segment nobody has used yet. -/
def fresh [Inhabited α] : Segment α := Vector.replicate segmentSize default

/-- A table with its head only. -/
def new [Inhabited α] : SegmentTable α := { head := fresh }

instance [Inhabited α] : Inhabited (SegmentTable α) := ⟨new⟩

/-- Number of segments. -/
def count (t : SegmentTable α) : Nat := t.appended.size + 1

/-- The segment at a place of the chain. -/
def segment? (t : SegmentTable α) : Nat → Option (Segment α)
  | 0 => some t.head
  | k + 1 => t.appended[k]?

/-- What the slot of an id holds; a slot of a segment that is still missing holds the default. -/
def get [Inhabited α] (t : SegmentTable α) (id : Nat) : α :=
  have h : id % segmentSize < segmentSize := Nat.mod_lt _ (by decide)
  match t.segment? (id / segmentSize) with
  | some s => s[id % segmentSize]
  | none => default

/-- A segment with one slot changed. -/
def changeSlot (s : Segment α) (id : Nat) (f : α → α) : Segment α :=
  have h : id % segmentSize < segmentSize := Nat.mod_lt _ (by decide)
  s.set (id % segmentSize) (f s[id % segmentSize])

/-- The table with the slot of an id changed, if its segment is there. -/
def modify (t : SegmentTable α) (id : Nat) (f : α → α) : SegmentTable α :=
  match id / segmentSize with
  | 0 => { t with head := changeSlot t.head id f }
  | k + 1 => { t with appended := t.appended.modify k (changeSlot · id f) }

/-- The table with another value in the slot of an id. -/
def set (t : SegmentTable α) (id : Nat) (a : α) : SegmentTable α :=
  t.modify id fun _ => a

/-- The slots in the order in which they go when the table does: the appended segments first, the
head last. -/
def slots (t : SegmentTable α) : List α :=
  t.appended.toList.flatMap (·.toList) ++ t.head.toList

/-- The program points of a walk. -/
inductive Walk.Point where
  /-- At a segment, about to look for the next one if the slot is further on. -/
  | look
  /-- Saw the end of the chain, about to link its own segment there. -/
  | link
  /-- At the segment of its slot. -/
  | arrived
  deriving DecidableEq

/-- A look-up on its way: the place of the segment it has reached, and how far on its slot is. -/
structure Walk where
  place : Nat := 0
  rest : Nat
  point : Walk.Point := .look
  deriving DecidableEq

namespace Walk

/-- A look-up of an id that is about to begin. -/
def start (id : Nat) : Walk := { rest := id }

/-- One segment further. -/
def advance (w : Walk) : Walk :=
  { place := w.place + 1, rest := w.rest - segmentSize }

/-- One access of a walk to the chain. -/
def step [Inhabited α] (w : Walk) (t : SegmentTable α) : Walk × SegmentTable α :=
  match w.point with
  | .look =>
    if w.rest < segmentSize then
      ({ w with point := .arrived }, t)
    else if w.place < t.appended.size then
      (w.advance, t)
    else
      ({ w with point := .link }, t)
  | .link =>
    if w.place < t.appended.size then
      (w.advance, t)
    else
      (w.advance, { t with appended := t.appended.push fresh })
  | .arrived => (w, t)

/-- A number of accesses in a row. -/
def run [Inhabited α] : Nat → Walk → SegmentTable α → Walk × SegmentTable α
  | 0, w, t => (w, t)
  | n + 1, w, t => let (w, t) := w.step t; run n w t

/-- How many accesses a look-up needs at most: two for each segment before its own, and one to see
that it has arrived. -/
def length (id : Nat) : Nat := 2 * (id / segmentSize) + 1

end Walk

/-- The table after a look-up of an id that is not disturbed: its segment is there. -/
def reach [Inhabited α] (t : SegmentTable α) (id : Nat) : SegmentTable α :=
  ((Walk.start id).run (Walk.length id) t).2

end SegmentTable

end BackoffStack
