/-
The store of one thread in a hazard epoch: the version it has published, and the nodes that wait
there to be freed. Only the owner publishes and queues; draining moves the nodes that are still too
new to a store of the drainer's own.
-/
import BackoffStack.Hazard.Handle
import BackoffStack.Status

namespace BackoffStack

/-- The version that stands for none. Publishing it publishes nothing. -/
def idleVersion : Nat := UInt64.size - 1

/-- A node to be freed. Freeing it runs its drop function, which hands over further nodes. -/
inductive Node (ι : Type) where
  | mk (label : ι) (onFree : List (Node ι))

namespace Node

variable {ι : Type}

/-- What a node is known by. -/
def label : Node ι → ι
  | mk label _ => label

/-- The nodes that its drop function hands over, in order. -/
def onFree : Node ι → List (Node ι)
  | mk _ nodes => nodes

/-- A node whose drop function does nothing. -/
def leaf (label : ι) : Node ι := mk label []

@[simp] theorem label_leaf (label : ι) : (leaf label).label = label := rfl

@[simp] theorem onFree_leaf (label : ι) : (leaf label).onFree = [] := rfl

instance [Inhabited ι] : Inhabited (Node ι) := ⟨leaf default⟩

end Node

/-- A node in a waiting list, with the version it was queued under. -/
structure Waiting (ι : Type) where
  version : Nat
  node : Node ι

/-- The store of one thread. The head of the waiting list was queued last. -/
structure Store (ι : Type) where
  enabled : Bool := false
  owner : Nat := 0
  published : Option Nat := none
  sequence : UInt32 := 0
  lastRetired : Nat := 0
  waiting : List (Waiting ι) := []
  count : Int := 0
  next : Option Nat := none

namespace Store

variable {ι : Type}

instance : Inhabited (Store ι) := ⟨{}⟩

/-- From now on the store belongs to the thread with this id. -/
def enable (s : Store ι) (id : Nat) : Store ι :=
  { s with owner := id, enabled := true }

/-- What a reader of the published version sees. -/
def version (s : Store ι) : Nat := s.published.getD idleVersion

/-- The owner is the only thread that may use a store. -/
def assertOwner (s : Store ι) (caller : Nat) : Except Violation Unit :=
  if caller = s.owner then .ok () else .error (.notOwner caller s.owner)

/-- The handle of the acquisition that is under way, or of the next one. -/
def handle (s : Store ι) : Handle := ⟨s.owner, s.sequence⟩

/-- Makes a version known as the oldest that its owner may still observe. -/
def publish (s : Store ι) (version : Nat) : Store ι :=
  { s with published := if version = idleVersion then none else some version }

/-- Publishes `version`, unless a version is published already. -/
def acquire (s : Store ι) (caller version : Nat) :
    Except Violation (Except Status Handle × Store ι) := do
  s.assertOwner caller
  if s.published.isSome then
    return (.error .busy, s)
  else
    return (.ok s.handle, s.publish version)

/-- A handle with the owner's id is turned down if its sequence is not the current one. Handles that
name another id are not told apart. -/
def accepts (s : Store ι) (h : Handle) : Bool :=
  !(s.owner == h.tid && s.sequence != h.sequence)

theorem accepts_own {s : Store ι} {id : Nat} (howner : s.owner = id) (sequence : UInt32) :
    s.accepts ⟨id, sequence⟩ = decide (s.sequence = sequence) := by
  by_cases h : s.sequence = sequence <;> simp [accepts, howner, h]

/-- Nothing is published any more, and the handle is used up. -/
def unpublish (s : Store ι) : Store ι :=
  { s with published := none, sequence := s.sequence + 1 }

/-- Ends an acquisition, if the handle is accepted. -/
def release (s : Store ι) (caller : Nat) (h : Handle) : Except Violation (Store ι) := do
  s.assertOwner caller
  return if s.accepts h then s.unpublish else s

/-- Puts nodes before those that wait already. -/
def receive (s : Store ι) (nodes : List (Waiting ι)) : Store ι :=
  { s with waiting := nodes ++ s.waiting, count := s.count + nodes.length }

/-- Queues a node. A version that was drained before may have to be drained again. -/
def add (s : Store ι) (caller version : Nat) (node : Node ι) : Except Violation (Store ι) := do
  s.assertOwner caller
  return { s.receive [⟨version, node⟩] with lastRetired := 0 }

/-- One pass over a waiting list: the nodes that are too new for `version` stay in order, and each
of the others goes on top of `freed`. -/
def sift (version : Nat) :
    List (Waiting ι) → List (Waiting ι) → List (Waiting ι) × List (Waiting ι)
  | [], freed => ([], freed)
  | w :: rest, freed =>
    if w.version ≤ version then
      sift version rest (w :: freed)
    else
      let (kept, freed) := sift version rest freed
      (w :: kept, freed)

/-- One pass keeps the nodes newer than `version` in order, and turns the others around. -/
theorem sift_eq (version : Nat) (waiting freed : List (Waiting ι)) :
    sift version waiting freed =
      (waiting.filter (version < ·.version),
        (waiting.filter (·.version ≤ version)).reverse ++ freed) := by
  induction waiting generalizing freed with
  | nil => rfl
  | cons w rest ih =>
    by_cases h : w.version ≤ version
    · simp [sift, h, ih, Nat.not_lt.2 h]
    · simp [sift, h, ih, Nat.not_le.1 h]

/-- What is left of a store after draining, the nodes that are too new, and those to be freed. -/
structure Drained (ι : Type) where
  store : Store ι
  kept : List (Waiting ι) := []
  freed : List (Waiting ι) := []

/-- Takes all nodes off the waiting list and parts them at `version`. Nothing happens if the very
same version was drained last. -/
def drain (s : Store ι) (version : Nat) : Drained ι :=
  if s.lastRetired = version then
    { store := s }
  else
    let (kept, freed) := sift version s.waiting []
    { store :=
        { s with
          lastRetired := version
          waiting := []
          count := s.count - (kept.length + freed.length) }
      kept
      freed }

/-- The destructor's way along a waiting list: each node is freed before the next one is looked at. Here
`free` is what freeing a node does; drop functions do not run any more. -/
def freeAlong {σ : Type} (free : ι → σ → σ) : List (Waiting ι) → σ → σ
  | [], gone => gone
  | w :: rest, gone => freeAlong free rest (free w.node.label gone)

/-- The destructor of a store frees the nodes that still wait there, from the head of the list. -/
def destroy {σ : Type} (s : Store ι) (free : ι → σ → σ) (gone : σ) : σ :=
  freeAlong free s.waiting gone

theorem freeAlong_eq_foldl {σ : Type} (free : ι → σ → σ) (waiting : List (Waiting ι)) (gone : σ) :
    freeAlong free waiting gone =
      (waiting.map (·.node.label)).foldl (fun gone label => free label gone) gone := by
  induction waiting generalizing gone with
  | nil => rfl
  | cons w rest ih => exact ih _

end Store

end BackoffStack
