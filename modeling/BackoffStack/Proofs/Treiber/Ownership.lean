/-
Who owns the values and the nodes of a Treiber stack.

Values are told apart by the numbers of the nodes that were made for them. A value is on the chain until
a pop takes it off, unless the attempt to push it was lost, which gives it back. The node of a value that
was taken off goes to the epoch, and is freed later by whatever thread, without its value. Dropping the
stack drops the values of the chain and frees all nodes that are left.

The pop that takes a value off returns it, unless it breaks off after that because a limit of the epoch does
not fit a word. Then nobody gets the value, and nothing drops it. So each value has one owner just as long
as no such pop comes along (`TreiberScenario.owned_or_lost`).
-/
import BackoffStack.Proofs.Hazard.Books
import BackoffStack.Proofs.Treiber.Attempts
import BackoffStack.Scenario.Treiber
import Mathlib.Data.List.MinMax

namespace BackoffStack

/-! ## Nodes without drop functions -/

theorem Node.sizeOf_lt_of_mem_onFree {ι : Type} {n m : Node ι} (h : n ∈ m.onFree) :
    sizeOf n < sizeOf m := by
  obtain ⟨label, nodes⟩ := m
  have hlt : sizeOf n < sizeOf nodes := List.sizeOf_lt_of_mem h
  rw [Node.mk.sizeOf_spec]
  omega

/-- Where no node that waits has a drop function, and none is added, drop functions add nothing. -/
theorem Epoch.Turnover.handed_eq {ι : Type} {e e' : Epoch ι} {added freed : List (Waiting ι)}
    {nodes : List (Node ι)} (h : e.Turnover added freed e')
    (hh : added.map (·.node) = nodes ++ freed.flatMap (·.node.onFree))
    (hn : ∀ n ∈ nodes, n.onFree = []) (hw : ∀ w ∈ e.waiting, w.node.onFree = []) :
    added.map (·.node) = nodes := by
  -- else the largest of the nodes that drop functions add would come from a larger one
  suffices hnil : freed.flatMap (·.node.onFree) = [] by rw [hh, hnil, List.append_nil]
  cases hmax : (freed.flatMap (·.node.onFree)).argmax sizeOf with
  | none => exact List.argmax_eq_none.1 hmax
  | some n =>
    obtain ⟨w, hfreed, hmem⟩ := List.mem_flatMap.1 (List.argmax_mem hmax)
    have hparent := h.kept.mem_iff.2 (List.mem_append_left _ hfreed)
    have hbare : w.node.onFree ≠ [] := List.ne_nil_of_mem hmem
    rcases List.mem_append.1 hparent with hadded | hwaiting
    · have hnode : w.node ∈ nodes ++ freed.flatMap (·.node.onFree) :=
        hh ▸ List.mem_map_of_mem hadded
      rcases List.mem_append.1 hnode with hnode | hnode
      · exact absurd (hn _ hnode) hbare
      · have hle := List.le_of_mem_argmax hnode hmax
        exact absurd (Node.sizeOf_lt_of_mem_onFree hmem) (Nat.not_lt.2 hle)
    · exact absurd (hw w hwaiting) hbare

/-! ## What goes with a node -/

/-- No value goes with the node. -/
def Cell.Bare {α : Type} (c : Cell α) : Prop := c.field.glue = []

theorem Cell.bare_make {α : Type} (node : Nat) (value : α) : (make node value).Bare := rfl

theorem Gone.freed_freeAll {α : Type} (g : Gone α) (cells : List (Cell α)) :
    (g.freeAll cells).freed = cells.reverse ++ g.freed := by
  unfold freeAll
  induction cells generalizing g with
  | nil => rfl
  | cons c cells ih => rw [List.foldl_cons, ih, List.reverse_cons, List.append_assoc]; rfl

/-- Where no value goes with a node, none is dropped as nodes are freed. -/
theorem Gone.freeAll_eq {α : Type} {cells : List (Cell α)} (h : ∀ c ∈ cells, c.Bare) (g : Gone α) :
    g.freeAll cells = { g with freed := cells.reverse ++ g.freed } := by
  unfold freeAll
  induction cells generalizing g with
  | nil => rfl
  | cons c cells ih =>
    have hbare : c.field.glue = [] := h c (List.mem_cons_self ..)
    rw [List.foldl_cons, ih fun c hc => h c (List.mem_cons_of_mem _ hc)]
    simp [free, hbare]

namespace TreiberStack

variable {α : Type} {s s' : TreiberStack α} {given popped back lost popped' lost' : List (Cell α)}

/-- The destructor drops the values of the chain from the top down. -/
theorem destroyAlong_eq {cells : List (Cell α)} (h : ∀ c ∈ cells, c.Bare) (g : Gone α) :
    destroyAlong cells g = {
      freed := cells.reverse ++ g.freed
      dropped := (cells.map (·.value)).reverse ++ g.dropped } := by
  induction cells generalizing g with
  | nil => rfl
  | cons c cells ih =>
    have hbare : c.field.glue = [] := h c (List.mem_cons_self ..)
    rw [destroyAlong, ih fun c hc => h c (List.mem_cons_of_mem _ hc)]
    simp [Gone.free, Gone.drop, hbare]

/-! ## Owners -/

/-- Of the values that were given to a stack, these were returned by pops, those were given back, and others
were lost. -/
structure Owned (s : TreiberStack α) (given popped back lost : List (Cell α)) : Prop where
  /-- Nodes are numbered as they are made, one for each value. -/
  numbered : given.map (·.node) = List.range s.made
  /-- A value is on the chain, or a pop has returned it, or a push that was lost has given it back, or it
  was lost itself. -/
  placed : given.Perm (s.cells ++ popped ++ back ++ lost)
  /-- Those nodes wait or have been freed whose values a pop has taken. -/
  retired : (popped ++ lost).Perm (s.gone.freed ++ s.epoch.waiting.map (·.node.label))
  /-- No node is on the chain, or waits, or has been freed, twice or besides another of these. -/
  once : ((s.cells ++ (s.gone.freed ++ s.epoch.waiting.map (·.node.label))).map (·.node)).Nodup
  /-- A node that waits is in one store, and in no other. -/
  place : ∀ w, w ∈ s.epoch.waiting ↔ ∃! id, w ∈ (s.epoch.store id).waiting
  /-- No node that was freed has taken a value with it. -/
  undropped : s.gone.dropped = []
  /-- Dropping the stack drops the values of the chain, from the top down, -/
  last : s.destroy.dropped.reverse = s.values
  /-- and frees every node that is left, once. -/
  lastNodes : s.destroy.freed.Perm (s.cells ++ popped ++ lost)
  /-- Nodes that were freed before stay so. -/
  earlier : s.gone.freed <:+ s.destroy.freed

/-- The books that are kept of a stack, and those of its epoch. -/
structure Booked (s : TreiberStack α) (given popped back lost : List (Cell α)) : Prop where
  ready : s.Ready
  numbered : given.map (·.node) = List.range s.made
  placed : given.Perm (s.cells ++ popped ++ back ++ lost)
  bare : ∀ c ∈ given, c.Bare
  undropped : s.gone.dropped = []
  nodes : ∃ added freed, s.epoch.Booked added freed ∧
    (added.map (·.node)).Perm ((popped ++ lost).map .leaf) ∧
      s.gone.freed = (freed.map (·.node.label)).reverse

namespace Booked

theorem new (threshold cacheTime : Int64) :
    (TreiberStack.new threshold cacheTime : TreiberStack α).Booked [] [] [] [] :=
  ⟨.new .., rfl, .nil, by simp, rfl, [], [], .new .., .nil, rfl⟩

theorem retired (hb : s.Booked given popped back lost) :
    (popped ++ lost).Perm (s.gone.freed ++ s.epoch.waiting.map (·.node.label)) := by
  obtain ⟨added, freed, hbooks, hadded, hfreed⟩ := hb.nodes
  have hlabels : (popped ++ lost).Perm (added.map (·.node.label)) := by
    have h := (hadded.map Node.label).symm
    simpa only [List.map_map, Function.comp_def, Node.label_leaf, List.map_id'] using h
  calc (popped ++ lost).Perm (added.map (·.node.label)) := hlabels
    List.Perm _ (freed.map (·.node.label) ++ s.epoch.waiting.map (·.node.label)) := by
      rw [← List.map_append]
      exact hbooks.kept.map _
    List.Perm _ (s.gone.freed ++ s.epoch.waiting.map (·.node.label)) := by
      rw [hfreed]
      exact (List.reverse_perm _).symm.append_right _

/-- Only nodes on the chain, and those that a pop has taken, are anywhere. -/
theorem everywhere (hb : s.Booked given popped back lost) :
    given.Perm (s.cells ++ (popped ++ lost) ++ back) := by
  refine hb.placed.trans ?_
  simp only [List.append_assoc]
  exact (List.perm_append_comm.append_left popped).append_left s.cells

theorem bare_cells (hb : s.Booked given popped back lost) : ∀ c ∈ s.cells, c.Bare := fun c hc =>
  hb.bare c (hb.everywhere.mem_iff.2 (List.mem_append_left _ (List.mem_append_left _ hc)))

theorem bare_retired (hb : s.Booked given popped back lost) : ∀ c ∈ popped ++ lost, c.Bare :=
  fun c hc =>
    hb.bare c (hb.everywhere.mem_iff.2 (List.mem_append_left _ (List.mem_append_right _ hc)))

/-- The destructors of the chain and of the epoch, one after the other. -/
theorem destroy_eq (hb : s.Booked given popped back lost) : s.destroy = {
    freed := (s.epoch.waiting.map (·.node.label)).reverse ++ (s.cells.reverse ++ s.gone.freed)
    dropped := s.values.reverse } := by
  have hwaiting : ∀ c ∈ s.epoch.waiting.map (·.node.label), c.Bare := fun c hc =>
    hb.bare_retired c (hb.retired.mem_iff.2 (List.mem_append_right _ hc))
  unfold destroy
  rw [destroyAlong_eq hb.bare_cells, Epoch.destroy_eq_foldl, hb.undropped, List.append_nil]
  exact Gone.freeAll_eq hwaiting _

theorem owned (hb : s.Booked given popped back lost) : s.Owned given popped back lost := by
  obtain ⟨added, freed, hbooks, -, -⟩ := hb.nodes
  have hretired := hb.retired
  have honce : ((s.cells ++ (popped ++ lost)).map (·.node)).Nodup := by
    have hplaced := hb.everywhere.map (·.node)
    rw [hb.numbered, List.map_append] at hplaced
    exact (List.nodup_append.1 (hplaced.nodup_iff.1 List.nodup_range)).1
  refine ⟨hb.numbered, hb.placed, hretired, ?_, hbooks.balanced.place, hb.undropped, ?_, ?_, ?_⟩
  · exact (((hretired.append_left _).map _).nodup_iff).1 honce
  · rw [hb.destroy_eq, List.reverse_reverse]
  · rw [hb.destroy_eq, List.append_assoc s.cells]
    calc List.Perm _ (s.epoch.waiting.map (·.node.label) ++ (s.cells ++ s.gone.freed)) :=
          (List.reverse_perm _).append ((List.reverse_perm _).append_right _)
      List.Perm _ (s.cells ++ (s.gone.freed ++ s.epoch.waiting.map (·.node.label))) := by
        rw [← List.append_assoc s.cells]
        exact List.perm_append_comm
      List.Perm _ (s.cells ++ (popped ++ lost)) := hretired.symm.append_left _
  · rw [hb.destroy_eq, ← List.append_assoc]
    exact List.suffix_append ..

theorem push (hb : s.Booked given popped back lost) (v : α) :
    ({ s with made := s.made + 1, cells := .make s.made v :: s.cells } : TreiberStack α).Booked
      (given ++ [.make s.made v]) popped back lost where
  ready := ⟨hb.ready.inv, hb.ready.idle⟩
  numbered := by rw [List.map_append, hb.numbered, List.range_succ]; rfl
  placed := (hb.placed.append_right _).trans List.perm_append_comm
  bare := List.forall_mem_append.2 ⟨hb.bare, by simp [Cell.bare_make]⟩
  undropped := hb.undropped
  nodes := hb.nodes

theorem giveBack (hb : s.Booked given popped back lost) (v : α) :
    ({ s with made := s.made + 1 } : TreiberStack α).Booked
      (given ++ [.make s.made v]) popped (back ++ [.make s.made v]) lost where
  ready := ⟨hb.ready.inv, hb.ready.idle⟩
  numbered := by rw [List.map_append, hb.numbered, List.range_succ]; rfl
  placed := by
    calc List.Perm (given ++ [.make s.made v])
          (s.cells ++ popped ++ back ++ lost ++ [.make s.made v]) := hb.placed.append_right _
      List.Perm _ (s.cells ++ popped ++ (back ++ [.make s.made v]) ++ lost) := by
        simp only [List.append_assoc]
        exact ((List.perm_append_comm.append_left back).append_left popped).append_left s.cells
  bare := List.forall_mem_append.2 ⟨hb.bare, by simp [Cell.bare_make]⟩
  undropped := hb.undropped
  nodes := hb.nodes

end Booked

theorem take_append_popCells (cells : List (Cell α)) :
    cells.take 1 ++ (popCells cells).2 = cells := by
  cases cells <;> rfl

theorem onFree_topNodes (s : TreiberStack α) : ∀ n ∈ s.topNodes, n.onFree = [] := by
  intro n hn
  obtain ⟨cell, -, rfl⟩ := List.mem_map.1 hn
  rfl

theorem Booked.onFree_waiting (hb : s.Booked given popped back lost) :
    ∀ w ∈ s.epoch.waiting, w.node.onFree = [] := by
  intro w hw
  obtain ⟨added, freed, hbooks, hadded, -⟩ := hb.nodes
  have hnode : w.node ∈ added.map (·.node) :=
    List.mem_map_of_mem (hbooks.kept.mem_iff.2 (List.mem_append_right _ hw))
  obtain ⟨cell, -, hleaf⟩ := List.mem_map.1 (hadded.mem_iff.1 hnode)
  rw [← hleaf]
  rfl

/-- What is taken off the chain goes behind what has been returned, or behind what was lost. -/
theorem perm_taken {cells cells' : List (Cell α)} (h : cells.Perm (cells' ++ (popped' ++ lost'))) :
    (cells ++ popped ++ back ++ lost).Perm
      (cells' ++ (popped ++ popped') ++ back ++ (lost ++ lost')) := by
  classical
  refine List.perm_iff_count.2 fun c => ?_
  have := h.count_eq c
  simp only [List.count_append] at this ⊢
  omega

/-- An attempt to pop takes a value off the chain, and hands its node to the epoch. The value is returned or
lost. -/
theorem Booked.pop (hb : s.Booked given popped back lost) {who : Identity} {answer : TryPop α}
    {added freed : List (Waiting (Cell α))} (ht : s.Takes who added freed answer s')
    (hsplit : popped' ++ lost' = s.cells.take 1) :
    s'.Booked given (popped ++ popped') back (lost ++ lost') := by
  obtain ⟨added₀, freed₀, hbooks, hadded, hfreed⟩ := hb.nodes
  have hbooks' := hbooks.turnover ht.turnover ht.ready.inv
  have hhanded := ht.turnover.handed_eq ht.handed s.onFree_topNodes hb.onFree_waiting
  have htaken : s.cells.Perm (s'.cells ++ (popped' ++ lost')) := by
    rw [show s'.cells = (popCells s.cells).2 by rw [ht.eq], hsplit]
    conv_lhs => rw [← take_append_popCells s.cells]
    exact List.perm_append_comm
  have hplaced := hb.placed.trans (perm_taken htaken)
  have hleaves : ((added₀ ++ added).map (·.node)).Perm
      (((popped ++ popped') ++ (lost ++ lost')).map .leaf) := by
    rw [List.map_append, hhanded, topNodes, ← hsplit]
    calc List.Perm _ ((popped ++ lost).map Node.leaf ++ (popped' ++ lost').map .leaf) :=
          hadded.append_right _
      List.Perm _ ((popped' ++ lost' ++ popped ++ [] ++ lost).map .leaf) := by
        rw [← List.map_append, List.append_nil, List.append_assoc _ popped]
        exact List.perm_append_comm.map _
      List.Perm _ (((popped ++ popped') ++ (lost ++ lost')).map .leaf) := by
        have htail : List.Perm (popped' ++ lost' ++ popped ++ [] ++ lost)
            ([] ++ (popped ++ popped') ++ [] ++ (lost ++ lost')) := perm_taken (.refl _)
        simpa using htail.map Node.leaf
  -- whatever is freed has been popped or lost, now or before
  have hbare : ∀ c ∈ freed.map (·.node.label), c.Bare := by
    intro c hc
    obtain ⟨w, hw, rfl⟩ := List.mem_map.1 hc
    have hkept := hbooks'.kept.mem_iff.2 (List.mem_append_left _ (List.mem_append_right _ hw))
    obtain ⟨cell, hcell, hleaf⟩ := List.mem_map.1 (hleaves.mem_iff.1 (List.mem_map_of_mem hkept))
    rw [← hleaf]
    refine hb.bare cell (hplaced.mem_iff.2 ?_)
    simp only [List.mem_append] at hcell ⊢
    tauto
  have hgone : s'.gone = { s.gone with freed := (freed.map (·.node.label)).reverse ++ s.gone.freed } := by
    rw [ht.eq]
    exact Gone.freeAll_eq hbare _
  refine ⟨ht.ready, ?_, hplaced, hb.bare, ?_, added₀ ++ added, freed₀ ++ freed, hbooks', hleaves, ?_⟩
  · rw [ht.eq]
    exact hb.numbered
  · rw [hgone]
    exact hb.undropped
  · rw [hgone, hfreed, List.map_append, List.reverse_append]

end TreiberStack

/-! ## Runs -/

/-- The value that a reply returns. -/
def Reply.returned {α : Type} : Reply α → List α
  | .value v => [v]
  | _ => []

/-- The value that a reply gives back. -/
def Reply.back {α : Type} : Reply α → List α
  | .givenBack v => [v]
  | _ => []

namespace TreiberScenario

variable {α : Type} {s : State α} {given popped back lost : List (Cell α)}

/-- What happens in a run: one action of a thread, its way out, or its end; contention that begins or
ends; or the wall clock. -/
inductive Move (α : Type) where
  | act (t : Nat) (action : Action α)
  | contend (on : Bool)
  | wall (micros : Int64)
  | leave (t : Nat)
  | finish (t : Nat)

namespace State

/-- The state after one move. -/
def move (s : State α) : Move α → State α
  | .act t action => (act s t action).2.2
  | .contend on => { s with stack := s.stack.contend on }
  | .wall micros => { s with wall := micros }
  | .leave t => { s with threads := s.threads.beginExit t }
  | .finish t => { s with threads := s.threads.finishExit t }

/-- The state after moves of any threads in any order. -/
def after (s : State α) (moves : List (Move α)) : State α := moves.foldl move s

/-- A new stack that nobody has used. -/
def new (threshold cacheTime : Int64) : State α where
  stack := .new threshold cacheTime

/-- Whether the attempt of thread `t` to pop comes to free nodes by a limit that does not fit a word. -/
def breaksOff (s : State α) (t : Nat) : Bool :=
  !s.stack.contended &&
    match s.stack.reclaiming (s.threads.identify t).1 with
    | .ok e => decide (e.Overflows (s.threads.identify t).1.id)
    | .error _ => false

end State

theorem after_append (s : State α) (moves moves' : List (Move α)) :
    s.after (moves ++ moves') = (s.after moves).after moves' := List.foldl_append

theorem exists_after_acts (s : State α) (t : Nat) (actions : List (Action α)) :
    ∃ moves, (acts s t actions).2.2 = s.after moves := by
  induction actions generalizing s with
  | nil => exact ⟨[], rfl⟩
  | cons a actions ih =>
    obtain ⟨moves, h⟩ := ih (act s t a).2.2
    exact ⟨.act t a :: moves, h⟩

/-- A step of a script is a few moves. No proof needs this: it connects scripts to runs, so that whatever
holds after all moves holds after all scripts. -/
theorem exists_after_step (s : State α) (x : Step α) : ∃ moves, (step s x).2 = s.after moves := by
  cases x with
  | act t action => exact ⟨[.act t action], rfl⟩
  | contend on => exact ⟨[.contend on], rfl⟩
  | wall micros => exact ⟨[.wall micros], rfl⟩
  | exit t last? =>
    obtain ⟨moves, h⟩ := exists_after_acts (s.move (.leave t)) t (last?.getD [])
    refine ⟨.leave t :: (moves ++ [.finish t]), ?_⟩
    show _ = (s.move (.leave t)).after (moves ++ [.finish t])
    rw [after_append, ← h]
    rfl

namespace Move

/-- What a move answers. -/
def reply (s : State α) : Move α → Reply α
  | .act t action => (TreiberScenario.act s t action).1
  | _ => .ok

/-- The value that a move gives to the stack. A push that would never end is not begun. -/
def offered (s : State α) : Move α → List α
  | .act _ (.push v) => if s.stack.contended then [] else [v]
  | .act _ (.tryPush v) => [v]
  | _ => []

/-- Whether a move is an attempt to pop that breaks off. -/
def breaksOff (s : State α) : Move α → Bool
  | .act t .pop => s.breaksOff t
  | .act t .tryPop => s.breaksOff t
  | _ => false

/-- The node whose value a move loses: it was on top when an attempt took it off that broke off after
that. -/
def loses (s : State α) (m : Move α) : List (Cell α) :=
  if m.breaksOff s then s.stack.cells.take 1 else []

end Move

/-- How values and nodes go as a move is made. -/
structure Passes (s : State α) (m : Move α) (given popped back lost : List (Cell α)) : Prop where
  offers : given.map (·.value) = m.offered s
  returns : popped.map (·.value) = (m.reply s).returned
  givesBack : back.map (·.value) = (m.reply s).back
  loses : lost = m.loses s
  /-- No assertion is broken, so that an operation ends without an answer only if a limit does not fit a
  word. -/
  breaks : ∀ why, m.reply s = .broken why ↔ why = .overflow ∧ m.breaksOff s = true
  /-- A node that was freed stays so. -/
  freed : s.stack.gone.freed <:+ (s.move m).stack.gone.freed

/-- Each value and each node has one owner, or the value was lost, and this is still so after each of these
moves. -/
def State.KeepsOwners (s : State α) (given popped back lost : List (Cell α)) : List (Move α) → Prop
  | [] => s.stack.Owned given popped back lost
  | m :: moves => s.stack.Owned given popped back lost ∧ ∃ given' popped' back' lost',
      Passes s m given' popped' back' lost' ∧ (s.move m).KeepsOwners (given ++ given')
        (popped ++ popped') (back ++ back') (lost ++ lost') moves

/-! ### Moves -/

/-- The books can be kept up as a move is made. -/
def Settles (s : State α) (m : Move α) (given popped back lost : List (Cell α)) : Prop :=
  ∃ given' popped' back' lost', Passes s m given' popped' back' lost' ∧
    (s.move m).stack.Booked (given ++ given') (popped ++ popped') (back ++ back') (lost ++ lost')

theorem Settles.of_idle {m : Move α} (ho : m.offered s = []) (hr : (m.reply s).returned = [])
    (hg : (m.reply s).back = []) (hb : m.breaksOff s = false) (hs : ∀ why, m.reply s ≠ .broken why)
    (hf : (s.move m).stack.gone = s.stack.gone)
    (h : (s.move m).stack.Booked given popped back lost) : Settles s m given popped back lost := by
  refine ⟨[], [], [], [], ⟨ho.symm, hr.symm, hg.symm, ?_, fun why => ?_, hf ▸ List.suffix_rfl⟩, ?_⟩
  · rw [Move.loses, hb]
    rfl
  · exact iff_of_false (hs why) fun h => by simp [hb] at h
  · simpa only [List.append_nil] using h

theorem Settles.of_act_eq {t : Nat} {a a' : Action α} (h : Settles s (.act t a') given popped back lost)
    (heq : act s t a = act s t a')
    (ho : (Move.act t a).offered s = (Move.act t a').offered s)
    (hb : (Move.act t a).breaksOff s = (Move.act t a').breaksOff s) :
    Settles s (.act t a) given popped back lost := by
  obtain ⟨given', popped', back', lost', hp, hbooked⟩ := h
  have hreply : (Move.act t a).reply s = (Move.act t a').reply s := congrArg Prod.fst heq
  have hmove : s.move (.act t a) = s.move (.act t a') := congrArg (·.2.2) heq
  refine ⟨given', popped', back', lost', ?_, hmove ▸ hbooked⟩
  refine ⟨ho ▸ hp.offers, hreply ▸ hp.returns, hreply ▸ hp.givesBack, ?_, fun why => ?_,
    hmove ▸ hp.freed⟩
  · rw [hp.loses, Move.loses, Move.loses, hb]
  · rw [hreply, hp.breaks, hb]

theorem tryPush_settles (hb : s.stack.Booked given popped back lost) (t : Nat) (v : α) :
    Settles s (.act t (.tryPush v)) given popped back lost := by
  cases hc : s.stack.contended with
  | true =>
    have heq : act s t (.tryPush v) =
        (.givenBack v, [], { s with stack := { s.stack with made := s.stack.made + 1 } }) := by
      simp [act, tryPush, TreiberStack.tryPush, hc]
    refine ⟨[.make s.stack.made v], [], [.make s.stack.made v], [], ?_, ?_⟩
    · constructor <;> simp [Move.offered, Move.reply, Move.loses, Move.breaksOff, State.move, heq,
        Reply.returned, Reply.back]
    · simp only [State.move, heq, List.append_nil]
      exact hb.giveBack v
  | false =>
    have heq : act s t (.tryPush v) = (.ok, [], { s with stack := { s.stack with
        made := s.stack.made + 1
        cells := .make s.stack.made v :: s.stack.cells } }) := by
      simp [act, tryPush, TreiberStack.tryPush, hc]
    refine ⟨[.make s.stack.made v], [], [], [], ?_, ?_⟩
    · constructor <;> simp [Move.offered, Move.reply, Move.loses, Move.breaksOff, State.move, heq,
        Reply.returned, Reply.back]
    · simp only [State.move, heq, List.append_nil]
      exact hb.push v

theorem breaksOff_eq (hc : s.stack.contended = false) {t : Nat} {e : Epoch (Cell α)}
    (h : s.stack.reclaiming (s.threads.identify t).1 = .ok e) :
    s.breaksOff t = decide (e.Overflows (s.threads.identify t).1.id) := by
  rw [State.breaksOff, hc, h]
  rfl

theorem tryPop_spec (hb : s.stack.Booked given popped back lost) (hc : s.stack.contended = false)
    (t : Nat) : ∃ s' added freed notices, act s t .tryPop =
      (if s.breaksOff t then .broken .overflow else match s.stack.cells with
        | [] => .nothing
        | cell :: _ => .value cell.value, notices, s') ∧
      s.stack.Takes (s.threads.identify t).1 added freed
        (s.stack.tryPop (s.threads.identify t).1 s.wall).1 s'.stack := by
  obtain ⟨answer, stack, added, freed, h, ht⟩ :=
    hb.ready.tryPop_takes hc (s.threads.identify t).1 s.wall
  obtain ⟨e, hreclaiming, hanswer⟩ := ht.answer
  have hbreaks := breaksOff_eq hc hreclaiming
  refine ⟨{ s with threads := (s.threads.identify t).2, stack }, added, freed,
    stack.epoch.growthSince s.stack.epoch, ?_, by rwa [h]⟩
  unfold act tryPop
  rw [if_neg (by simp [hc])]
  dsimp only
  rw [h, hanswer, hbreaks]
  by_cases hover : e.Overflows (s.threads.identify t).1.id
  · simp [hover, hc]
  · cases s.stack.cells <;> simp [hover, hc, TreiberStack.popCells]

theorem tryPop_settles (hb : s.stack.Booked given popped back lost) (t : Nat) :
    Settles s (.act t .tryPop) given popped back lost := by
  cases hc : s.stack.contended with
  | true =>
    have heq : act s t .tryPop = (.contended, [], s) := by simp [act, tryPop, hc]
    refine .of_idle rfl ?_ ?_ ?_ ?_ ?_ ?_ <;>
      simp [Move.reply, Move.breaksOff, State.breaksOff, State.move, heq, hc, Reply.returned, Reply.back]
    exact hb
  | false =>
    obtain ⟨s', added, freed, notices, heq, ht⟩ := tryPop_spec hb hc t
    have hfreed : s.stack.gone.freed <:+ s'.stack.gone.freed := by
      rw [ht.eq, Gone.freed_freeAll]
      exact List.suffix_append ..
    cases hbreaks : s.breaksOff t with
    | true =>
      -- the value of the top is lost
      rw [hbreaks, if_pos rfl] at heq
      refine ⟨[], [], [], s.stack.cells.take 1, ?_, ?_⟩
      · constructor <;> simp [Move.offered, Move.reply, Move.loses, Move.breaksOff, State.move, heq,
          Reply.returned, Reply.back, hbreaks, hfreed, eq_comm]
      · simp only [State.move, heq, List.append_nil]
        exact List.append_nil popped ▸ hb.pop ht rfl
    | false =>
      rw [hbreaks, if_neg (by simp)] at heq
      refine ⟨[], s.stack.cells.take 1, [], [], ?_, ?_⟩
      · constructor <;> cases hcells : s.stack.cells <;> rw [hcells] at heq <;>
          simp [Move.offered, Move.reply, Move.loses, Move.breaksOff, State.move, heq,
            Reply.returned, Reply.back, hbreaks, hfreed]
      · simp only [State.move, heq, List.append_nil]
        exact List.append_nil lost ▸ hb.pop ht (List.append_nil _)

theorem act_settles (hb : s.stack.Booked given popped back lost) (t : Nat) (action : Action α) :
    Settles s (.act t action) given popped back lost := by
  have hspins : ∀ {action : Action α}, act s t action = (.refused .wouldSpin, [], s) →
      (Move.act t action).offered s = [] → (Move.act t action).breaksOff s = false →
      Settles s (.act t action) given popped back lost := by
    intro action heq ho hbreaks
    have hreply : (Move.act t action).reply s = .refused .wouldSpin := congrArg Prod.fst heq
    have hmove : s.move (.act t action) = s := congrArg (·.2.2) heq
    exact .of_idle ho (hreply ▸ rfl) (hreply ▸ rfl) hbreaks (fun _ => by simp [hreply])
      (congrArg (·.stack.gone) hmove) (hmove.symm ▸ hb)
  cases action with
  | push v =>
    cases hc : s.stack.contended with
    | true => exact hspins (if_pos hc) (if_pos hc) rfl
    | false =>
      have hc : ¬ s.stack.contended = true := by simp [hc]
      exact (tryPush_settles hb t v).of_act_eq (if_neg hc) (if_neg hc) rfl
  | pop =>
    cases hc : s.stack.contended with
    | true => exact hspins (if_pos hc) rfl (by simp [Move.breaksOff, State.breaksOff, hc])
    | false => exact (tryPop_settles hb t).of_act_eq (if_neg (by simp [hc])) rfl rfl
  | tryPush v => exact tryPush_settles hb t v
  | tryPop => exact tryPop_settles hb t

theorem move_settles (hb : s.stack.Booked given popped back lost) (m : Move α) :
    Settles s m given popped back lost := by
  have hok : ∀ why, Reply.ok ≠ (.broken why : Reply α) := fun _ => by simp
  cases m with
  | act t action => exact act_settles hb t action
  | contend on =>
    exact .of_idle rfl rfl rfl rfl hok rfl
      ⟨⟨hb.ready.inv, hb.ready.idle⟩, hb.numbered, hb.placed, hb.bare, hb.undropped, hb.nodes⟩
  | wall micros => exact .of_idle rfl rfl rfl rfl hok rfl hb
  | leave t => exact .of_idle rfl rfl rfl rfl hok rfl hb
  | finish t => exact .of_idle rfl rfl rfl rfl hok rfl hb

theorem keepsOwners (hb : s.stack.Booked given popped back lost) (moves : List (Move α)) :
    s.KeepsOwners given popped back lost moves := by
  induction moves generalizing s given popped back lost with
  | nil => exact hb.owned
  | cons m moves ih =>
    obtain ⟨given', popped', back', lost', hpasses, hb'⟩ := move_settles hb m
    exact ⟨hb.owned, given', popped', back', lost', hpasses, ih hb'⟩

/-! ### Accounts -/

/-- The values that moves give to the stack. -/
def State.offered (s : State α) : List (Move α) → List α
  | [] => []
  | m :: moves => m.offered s ++ (s.move m).offered moves

/-- The values that moves return or give back. -/
def State.handed (s : State α) : List (Move α) → List α
  | [] => []
  | m :: moves => (m.reply s).returned ++ (m.reply s).back ++ (s.move m).handed moves

/-- The nodes whose values moves lose. -/
def State.loses (s : State α) : List (Move α) → List (Cell α)
  | [] => []
  | m :: moves => m.loses s ++ (s.move m).loses moves

/-- After these moves, each value that they gave to the stack is on the chain, or was returned by one pop,
or was given back. -/
def State.Accounted (s : State α) (moves : List (Move α)) : Prop :=
  (s.offered moves).Perm ((s.after moves).stack.values ++ s.handed moves)

instance [DecidableEq α] (s : State α) (moves : List (Move α)) : Decidable (s.Accounted moves) :=
  inferInstanceAs (Decidable (List.Perm _ _))

/-- Whatever is given to the stack is on the chain, or was returned or given back, or lost. -/
theorem State.KeepsOwners.accounts {moves : List (Move α)}
    (h : s.KeepsOwners given popped back lost moves) :
    (given.map (·.value) ++ s.offered moves).Perm ((s.after moves).stack.values ++
      (popped.map (·.value) ++ back.map (·.value) ++ s.handed moves) ++
      (lost ++ s.loses moves).map (·.value)) := by
  induction moves generalizing s given popped back lost with
  | nil =>
    have howned : s.stack.Owned given popped back lost := h
    have hplaced := howned.placed.map (·.value)
    simpa only [State.offered, State.handed, State.loses, State.after, List.foldl_nil,
      TreiberStack.values, List.append_nil, List.map_append, List.append_assoc] using hplaced
  | cons m moves ih =>
    obtain ⟨-, given', popped', back', lost', hp, h⟩ := h
    have hrest := ih h
    simp only [List.map_append, hp.offers, hp.returns, hp.givesBack] at hrest
    simp only [State.offered, State.handed, State.loses, ← hp.loses, List.map_append]
    rw [← List.append_assoc]
    refine hrest.trans ?_
    classical
    refine List.perm_iff_count.2 fun v => ?_
    simp only [List.count_append, State.after, List.foldl_cons]
    omega

/-- Whatever threads do with a new stack, in whatever order: after every move each value that was given to
it is on the chain, was returned by one pop, or was given back, unless it was lost; and each node is on the
chain, waits in one store, or was freed once. A value is lost where a pop breaks off that has taken it, and
only there: as long as no pop does, all values are accounted for. -/
theorem owned_or_lost (threshold cacheTime : Int64) (moves : List (Move α)) :
    (State.new threshold cacheTime : State α).KeepsOwners [] [] [] [] moves ∧
      ((State.new threshold cacheTime : State α).Accounted moves ↔
        (State.new threshold cacheTime : State α).loses moves = []) := by
  have hkeeps : (State.new threshold cacheTime : State α).KeepsOwners [] [] [] [] moves :=
    keepsOwners (.new threshold cacheTime) moves
  refine ⟨hkeeps, ?_⟩
  have haccounts := hkeeps.accounts
  simp only [List.map_nil, List.nil_append] at haccounts
  constructor
  · intro h
    have hlength := haccounts.symm.trans h |>.length_eq
    simp only [List.length_append, List.length_map] at hlength
    exact List.eq_nil_of_length_eq_zero (by omega)
  · intro h
    rw [h, List.map_nil, List.append_nil] at haccounts
    exact haccounts

/-- A value can be lost. The second pop leaves a minimum behind, and when the fourth one has taken the first
value that was pushed, the longest cache time there is cannot be added to the time of that minimum. -/
theorem not_always_accounted : ¬ ∀ (threshold cacheTime : Int64) (moves : List (Move Nat)),
    (State.new threshold cacheTime : State Nat).Accounted moves := by
  intro h
  have hall := h 1 Int64.maxValue [.act 1 (.push 1), .act 1 (.push 2), .act 1 (.push 3),
    .act 1 (.push 4), .act 1 .pop, .act 1 .pop, .act 1 .pop, .act 1 .pop]
  revert hall
  decide

end TreiberScenario

end BackoffStack
