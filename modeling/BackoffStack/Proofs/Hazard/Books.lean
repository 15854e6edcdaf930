/-
Every node that is handed to an epoch is freed exactly once, and the counters never drift.

Books are kept of the nodes that were added and of those that were freed. A node's version is its place
among those that were added, so that no node is taken for another one. Whatever threads do, the books
balance after every move: what was added has been freed or waits, in one store, and what waits goes with
the epoch (`HazardScenario.freed_exactly_once`).
-/
import BackoffStack.Proofs.Hazard.Retire
import Mathlib.Algebra.GroupWithZero.Nat
import Mathlib.Data.List.Nodup

namespace BackoffStack

variable {ι : Type}

namespace Epoch

variable {e e' : Epoch ι} {id : Nat} {w : Waiting ι} {added freed added' freed' : List (Waiting ι)}

/-! ## One node, one store -/

theorem Inv.reached (hi : e.Inv) (hw : w ∈ (e.store id).waiting) :
    id / segmentSize < e.stores.count := by
  cases he : (e.store id).enabled with
  | true => exact (hi.owned id he).2
  | false =>
    rw [hi.blank id he] at hw
    cases hw

/-- A store's nodes set apart from those of all others. -/
theorem waiting_perm_store (hid : id / segmentSize < e.stores.count) :
    e.waiting.Perm ((e.store id).waiting ++ (e.put id {}).waiting) :=
  waiting_put (l := []) hid (by simp)

theorem Inv.mem_waiting (hi : e.Inv) : w ∈ e.waiting ↔ ∃ id, w ∈ (e.store id).waiting := by
  refine ⟨exists_store_of_mem_waiting, fun ⟨id, hw⟩ => ?_⟩
  exact (waiting_perm_store (hi.reached hw)).mem_iff.2 (List.mem_append_left _ hw)

/-- Where no node waits twice, each waits in one store only. -/
theorem Inv.mem_waiting_iff_existsUnique (hi : e.Inv) (hd : e.waiting.Nodup) :
    w ∈ e.waiting ↔ ∃! id, w ∈ (e.store id).waiting := by
  refine ⟨fun hw => ?_, fun h => hi.mem_waiting.2 h.exists⟩
  obtain ⟨id, hid⟩ := hi.mem_waiting.1 hw
  refine ⟨id, hid, fun j hj => ?_⟩
  by_contra hne
  have hlt := hi.reached hid
  have hput : w ∈ ((e.put id {}).store j).waiting := by rwa [store_put hlt, if_neg hne]
  have hother : w ∈ (e.put id {}).waiting :=
    (waiting_perm_store (by rw [count_put]; exact hi.reached hj)).mem_iff.2
      (List.mem_append_left _ hput)
  have hapart := (waiting_perm_store hlt).nodup_iff.1 hd
  exact (List.nodup_append.1 hapart).2.2 w hid w hother rfl

/-! ## Books -/

/-- Of all nodes that were added, in that order, these were freed. -/
structure Booked (e : Epoch ι) (added freed : List (Waiting ι)) : Prop where
  inv : e.Inv
  versions : added.map (·.version) = List.range' 1 e.version
  kept : added.Perm (freed ++ e.waiting)
  count : e.waitingCount = added.length - freed.length
  tallied : e.Tallied

/-- The books of an epoch that was made with nothing in it, and all that they say about it. -/
structure Balanced (e : Epoch ι) (added freed : List (Waiting ι)) : Prop where
  /-- Each node that was added has been freed or waits. -/
  kept : added.Perm (freed ++ e.waiting)
  /-- Nodes are added under one version after the other, -/
  versions : added.map (·.version) = List.range' 1 e.version
  /-- so that no two have the same, and none is told twice. -/
  once : ((freed ++ e.waiting).map (·.version)).Nodup
  between : ∀ w ∈ e.waiting, 1 ≤ w.version ∧ w.version ≤ e.version
  /-- A node that waits is in one store, and in no other. -/
  place : ∀ w, w ∈ e.waiting ↔ ∃! id, w ∈ (e.store id).waiting
  /-- Each store counts the nodes that wait there, -/
  counts : ∀ id, (e.store id).count = (e.store id).waiting.length
  /-- and the epoch counts them all. -/
  total : e.waitingCount = (e.stores.slots.map (·.waiting.length)).sum
  /-- The destructor of the epoch frees what waits, from store to store. -/
  last : e.destroy List.cons [] = (e.waiting.map (·.node.label)).reverse

theorem Booked.new (threshold cacheTime : Int64) :
    ({ threshold, cacheTime } : Epoch ι).Booked [] [] where
  inv := .new ..
  versions := rfl
  kept := .of_eq rfl
  count := rfl
  tallied id := by
    rw [show ({ threshold, cacheTime } : Epoch ι).store id = {} from SegmentTable.get_new id]
    rfl

/-- What is added and what is freed goes into the books. -/
theorem Booked.turnover (hb : e.Booked added freed) (h : e.Turnover added' freed' e')
    (hi : e'.Inv) : e'.Booked (added ++ added') (freed ++ freed') where
  inv := hi
  versions := by
    rw [List.map_append, hb.versions, h.versions, h.version, ← List.range'_append_1, Nat.add_comm 1]
  kept := by
    calc List.Perm (added ++ added') (freed ++ e.waiting ++ added') := hb.kept.append_right _
      List.Perm _ (freed ++ (added' ++ e.waiting)) := by
        rw [List.append_assoc]
        exact List.perm_append_comm.append_left _
      List.Perm _ (freed ++ (freed' ++ e'.waiting)) := h.kept.append_left _
      List.Perm _ (freed ++ freed' ++ e'.waiting) := by rw [List.append_assoc]
  count := by
    rw [h.count, hb.count]
    simp only [List.length_append]
    omega
  tallied := h.tallied hb.tallied

/-- The destructor frees every node that waits, once. -/
theorem destroy_eq_foldl {σ : Type} (e : Epoch ι) (free : ι → σ → σ) (gone : σ) :
    e.destroy free gone =
      (e.waiting.map (·.node.label)).foldl (fun gone label => free label gone) gone := by
  unfold destroy waiting
  induction e.stores.slots generalizing gone with
  | nil => rfl
  | cons s rest ih =>
    rw [destroyAlong, ih, Store.destroy, Store.freeAlong_eq_foldl, List.flatMap_cons, List.map_append,
      List.foldl_append]

theorem Booked.balanced (hb : e.Booked added freed) : e.Balanced added freed := by
  have hversions := (hb.kept.map (·.version)).symm
  rw [hb.versions] at hversions
  have honce := hversions.nodup_iff.2 List.nodup_range'
  have hwaiting : e.waiting.Nodup := by
    rw [List.map_append] at honce
    exact List.Nodup.of_map _ (List.nodup_append.1 honce).2.1
  refine ⟨hb.kept, hb.versions, honce, fun w hw => ?_,
    fun w => hb.inv.mem_waiting_iff_existsUnique hwaiting, hb.tallied, ?_, ?_⟩
  · have hv : w.version ∈ (freed ++ e.waiting).map (·.version) :=
      List.mem_map_of_mem (List.mem_append_right _ hw)
    have hrange := List.mem_range'_1.1 (hversions.mem_iff.1 hv)
    omega
  · have hlength := hb.kept.length_eq
    rw [List.length_append] at hlength
    rw [hb.count, hlength, waiting, List.length_flatMap]
    omega
  · rw [destroy_eq_foldl, List.foldl_flip_cons_eq_append, List.map_id', List.append_nil]

end Epoch

/-! ## Moves -/

namespace HazardScenario

variable {e : Epoch ι} {s : State ι} {added freed : List (Waiting ι)}

/-- The node that a move hands to the epoch, if that goes through. -/
def Move.handed (s : State ι) : Move ι → List (Node ι)
  | .act t (.add node) =>
    match (HazardScenario.act s t (.add node)).1.reply with
    | .ok => [node]
    | _ => []
  | _ => []

/-- The labels of the nodes that are freed in a move, one after the other. -/
def Move.dropped (s : State ι) : Move ι → List ι
  | .act t action => (HazardScenario.act s t action).1.dropped
  | _ => []

/-- What a move enters into the books: it adds the node that is handed over, and after it what drop
functions hand over; and it frees nothing but what it tells. -/
structure Move.Enters (m : Move ι) (s : State ι) (added freed : List (Waiting ι)) : Prop where
  handed : added.map (·.node) = m.handed s ++ freed.flatMap (·.node.onFree)
  dropped : freed.map (·.node.label) = m.dropped s

namespace State

/-- The books balance, and still do after each of these moves. -/
def KeepsBooks (s : State ι) (added freed : List (Waiting ι)) : List (Move ι) → Prop
  | [] => s.epoch.Balanced added freed
  | m :: moves => s.epoch.Balanced added freed ∧ ∃ added' freed', m.Enters s added' freed' ∧
      (s.move m).KeepsBooks (added ++ added') (freed ++ freed') moves

/-- At most one guard that is kept goes with the exiting threads' lock, which is taken then. -/
def Guarded (s : State ι) : Prop :=
  s.guards.countP (·.2.exiting) ≤ s.epoch.exitLock.locked.toNat

end State

/-- What becomes of the nodes of an epoch in a move to `s`. -/
structure Turns (e : Epoch ι) (handed : List (Node ι)) (dropped : List ι) (s : State ι)
    (added freed : List (Waiting ι)) : Prop where
  turnover : e.Turnover added freed s.epoch
  handed : added.map (·.node) = handed ++ freed.flatMap (·.node.onFree)
  dropped : freed.map (·.node.label) = dropped
  guarded : s.Guarded

theorem Turns.of_turnover (h : e.Turnover [] [] s.epoch) (hg : s.Guarded) : Turns e [] [] s [] [] :=
  ⟨h, rfl, rfl, hg⟩

theorem Turns.after {e₀ : Epoch ι} {dropped : List ι} (h : Turns e [] dropped s added freed)
    (hbefore : e₀.Turnover [] [] e) : Turns e₀ [] dropped s added freed where
  turnover := hbefore.trans h.turnover
  handed := h.handed
  dropped := h.dropped
  guarded := h.guarded

/-! ### Guards -/

theorem filter_key (t : Nat) (guards : List (Nat × Guard)) :
    guards.filter (fun e => !(e.1 == t)) = guards.filter (·.1 ≠ t) :=
  List.filter_congr fun e _ => by by_cases h : e.1 = t <;> simp [h]

theorem countP_filter_le (t : Nat) (guards : List (Nat × Guard)) :
    (guards.filter (·.1 ≠ t)).countP (·.2.exiting) ≤ guards.countP (·.2.exiting) :=
  List.filter_sublist.countP_le

theorem countP_assign (t : Nat) (g : Guard) (guards : List (Nat × Guard)) :
    (assign t g guards).countP (·.2.exiting) =
      (guards.filter (·.1 ≠ t)).countP (·.2.exiting) + g.exiting.toNat := by
  unfold assign
  rw [filter_key, List.countP_cons]
  cases g.exiting <;> rfl

/-- The guard that is kept for a thread is not among those of other threads. -/
theorem countP_filter_lookup {t : Nat} {g : Guard} {guards : List (Nat × Guard)}
    (h : guards.lookup t = some g) :
    (guards.filter (·.1 ≠ t)).countP (·.2.exiting) + g.exiting.toNat ≤
      guards.countP (·.2.exiting) := by
  induction guards with
  | nil => cases h
  | cons entry guards ih =>
    obtain ⟨u, g'⟩ := entry
    by_cases hu : u = t
    · subst hu
      obtain rfl : g' = g := by simpa using h
      have hrest := countP_filter_le u guards
      rw [List.filter_cons_of_neg (by simp), List.countP_cons]
      cases g'.exiting
      · exact hrest
      · exact Nat.succ_le_succ hrest
    · have hlookup : guards.lookup t = some g := by
        rwa [List.lookup_cons, (by simpa using Ne.symm hu : (t == u) = false)] at h
      have hrest := ih hlookup
      rw [List.filter_cons_of_pos (by simpa using hu), List.countP_cons, List.countP_cons]
      omega

theorem wall_identify (s : State ι) (t : Nat) : (s.identify t).2.wall = s.wall := rfl

theorem dropGuard_eq (s : State ι) (t : Nat) (g : Guard) (reply : Reply Unit) :
    (dropGuard s t g reply).2.epoch = (s.epoch.unpin (s.identify t).1.id g s.wall).2 ∧
      (dropGuard s t g reply).2.guards = s.guards ∧
      (dropGuard s t g reply).1.dropped =
        (s.epoch.unpin (s.identify t).1.id g s.wall).1.toOption.getD [] := by
  unfold dropGuard
  dsimp only
  split
  · next h => exact ⟨rfl, rfl, (congrArg (·.toOption.getD []) h).symm⟩
  · next h => exact ⟨rfl, rfl, (congrArg (·.toOption.getD []) h).symm⟩

theorem dropGuard_turns (hi : s.epoch.Inv) (t : Nat) {g : Guard} (reply : Reply Unit)
    (hg : s.guards.countP (·.2.exiting) + g.exiting.toNat ≤ s.epoch.exitLock.locked.toNat) :
    ∃ added freed, Turns s.epoch [] (dropGuard s t g reply).1.dropped (dropGuard s t g reply).2
      added freed := by
  obtain ⟨freed, added, hf, hl, hd⟩ :=
    hi.frees_unpin (s.identify t).1.id s.wall (Nat.le_of_add_left_le hg)
  obtain ⟨hepoch, hguards, hdropped⟩ := dropGuard_eq s t g reply
  refine ⟨added, freed, hepoch ▸ hf.turnover, hf.handed, hd.trans hdropped.symm, ?_⟩
  unfold State.Guarded
  rw [hguards, hepoch]
  omega

theorem State.Guarded.locked (hg : s.Guarded) {epoch : Epoch ι} (hl : epoch.exitLock = s.epoch.exitLock) :
    s.guards.countP (·.2.exiting) ≤ epoch.exitLock.locked.toNat := by
  rw [hl]
  exact hg

theorem State.Guarded.turns (hg : s.Guarded) (threads : Threads) (wall : Int64) :
    ∃ added freed, Turns s.epoch [] [] { s with threads, wall } added freed :=
  ⟨[], [], .of_turnover (.refl s.epoch) hg⟩

section Acts

variable (hi : s.epoch.Inv) (hg : s.Guarded) (t : Nat)
include hi hg

theorem acquire_turns (name : String) : ∃ added freed,
    Turns s.epoch [] (act s t (.acquire name)).1.dropped (act s t (.acquire name)).2 added freed := by
  simp only [act]
  split
  · next h =>
    obtain ⟨ht, hl⟩ := hi.turnover_acquire h
    exact ⟨[], [], .of_turnover ht (hg.locked hl)⟩
  · exact hg.turns ..

theorem release_turns (ref : HandleRef) : ∃ added freed,
    Turns s.epoch [] (act s t (.release ref)).1.dropped (act s t (.release ref)).2 added freed := by
  simp only [act]
  split
  · exact hg.turns ..
  · next h _ =>
    obtain ⟨freed, added, hf, hl, hd⟩ := hi.frees_release (s.identify t).1.id h s.wall
    refine ⟨added, freed, ?_⟩
    split
    · next ha =>
      exact ⟨hf.turnover, hf.handed, hd.trans (congrArg (·.toOption.getD []) ha), hg.locked hl⟩
    · next ha =>
      exact ⟨hf.turnover, hf.handed, hd.trans (congrArg (·.toOption.getD []) ha), hg.locked hl⟩

/-- A new guard is counted, with its lock, before the old one goes with its own. -/
theorem pinned_turns {g : Guard} {epoch : Epoch ι} (h : s.epoch.pin (s.identify t).1 =
    .ok (.pinned g, epoch)) : ∃ added freed,
    Turns s.epoch [] (act s t .pin).1.dropped (act s t .pin).2 added freed := by
  obtain ⟨ht, hl⟩ := hi.turnover_pin h
  have hcount := countP_assign t g s.guards
  have hguards : s.guards.countP (·.2.exiting) ≤ s.epoch.exitLock.locked.toNat := hg
  simp only [Epoch.Pin.locks] at hl
  simp only [act, epoch_identify, h]
  split
  · have hrest := countP_filter_le t s.guards
    have hle : (assign t g s.guards).countP (·.2.exiting) ≤ epoch.exitLock.locked.toNat := by
      omega
    exact ⟨[], [], .of_turnover ht hle⟩
  · next stale hlookup =>
    have hrest : (s.guards.filter (·.1 ≠ t)).countP (·.2.exiting) + stale.exiting.toNat ≤
        s.guards.countP (·.2.exiting) := countP_filter_lookup hlookup
    have hle : (assign t g s.guards).countP (·.2.exiting) + stale.exiting.toNat ≤
        epoch.exitLock.locked.toNat := by omega
    obtain ⟨added, freed, hdrop⟩ := dropGuard_turns (g := stale)
      (s := { (s.identify t).2 with epoch, guards := assign t g s.guards }) (hi.pin h) t .ok hle
    exact ⟨added, freed, hdrop.after ht⟩

theorem pin_turns : ∃ added freed,
    Turns s.epoch [] (act s t .pin).1.dropped (act s t .pin).2 added freed := by
  cases h : s.epoch.pin (s.identify t).1 with
  | error why =>
    simp only [act, epoch_identify, h]
    exact hg.turns ..
  | ok answered =>
    obtain ⟨answer, epoch⟩ := answered
    obtain ⟨ht, hl⟩ := hi.turnover_pin h
    cases answer with
    | pinned g => exact pinned_turns hi hg t h
    | refused why =>
      simp only [act, epoch_identify, h]
      exact ⟨[], [], .of_turnover ht (Nat.le_trans hg hl.ge)⟩
    | spins =>
      simp only [act, epoch_identify, h]
      exact hg.turns ..

theorem unpin_turns : ∃ added freed,
    Turns s.epoch [] (act s t .unpin).1.dropped (act s t .unpin).2 added freed := by
  simp only [act]
  split
  · exact hg.turns ..
  · next g hlookup =>
    exact dropGuard_turns (s := { s with guards := s.guards.filter (·.1 ≠ t) }) hi t
      (.flag true) ((countP_filter_lookup hlookup).trans hg)

theorem add_turns (node : Node ι) : ∃ added freed,
    Turns s.epoch (Move.handed s (.act t (.add node))) (act s t (.add node)).1.dropped
      (act s t (.add node)).2 added freed := by
  obtain ⟨e', h, hq⟩ := hi.add (s.identify t).1.id node
  have hturnover := (hi.turnover_enter (s.identify t).1.id).trans hq.turnover
  have hl : e'.exitLock = s.epoch.exitLock := hq.exitLock.trans (Epoch.exitLock_enter ..)
  have heq : act s t (.add node) = (⟨.ok, [], e'.growthSince s.epoch⟩,
      { (s.identify t).2 with epoch := e' }) := by
    simp only [act, epoch_identify, h]
  rw [heq, Move.handed, heq]
  exact ⟨_, [], hturnover, rfl, rfl, hg.locked hl⟩

theorem retire_turns : ∃ added freed,
    Turns s.epoch [] (act s t .retire).1.dropped (act s t .retire).2 added freed := by
  obtain ⟨ids, freed, added, e', h, hr, -⟩ := hi.retire (s.identify t).1.id s.wall
  have hfrees := hr.calm.frees.between (hi.turnover_enter (s.identify t).1.id) (.refl e')
  have hl : e'.exitLock = s.epoch.exitLock := hr.exitLock.trans (Epoch.exitLock_enter ..)
  have heq : act s t .retire = (⟨.ok, freed.map (·.node.label), e'.growthSince s.epoch⟩,
      { (s.identify t).2 with epoch := e' }) := by
    simp only [act, epoch_identify, wall_identify, h]
  rw [heq]
  exact ⟨added, freed, hfrees.turnover, hfrees.handed, rfl, hg.locked hl⟩

/-- Whatever a thread does, it adds what it hands over and frees what it tells. -/
theorem act_turns (action : Action ι) :
    ∃ added freed, Turns s.epoch (Move.handed s (.act t action)) (act s t action).1.dropped
      (act s t action).2 added freed := by
  cases action with
  | acquire name => exact acquire_turns hi hg t name
  | release ref => exact release_turns hi hg t ref
  | pin => exact pin_turns hi hg t
  | unpin => exact unpin_turns hi hg t
  | add node => exact add_turns hi hg t node
  | retire => exact retire_turns hi hg t
  | addNull | wall => exact hg.turns ..

end Acts

theorem move_turns (hi : s.epoch.Inv) (hg : s.Guarded) (m : Move ι) :
    ∃ added freed, Turns s.epoch (m.handed s) (m.dropped s) (s.move m) added freed := by
  cases m with
  | act t action => exact act_turns hi hg t action
  | leave t => exact ⟨[], [], .of_turnover (.refl s.epoch) ((countP_filter_le t s.guards).trans hg)⟩
  | finish t => exact ⟨[], [], .of_turnover (.refl s.epoch) hg⟩

theorem move_inv (hi : s.epoch.Inv) (m : Move ι) : (s.move m).epoch.Inv := after_inv hi [m]

/-- Books that balance are kept through all moves. -/
theorem keepsBooks (hb : s.epoch.Booked added freed) (hg : s.Guarded) (moves : List (Move ι)) :
    s.KeepsBooks added freed moves := by
  induction moves generalizing s added freed with
  | nil => exact hb.balanced
  | cons m moves ih =>
    obtain ⟨added', freed', ht⟩ := move_turns hb.inv hg m
    exact ⟨hb.balanced, added', freed', ⟨ht.handed, ht.dropped⟩,
      ih (hb.turnover ht.turnover (move_inv hb.inv m)) ht.guarded⟩

/-- Whatever threads do with a new epoch, in whatever order: after every move each node that was added
has been freed once, or waits in one store and goes with the epoch, and all nodes that wait are counted. -/
theorem freed_exactly_once (threshold cacheTime : Int64) (moves : List (Move ι)) :
    (State.new threshold cacheTime : State ι).KeepsBooks [] [] moves :=
  keepsBooks (.new threshold cacheTime) (Nat.zero_le _) moves

end HazardScenario

end BackoffStack
