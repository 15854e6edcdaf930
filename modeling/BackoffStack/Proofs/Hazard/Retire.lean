/-
A call that frees every node nobody can look at any more frees exactly those.

In whatever order threads acquire, release, pin, unpin, queue and free nodes, begin to exit and are over,
and however the wall clock moves (`HazardScenario.Move`), the epoch stays in order. So whoever frees
nodes then frees those that wait and are not above the oldest version in use, on all stores, and
leaves all others (`HazardScenario.retire_exact`).
-/
import BackoffStack.Proofs.Hazard.Operations
import BackoffStack.Scenario.Hazard

namespace BackoffStack

variable {ι : Type}

namespace Epoch

variable {e e' : Epoch ι} {id me : Nat}

/-- What freeing all nodes up to the oldest version in use, `m`, comes to. -/
structure RetiresExactly (e : Epoch ι) (m : Nat) (freed added : List (Waiting ι))
    (e' : Epoch ι) : Prop where
  /-- The version is the oldest of the global one and all that are published in registered stores. -/
  least : IsLeast {v | e.InUse v} m
  /-- The freed nodes are those that wait, in any store, and are not above that version, each once. -/
  frees : freed.Perm (e.waiting.filter (·.version ≤ m))
  /-- All others wait on, and so do those that drop functions have added. -/
  leaves : e'.waiting.Perm (e.waiting.filter (m < ·.version) ++ added)
  /-- Drop functions add their nodes in the order in which they run, under new versions. -/
  adds : added.map (·.node) = freed.flatMap (·.node.onFree)
  later : ∀ w ∈ added, e.version < w.version
  /-- No store is skipped in which a node waits that has to be freed. -/
  unskipped : ∀ id, (e.store id).lastRetired = m → (e.store id).Clean m
  /-- While nothing is published, all nodes that wait are freed. -/
  empties : (∀ id, (e.store id).published = none) → freed.Perm e.waiting

theorem filter_of_later {version : Nat} {ws : List (Waiting ι)} (h : ∀ w ∈ ws, version < w.version) :
    ws.filter (·.version ≤ version) = [] ∧ ws.filter (version < ·.version) = ws := by
  refine ⟨List.filter_eq_nil_iff.2 fun w hw => ?_, List.filter_eq_self.2 fun w hw => ?_⟩
  · simpa using h w hw
  · simpa using h w hw

theorem filter_of_due {version : Nat} {ws : List (Waiting ι)} (h : ∀ w ∈ ws, w.version ≤ version) :
    ws.filter (·.version ≤ version) = ws ∧ ws.filter (version < ·.version) = [] := by
  refine ⟨List.filter_eq_self.2 fun w hw => ?_, List.filter_eq_nil_iff.2 fun w hw => ?_⟩
  · simpa using h w hw
  · simpa using h w hw

/-- Two lists that hold the same, one of them parted at a version. -/
theorem filter_perm_of_parted {version : Nat} {all freed left added : List (Waiting ι)}
    (h : (added ++ all).Perm (freed ++ left)) (hf : ∀ w ∈ freed, w.version ≤ version)
    (hl : ∀ w ∈ left, version < w.version) (ha : ∀ w ∈ added, version < w.version) :
    freed.Perm (all.filter (·.version ≤ version)) ∧
      left.Perm (all.filter (version < ·.version) ++ added) := by
  constructor
  · have h' := h.filter (·.version ≤ version)
    rw [List.filter_append, List.filter_append, (filter_of_later ha).1, (filter_of_later hl).1,
      (filter_of_due hf).1] at h'
    simpa using h'.symm
  · have h' := h.filter (version < ·.version)
    rw [List.filter_append, List.filter_append, (filter_of_later ha).2, (filter_of_later hl).2,
      (filter_of_due hf).2] at h'
    exact h'.symm.trans List.perm_append_comm

theorem exists_store_of_mem_waiting {w : Waiting ι} (h : w ∈ e.waiting) :
    ∃ id, w ∈ (e.store id).waiting := by
  obtain ⟨s, hs, hw⟩ := List.mem_flatMap.1 h
  obtain ⟨id, rfl⟩ := SegmentTable.exists_get_of_mem_slots hs
  exact ⟨id, hw⟩

theorem Inv.retires_exactly (hi : e.Inv) (me : Nat) (now : Int64) : ∃ m freed added e',
    e.retire me now = .ok (freed.map (·.node.label), e') ∧
      e.RetiresExactly m freed added e' := by
  obtain ⟨ids, freed, added, e', h, hr, hids⟩ := hi.retire me now
  have hleast : IsLeast {v | e.InUse v} (e.enter me).oldestVersion := by
    simpa only [hi.inUse_enter] using (hi.enter me).oldestVersion_isLeast
  generalize (e.enter me).oldestVersion = m at hr hleast
  have hm : m ≤ e.version := hleast.2 (.inl rfl)
  have hclean : ∀ w ∈ e'.waiting, m < w.version := by
    intro w hw
    obtain ⟨id, hw⟩ := exists_store_of_mem_waiting hw
    by_cases he : ((e.enter me).store id).enabled = true
    · exact hr.clean (by rwa [version_enter]) id (.inl (hids id he)) w hw
    · have hblank := hr.inv.blank id (by rw [(hr.still id).enabled]; simpa using he)
      rw [hblank] at hw
      cases hw
  have hlater : ∀ w ∈ added, e.version < w.version := by simpa using hr.turnover.later
  have hparted := filter_perm_of_parted hr.turnover.kept hr.due hclean fun w hw => hm.trans_lt (hlater w hw)
  have henter := e.waiting_enter me
  have hfreed : freed.Perm (e.waiting.filter (·.version ≤ m)) := hparted.1.trans (henter.filter _)
  refine ⟨m, freed, added, e', h, hleast, hfreed,
    hparted.2.trans ((henter.filter _).append_right _), hr.handed, hlater, ?_, ?_⟩
  · intro id hl w hw
    exact hl ▸ hi.fresh id w hw
  · intro hnone
    have hmv : m = e.version := hleast.1.resolve_right fun ⟨id, _, hp⟩ => by simp [hnone id] at hp
    refine hfreed.trans (.of_eq (List.filter_eq_self.2 fun w hw => ?_))
    obtain ⟨id, hw⟩ := exists_store_of_mem_waiting hw
    simpa [hmv] using hi.old id w hw

end Epoch

namespace HazardScenario

/-- What a thread does in a run: one action, its way out, or its end. -/
inductive Move (ι : Type) where
  | act (t : Nat) (action : Action ι)
  /-- The thread is on its way out; a guard that it still holds is forgotten. -/
  | leave (t : Nat)
  | finish (t : Nat)

namespace State

/-- The state after one move. -/
def move (s : State ι) : Move ι → State ι
  | .act t action => (act s t action).2
  | .leave t =>
    { s with guards := s.guards.filter (·.1 ≠ t), threads := s.threads.beginExit t }
  | .finish t => { s with threads := s.threads.finishExit t }

/-- The state after moves of any threads in any order. -/
def after (s : State ι) (moves : List (Move ι)) : State ι := moves.foldl move s

/-- A new epoch that nobody has used. -/
def new (threshold cacheTime : Int64) : State ι where
  epoch := { threshold, cacheTime }

end State

variable {s : State ι}

@[simp] theorem epoch_identify (s : State ι) (t : Nat) : (s.identify t).2.epoch = s.epoch := rfl

theorem dropGuard_inv (hi : s.epoch.Inv) (t : Nat) (g : Guard) (reply : Reply Unit) :
    (dropGuard s t g reply).2.epoch.Inv := by
  have h := hi.unpin (s.identify t).1.id g s.wall
  unfold dropGuard
  dsimp only
  split <;> exact h

theorem act_inv (hi : s.epoch.Inv) (t : Nat) (action : Action ι) :
    (act s t action).2.epoch.Inv := by
  cases action with
  | acquire name =>
    simp only [act]
    split
    · next h => exact hi.acquire h
    · exact hi
  | release ref =>
    simp only [act]
    split
    · exact hi
    · next h _ =>
      have hr := hi.release (s.identify t).1.id h s.wall
      split <;> exact hr
  | pin =>
    simp only [act]
    split
    · next h =>
      have hp := hi.pin h
      split
      · split
        · exact hp
        · exact dropGuard_inv hp ..
      · exact hp
      · exact hi
    · exact hi
  | unpin =>
    simp only [act]
    split
    · exact hi
    · refine dropGuard_inv ?_ ..
      exact hi
  | add node =>
    obtain ⟨e', h, hq⟩ := hi.add (s.identify t).1.id node
    simp only [act]
    split
    · next h' =>
      cases h.symm.trans h'
      exact hq.inv
    · exact hi
  | addNull => exact hi
  | retire =>
    obtain ⟨ids, freed, added, e', h, hr, -⟩ := hi.retire (s.identify t).1.id s.wall
    simp only [act]
    split
    · next h' =>
      cases h.symm.trans h'
      exact hr.inv
    · exact hi
  | wall micros => exact hi

/-! ## Runs -/

theorem after_append (s : State ι) (moves moves' : List (Move ι)) :
    s.after (moves ++ moves') = (s.after moves).after moves' := List.foldl_append

theorem exists_after_lastActs (s : State ι) (t : Nat) (actions : List (Action ι)) :
    ∃ moves, (lastActs s t actions).2 = s.after moves := by
  induction actions generalizing s with
  | nil => exact ⟨[], rfl⟩
  | cons a actions ih =>
    obtain ⟨moves, h⟩ := ih (lastAct s t a).2
    have hfirst : ∃ first, (lastAct s t a).2 = s.after first := by
      unfold lastAct
      split
      · split
        · exact ⟨[], rfl⟩
        · exact ⟨[.act t .pin], rfl⟩
      · exact ⟨[.act t _], rfl⟩
    obtain ⟨first, hfirst⟩ := hfirst
    exact ⟨first ++ moves, by rw [after_append, ← hfirst]; exact h⟩

/-- A step of a script is a few moves of one thread. No proof needs this: it connects scripts to runs, so that
whatever holds after all moves holds after all scripts. -/
theorem exists_after_step (s : State ι) (x : Step ι) : ∃ moves, (step s x).2 = s.after moves := by
  cases x with
  | act t action => exact ⟨[.act t action], rfl⟩
  | exit t last? =>
    cases last? with
    | none => exact ⟨[.leave t, .finish t], rfl⟩
    | some actions =>
      obtain ⟨moves, h⟩ := exists_after_lastActs (s.move (.leave t)) t (actions ++ [.unpin])
      refine ⟨.leave t :: (moves ++ [.finish t]), ?_⟩
      show _ = (s.move (.leave t)).after (moves ++ [.finish t])
      rw [after_append, ← h]
      rfl

theorem after_inv (hi : s.epoch.Inv) (moves : List (Move ι)) : (s.after moves).epoch.Inv := by
  induction moves generalizing s with
  | nil => exact hi
  | cons m moves ih =>
    refine ih ?_
    cases m with
    | act t action => exact act_inv hi t action
    | leave t => exact hi
    | finish t => exact hi

/-- After any moves of any threads, every thread that frees nodes frees exactly those that nobody can look
at any more. -/
theorem retire_exact (threshold cacheTime : Int64) (moves : List (Move ι)) (t : Nat) :
    let s := (State.new threshold cacheTime).after moves
    ∃ m freed added e',
      s.epoch.retire (s.identify t).1.id s.wall = .ok (freed.map (·.node.label), e') ∧
        s.epoch.RetiresExactly m freed added e' :=
  (after_inv (Epoch.Inv.new threshold cacheTime) moves).retires_exactly _ _

end HazardScenario

end BackoffStack
