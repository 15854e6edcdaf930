/-
Attempts to pop by many threads at once, each one step at a time.

A thread that asks who it is knows whether it is on its way out. Such a thread first takes the lock of the
store that all of them share. Then every thread looks at the global version, publishes it in its store, and
looks again: if the version has moved on, the handle is given up, and all begins anew. With its guard a
thread takes the top off and queues its node. It then gives its handle up, frees nodes, and, if it is on its
way out, gives the lock back. It does so too if a limit for freeing nodes does not fit a word, and breaks off
only after that.

Alone, an attempt is `TreiberStack.tryPop` (`Pops.alone`).
-/
import BackoffStack.Proofs.Treiber.Attempts
import BackoffStack.Proofs.Token.Density
import BackoffStack.Schedule

namespace BackoffStack

variable {α : Type}

/-- Whether the token of a thread is gone. -/
def Identity.isExiting : Identity → Bool
  | live _ => false
  | exiting => true

namespace Pops

/-- The program points of an attempt to pop. -/
inductive Point (α : Type) where
  /-- On its way out, about to take the exiting threads' lock. -/
  | lock
  /-- About to look at the global version. -/
  | load
  /-- About to publish the version that it has found. -/
  | publish (version : Nat)
  /-- About to look whether the version has moved on. -/
  | confirm (g : Guard) (version : Nat)
  /-- It has: about to give the handle up, and to try again. -/
  | retract (g : Guard)
  /-- Pinned, about to take the top off. -/
  | look (g : Guard)
  /-- About to queue the node of the cell that it has taken. -/
  | queue (g : Guard) (cell : Cell α)
  /-- About to give its handle up. -/
  | giveUp (g : Guard) (answer : TryPop α)
  /-- About to free nodes, if too many wait. -/
  | reclaim (g : Guard) (answer : TryPop α)
  /-- About to give the exiting threads' lock back. -/
  | unlock (g : Guard) (answer : TryPop α)
  /-- An assertion is broken, or the guard was refused. -/
  | broken (why : Violation)

/-- An attempt under way, and who the thread was when it began. -/
structure Pop (α : Type) where
  who : Identity
  point : Point α

end Pops

/-- A stack, its users, and the attempts to pop that are under way. The answers of those that are over are
listed, the latest first. -/
structure Pops (α : Type) where
  stack : TreiberStack α
  threads : Threads := {}
  wall : Int64 := .ofInt (wallMicros 1 0)
  pops : Nat → Option (Pops.Pop α) := fun _ => none
  returned : List (Nat × TryPop α) := []

namespace Pops

/-- A new stack that nobody has used. -/
def new (threshold cacheTime : Int64) : Pops α where
  stack := .new threshold cacheTime

/-- The stack with another epoch. -/
def withEpoch (s : Pops α) (epoch : Epoch (Cell α)) : Pops α :=
  { s with stack := { s.stack with epoch } }

/-- The attempt of thread `t` goes on, or is over. -/
def goOn (s : Pops α) (t : Nat) (who : Identity) (next? : Option (Point α)) : Pops α :=
  { s with pops := Function.update s.pops t (next?.map (⟨who, ·⟩)) }

/-- The attempt of thread `t` goes on. -/
def goto (s : Pops α) (t : Nat) (who : Identity) (point : Point α) : Pops α :=
  s.goOn t who (some point)

/-- The attempt of thread `t` is over. -/
def finish (s : Pops α) (t : Nat) (who : Identity) (answer : TryPop α) : Pops α :=
  { s with returned := (t, answer) :: s.returned }.goOn t who none

/-- One step of an attempt of thread `t`. Whatever it asserts, it asserts of the id it finds now. The top
may be lost to another thread. -/
def step (s : Pops α) (t : Nat) (p : Pop α) (lost : Bool) : Pops α :=
  let (me, threads) := s.threads.identify t
  let s := { s with threads }
  let e := s.stack.epoch
  match p.point with
  | .lock =>
    match e.lockExit with
    | some e => (s.withEpoch e).goto t p.who .load
    | none => s
  | .load => s.goto t p.who (.publish e.version)
  | .publish version =>
    match e.publishIn me.id p.who.id version with
    | .ok (.ok handle, e) =>
      (s.withEpoch e).goto t p.who (.confirm ⟨handle, p.who.isExiting⟩ version)
    | .ok (.error why, _) => s.goto t p.who (.broken (.pinRefused why))
    | .error why => s.goto t p.who (.broken why)
  | .confirm g version => s.goto t p.who (if e.version = version then .look g else .retract g)
  | .retract g =>
    match e.giveUp me.id g.handle with
    | .ok e => (s.withEpoch e).goto t p.who .load
    | .error why => s.goto t p.who (.broken why)
  | .look g =>
    if lost then
      s.goto t p.who (.giveUp g .contended)
    else
      match s.stack.cells with
      | [] => s.goto t p.who (.giveUp g .empty)
      | cell :: cells => { s with stack := { s.stack with cells } }.goto t p.who (.queue g cell)
  | .queue g cell =>
    match e.add me.id (.leaf cell) with
    | .ok e => (s.withEpoch e).goto t p.who (.giveUp g (.popped cell.value))
    | .error why => s.goto t p.who (.broken why)
  | .giveUp g answer =>
    match e.giveUp me.id g.handle with
    | .ok e => (s.withEpoch e).goto t p.who (.reclaim g answer)
    | .error why => s.goto t p.who (.broken why)
  | .reclaim g answer =>
    let (ended, e) := e.reclaim me.id g.handle.tid s.wall
    let s := { s with stack := s.stack.collect e (ended.toOption.getD []) }
    let answer := answer.unpinned (ended.map fun _ => ())
    if g.exiting then s.goto t p.who (.unlock g answer) else s.finish t p.who answer
  | .unlock _ answer =>
    match e.unlockExit with
    | .ok e => (s.withEpoch e).finish t p.who answer
    | .error why => s.goto t p.who (.broken why)
  | .broken _ => s

/-- What may happen next. -/
inductive Event (α : Type) where
  /-- Thread `t` begins to pop. -/
  | begin (t : Nat)
  | step (t : Nat) (lost : Bool)
  /-- Any thread pushes, for which it needs no guard. -/
  | push (value : α)
  | wall (micros : Int64)
  /-- Thread `t` asks who it is, for whatever reason. -/
  | ask (t : Nat)
  /-- Thread `t` is on its way out. -/
  | leave (t : Nat)
  /-- Thread `t` is over, and its name may stand for another one. -/
  | finish (t : Nat)

/-- The state after an event. A thread does one thing at a time: what it cannot begin changes nothing. -/
def happen (s : Pops α) : Event α → Pops α
  | .begin t =>
    if (s.pops t).isSome then
      s
    else
      let (who, threads) := s.threads.identify t
      { s with threads }.goto t who (if who.isExiting then .lock else .load)
  | .step t lost =>
    match s.pops t with
    | some p => s.step t p lost
    | none => s
  | .push value => { s with stack := (s.stack.tryPush value).2 }
  | .wall micros => { s with wall := micros }
  | .ask t => { s with threads := (s.threads.identify t).2 }
  | .leave t => if (s.pops t).isSome then s else { s with threads := s.threads.beginExit t }
  | .finish t => if (s.pops t).isSome then s else { s with threads := s.threads.finishExit t }

/-- The state after events in any order. -/
def after (s : Pops α) (events : List (Event α)) : Pops α := events.foldl happen s

/-! ## One thread alone -/

variable {s s' s'' : Pops α} {t : Nat} {who : Identity}

/-- The steps that thread `t` takes next bring `s` to `s'`. -/
def Runs (s : Pops α) (t : Nat) (s' : Pops α) : Prop :=
  ∃ n, s.after (List.replicate n (.step t false)) = s'

theorem Runs.refl (s : Pops α) (t : Nat) : s.Runs t s := ⟨0, rfl⟩

theorem Runs.trans (h : s.Runs t s') (h' : s'.Runs t s'') : s.Runs t s'' := by
  obtain ⟨n, rfl⟩ := h
  obtain ⟨m, rfl⟩ := h'
  refine ⟨n + m, ?_⟩
  rw [List.replicate_add, after, List.foldl_append]
  rfl

@[simp] theorem pops_goto (s : Pops α) (t : Nat) (who : Identity) (point : Point α) :
    (s.goto t who point).pops t = some ⟨who, point⟩ := Function.update_self ..

@[simp] theorem goOn_goto (s : Pops α) (t : Nat) (who : Identity) (point : Point α)
    (next? : Option (Point α)) : (s.goto t who point).goOn t who next? = s.goOn t who next? := by
  simp [goto, goOn]

@[simp] theorem goto_goto (s : Pops α) (t : Nat) (who : Identity) (point point' : Point α) :
    (s.goto t who point).goto t who point' = s.goto t who point' := goOn_goto ..

theorem runs_step (point : Point α) (h : (s.goto t who point).step t ⟨who, point⟩ false = s') :
    (s.goto t who point).Runs t s' := by
  refine ⟨1, ?_⟩
  show (s.goto t who point).happen (.step t false) = s'
  rw [happen, pops_goto]
  exact h

section

variable {e : Epoch (Cell α)} {g : Guard}

/-- A version that nobody else moves on is the one that is found again. -/
theorem runs_acquireIn (hk : s.threads.identify t = (who, s.threads)) (hi : s.stack.epoch.Inv)
    {h : Handle} (ha : s.stack.epoch.acquireIn who.id who.id = .ok (.ok h, e)) :
    (s.goto t who .load).Runs t ((s.withEpoch e).goto t who (.look ⟨h, who.isExiting⟩)) := by
  have hv : e.version = s.stack.epoch.version := (hi.turnover_acquireIn ha).1.version
  have hload : (s.goto t who .load).Runs t (s.goto t who (.publish s.stack.epoch.version)) := by
    refine runs_step _ ?_
    simp only [step, goto, goOn, hk]
    simp
  have hpublish : (s.goto t who (.publish s.stack.epoch.version)).Runs t
      ((s.withEpoch e).goto t who (.confirm ⟨h, who.isExiting⟩ s.stack.epoch.version)) := by
    rw [Epoch.acquireIn_eq_publishIn] at ha
    refine runs_step _ ?_
    simp only [step, goto, goOn, hk, ha]
    simp [withEpoch]
  have hconfirm : ((s.withEpoch e).goto t who
      (.confirm ⟨h, who.isExiting⟩ s.stack.epoch.version)).Runs t
        ((s.withEpoch e).goto t who (.look ⟨h, who.isExiting⟩)) := by
    refine runs_step _ ?_
    simp only [step, goto, goOn, withEpoch, hk, hv, if_true]
    simp
  exact (hload.trans hpublish).trans hconfirm

theorem runs_pin (hk : s.threads.identify t = (who, s.threads)) (hi : s.stack.epoch.Inv)
    (hp : s.stack.epoch.pin who = .ok (.pinned g, e)) :
    (s.goto t who (if who.isExiting then .lock else .load)).Runs t
      ((s.withEpoch e).goto t who (.look g)) := by
  cases who with
  | live id =>
    obtain ⟨⟨acquired, e₁⟩, h₁, h⟩ := Epoch.exists_of_bind_eq_ok hp
    cases acquired with
    | error why => cases h
    | ok handle =>
      cases h
      exact runs_acquireIn hk hi h₁
  | exiting =>
    unfold Epoch.pin at hp
    cases hl : s.stack.epoch.lockExit with
    | none =>
      rw [hl] at hp
      cases hp
    | some e₀ =>
      rw [hl] at hp
      obtain ⟨⟨acquired, e₁⟩, h₁, h⟩ := Epoch.exists_of_bind_eq_ok hp
      cases acquired with
      | error why =>
        obtain ⟨e₂, -, h⟩ := Epoch.exists_of_bind_eq_ok h
        cases h
      | ok handle =>
        cases h
        have hi₀ : e₀.Inv := by
          rw [Epoch.lockExit_eq] at hl
          split at hl
          · cases hl
          · cases hl
            exact hi.congr rfl rfl (Nat.le_refl _)
        have hlock : (s.goto t .exiting .lock).Runs t ((s.withEpoch e₀).goto t .exiting .load) := by
          refine runs_step _ ?_
          simp only [step, goto, goOn, hk, hl]
          simp [withEpoch]
        exact hlock.trans (runs_acquireIn (s := s.withEpoch e₀) hk hi₀ h₁)

theorem runs_takeTop (hk : s.threads.identify t = (who, s.threads))
    (hq : s.stack.epoch.addAll who.id s.stack.topNodes = .ok e) :
    (s.goto t who (.look g)).Runs t
      ({ s with stack := { s.stack with
        cells := (TreiberStack.popCells s.stack.cells).2
        epoch := e } }.goto t who (.giveUp g (TreiberStack.popCells s.stack.cells).1)) := by
  cases hc : s.stack.cells with
  | nil =>
    rw [TreiberStack.topNodes, hc] at hq
    cases hq
    refine runs_step _ ?_
    simp only [step, goto, goOn, hk, hc, TreiberStack.popCells]
    simp [← hc]
  | cons cell cells =>
    rw [TreiberStack.topNodes, hc] at hq
    obtain ⟨e₁, h₁, h⟩ := Epoch.exists_of_bind_eq_ok (show (s.stack.epoch.add who.id (.leaf cell) >>=
      fun e : Epoch (Cell α) => e.addAll who.id []) = .ok e from hq)
    cases h
    have htake : (s.goto t who (.look g)).Runs t
        ({ s with stack := { s.stack with cells } }.goto t who (.queue g cell)) := by
      refine runs_step _ ?_
      simp only [step, goto, goOn, hk, hc]
      simp
    have hqueue : ({ s with stack := { s.stack with cells } }.goto t who (.queue g cell)).Runs t
        ({ s with stack := { s.stack with cells, epoch := e } }.goto t who
          (.giveUp g (.popped cell.value))) := by
      refine runs_step _ ?_
      simp only [step, goto, goOn, hk, h₁]
      simp [withEpoch]
    exact htake.trans hqueue

theorem runs_unpin (hk : s.threads.identify t = (who, s.threads)) (hp : s.stack.epoch.Pinned who g)
    {ended : Except Violation (List (Cell α))}
    (h : s.stack.epoch.unpin who.id g s.wall = (ended, e)) (answer : TryPop α) :
    (s.goto t who (.giveUp g answer)).Runs t
      ({ s with stack := s.stack.collect e (ended.toOption.getD []) }.finish t who
        (answer.unpinned (ended.map fun _ => ()))) := by
  obtain ⟨e₁, h₁, hgives⟩ := hp.inv.giveUp who.id (s.stack.epoch.store who.id).sequence
  obtain ⟨added, freed, answered, e₂, h₂, hr⟩ :=
    hgives.inv.reclaim (hgives.registers hp.inv) s.wall
  have htid : g.handle.tid = who.id := by rw [hp.handle]
  rw [← hp.handle] at h₁
  have hrelease : s.stack.epoch.release who.id g.handle s.wall = (answered, e₂) := by
    rw [Epoch.release_of_giveUp h₁, htid, h₂]
  have hlock : e₂.exitLock.locked = g.exiting := by
    rw [hr.calm.exitLock, hgives.exitLock, hp.exiting]
  have hgive : (s.goto t who (.giveUp g answer)).Runs t
      ((s.withEpoch e₁).goto t who (.reclaim g answer)) := by
    refine runs_step _ ?_
    simp only [step, goto, goOn, hk, h₁]
    simp [withEpoch]
  unfold Epoch.unpin at h
  simp only [hrelease] at h
  refine hgive.trans ?_
  cases hx : g.exiting with
  | false =>
    rw [hx] at h
    cases h
    refine runs_step _ ?_
    simp only [step, goto, goOn, withEpoch, hk, htid, h₂, hx, finish]
    simp [TreiberStack.collect]
  | true =>
    rw [hx, if_pos rfl, Epoch.unlockExit_eq, if_pos (hlock.trans hx)] at h
    cases h
    have hfree : ((s.withEpoch e₁).goto t who (.reclaim g answer)).Runs t
        ({ s with stack := s.stack.collect e₂ (ended.toOption.getD []) }.goto t who
          (.unlock g (answer.unpinned (ended.map fun _ => ())))) := by
      refine runs_step _ ?_
      simp only [step, goto, goOn, withEpoch, hk, htid, h₂, hx]
      simp [TreiberStack.collect]
    refine hfree.trans (runs_step _ ?_)
    simp only [step, goto, goOn, withEpoch, hk, TreiberStack.collect, Epoch.unlockExit_eq,
      if_pos (hlock.trans hx), finish]
    simp

end

/-- The steps of an attempt to pop, taken in a row while nobody else is at work, are the attempt as a
whole. -/
theorem alone (hr : s.stack.Ready) (hc : s.stack.contended = false) (hn : s.pops t = none) :
    ∃ answer stack, s.stack.tryPop (s.threads.identify t).1 s.wall = (answer, stack) ∧
      (s.happen (.begin t)).Runs t { s with
        threads := (s.threads.identify t).2
        stack
        returned := (t, answer) :: s.returned } := by
  obtain ⟨g, e₁, e₂, e₃, added, freed, ended, stack, h, hst⟩ :=
    hr.tryPop_stages hc (s.threads.identify t).1 s.wall
  refine ⟨_, stack, h, ?_⟩
  have hknown : (s.threads.identify t).2.identify t =
      ((s.threads.identify t).1, (s.threads.identify t).2) := s.threads.identify_identify t
  have hbegin : s.happen (.begin t) = { s with threads := (s.threads.identify t).2 }.goto t
      (s.threads.identify t).1 (if (s.threads.identify t).1.isExiting then .lock else .load) := by
    simp only [happen, hn]
    rfl
  have hunpin := hst.drops
  have hstack := hst.eq
  rw [← hst.unpins.labels] at hstack
  rw [hbegin]
  generalize (s.threads.identify t).1 = who at hst hknown hunpin ⊢
  generalize (s.threads.identify t).2 = threads at hknown ⊢
  have hpin := runs_pin (s := { s with threads }) hknown hr.inv hst.pins
  have htake := runs_takeTop (s := { s with threads }.withEpoch e₁) (g := g) hknown hst.queues
  have hdrop := runs_unpin (s := { s with threads, stack := { s.stack with
    cells := (TreiberStack.popCells s.stack.cells).2
    epoch := e₂ } }) hknown hst.queued hunpin (TreiberStack.popCells s.stack.cells).1
  have hnone : Function.update s.pops t none = s.pops := by
    rw [← hn]
    exact Function.update_eq_self ..
  have hall := (hpin.trans htake).trans hdrop
  rw [finish, goOn, Option.map_none] at hall
  simp only [hnone] at hall
  rw [hstack]
  exact hall

end Pops

end BackoffStack
