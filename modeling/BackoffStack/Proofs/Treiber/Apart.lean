/-
Pins of stack operations never collide.

Live threads publish in stores of their own, since no two of them hold one id. Exiting threads share a
store, but only one of them at a time is past its lock. So at most one guard names a store, no version is
left published by anyone but the thread whose guard names that store, and whoever is about to publish finds
nothing there. Hence no assertion about owners is ever broken and no guard is refused, whatever threads
come and go (`Pops.pins_apart`).
-/
import BackoffStack.Proofs.Treiber.Pops

namespace BackoffStack

variable {α : Type}

/-! ## What a step does to an epoch -/

namespace Epoch

variable {ι : Type} {e e' : Epoch ι} {me : Nat}

/-- What the thread with the id `me` publishes or gives up, it does so in its own store. -/
structure Touches (e : Epoch ι) (me : Nat) (e' : Epoch ι) : Prop where
  inv : e'.Inv
  enabled : ∀ id, (e.store id).enabled = true → (e'.store id).enabled = true
  published : ∀ id, id ≠ me → (e'.store id).published = (e.store id).published
  sequence : ∀ id, id ≠ me → (e'.store id).sequence = (e.store id).sequence

theorem Inv.touches_self (hi : e.Inv) (me : Nat) : e.Touches me e :=
  ⟨hi, fun _ h => h, fun _ _ => rfl, fun _ _ => rfl⟩

theorem Inv.touches_of_still (hi' : e'.Inv) (h : ∀ id, (e.store id).Still (e'.store id)) (me : Nat) :
    e.Touches me e' where
  inv := hi'
  enabled id he := (h id).enabled.trans he
  published id _ := (h id).published
  sequence id _ := (h id).sequence

theorem Publishes.touches {v : Nat} (h : e.Publishes me v e') (hi : e.Inv) : e.Touches me e' where
  inv := h.inv
  enabled id he := (h.enabled id).trans ((hi.enabled_enter me id).2 (.inr he))
  published id hid := by rw [h.published, if_neg hid]
  sequence id _ := h.sequence id

theorem GivesUp.touches {sequence : UInt32} (h : e.GivesUp me sequence e') (hi : e.Inv)
    (hg : e.giveUp me ⟨me, sequence⟩ = .ok e') : e.Touches me e' where
  inv := h.inv
  enabled id he := (h.enabled id).trans ((hi.enabled_enter me id).2 (.inr he))
  published id hid := by rw [h.published, if_neg (fun h => hid h.1)]
  sequence id hid := by rw [hi.sequence_giveUp hg, if_neg (fun h => hid h.1)]

end Epoch

namespace Pops

namespace Point

/-- The guard that there is at a program point. -/
def guard? : Point α → Option Guard
  | lock | load | publish _ | broken _ => none
  | confirm g _ | retract g | look g | queue g _ | giveUp g _ | reclaim g _ | unlock g _ => some g

/-- The guard whose handle has not been given up. -/
def open? : Point α → Option Guard
  | lock | load | publish _ | reclaim _ _ | unlock _ _ | broken _ => none
  | confirm g _ | retract g | look g | queue g _ | giveUp g _ => some g

/-- Whether an exiting thread holds the lock. -/
def inside : Point α → Bool
  | lock | broken _ => false
  | _ => true

theorem guard?_of_open? {point : Point α} {g : Guard} (h : point.open? = some g) :
    point.guard? = some g := by
  cases point <;> first | exact h | cases h

theorem inside_of_guard? {point : Point α} {g : Guard} (h : point.guard? = some g) :
    point.inside = true := by
  cases point <;> first | rfl | cases h

end Point

variable {s s' : Pops α} {t u : Nat} {p q : Pop α}

/-- A thread holds the exiting threads' lock. -/
def Locks (s : Pops α) (t : Nat) : Prop :=
  ∃ p, s.pops t = some p ∧ p.who = .exiting ∧ p.point.inside = true

/-- A thread has this guard, or is about to drop it. -/
def Guards (s : Pops α) (t : Nat) (g : Guard) : Prop :=
  ∃ p, s.pops t = some p ∧ p.point.guard? = some g

/-- How the pins of stack operations stand to each other. -/
structure Apart (s : Pops α) : Prop where
  /-- The exiting threads' lock is held by one thread, or is free. -/
  locked : s.stack.epoch.exitLock.locked = true ↔ ∃ t, s.Locks t
  sole : ∀ t u, s.Locks t → s.Locks u → t = u
  /-- No two guards name one store. -/
  guards : ∀ t u g h, s.Guards t g → s.Guards u h → g.handle.tid = h.handle.tid → t = u
  /-- What is published was published by a thread that has a guard with the current handle of that store,
  and in the shared store by the one that holds the lock. -/
  published : ∀ id v, (s.stack.epoch.store id).published = some v → ∃ t g,
    s.Guards t g ∧ g.handle = ⟨id, (s.stack.epoch.store id).sequence⟩ ∧ (id = exitingId → s.Locks t)
  /-- A thread that is about to publish finds nothing in its store. -/
  vacant : ∀ t who version, s.pops t = some ⟨who, .publish version⟩ →
    (s.stack.epoch.store who.id).published = none
  /-- No assertion is broken, and no guard is refused. -/
  sound : ∀ t who why, s.pops t ≠ some ⟨who, .broken why⟩

/-- What an event does to the shared store and its lock. -/
structure Crosses (s : Pops α) (x : Event α) : Prop where
  /-- Only an exiting thread that holds the lock publishes in the shared store. -/
  publishes : ∀ v, ((s.happen x).stack.epoch.store exitingId).published = some v →
    (s.stack.epoch.store exitingId).published = some v ∨
      ∃ t lost version, x = .step t lost ∧ s.pops t = some ⟨.exiting, .publish version⟩ ∧ s.Locks t
  /-- It gives the lock back when nothing is published there any more. -/
  unlocks : s.stack.epoch.exitLock.locked = true → (s.happen x).stack.epoch.exitLock.locked = false →
    (s.stack.epoch.store exitingId).published = none ∧
      ∃ t lost g answer, x = .step t lost ∧ s.pops t = some ⟨.exiting, .unlock g answer⟩
  /-- Before that it has freed nodes, or broken off as it was about to, -/
  reclaims : ∀ t who g answer, (s.happen x).pops t = some ⟨who, .unlock g answer⟩ →
    s.pops t = some ⟨who, .unlock g answer⟩ ∨ ∃ found ended,
      s.pops t = some ⟨who, .reclaim g found⟩ ∧
        s.stack.epoch.reclaim who.id g.handle.tid s.wall = (ended, (s.happen x).stack.epoch) ∧
        answer = found.unpinned (ended.map fun _ => ())
  /-- and before that, like any other thread, given its handle up, so that nothing was published any
  more. -/
  givesUp : ∀ t who g answer, (s.happen x).pops t = some ⟨who, .reclaim g answer⟩ →
    s.pops t = some ⟨who, .reclaim g answer⟩ ∨ s.pops t = some ⟨who, .giveUp g answer⟩ ∧
      s.stack.epoch.giveUp who.id g.handle = .ok (s.happen x).stack.epoch ∧
      ((s.happen x).stack.epoch.store who.id).published = none

/-! ## The invariant -/

/-- An attempt and the epoch agree. -/
structure Pop.Fits (p : Pop α) (e : Epoch (Cell α)) : Prop where
  sound : ∀ why, p.point ≠ .broken why
  lock : p.point = .lock → p.who = .exiting
  unlock : ∀ g answer, p.point = .unlock g answer → p.who = .exiting
  guard : ∀ g, p.point.guard? = some g →
    g.handle.tid = p.who.id ∧ g.exiting = p.who.isExiting ∧ (e.store p.who.id).enabled = true
  opened : ∀ g, p.point.open? = some g → g.handle.sequence = (e.store p.who.id).sequence

/-- Whoever has no guard yet agrees with any epoch. -/
theorem Pop.fits_of_guard? {e : Epoch (Cell α)} (h : p.point.guard? = none)
    (hsound : ∀ why, p.point ≠ .broken why) (hlock : p.point = .lock → p.who = .exiting) :
    p.Fits e := by
  refine ⟨hsound, hlock, fun g answer hunlock => ?_, fun g hg => ?_, fun g hg => ?_⟩
  · rw [hunlock] at h
    cases h
  · cases h.symm.trans hg
  · cases h.symm.trans (Point.guard?_of_open? hg)

/-- Whoever has a guard of its own store agrees with an epoch in which that store is registered. -/
theorem Pop.fits_of_guard {who : Identity} {point : Point α} {g : Guard} {e : Epoch (Cell α)}
    (hg : point.guard? = some g) (htid : g.handle.tid = who.id) (hexiting : g.exiting = who.isExiting)
    (henabled : (e.store who.id).enabled = true)
    (hopened : point.open? = some g → g.handle.sequence = (e.store who.id).sequence)
    (hunlock : ∀ answer, point = .unlock g answer → who = .exiting) : Pop.Fits ⟨who, point⟩ e := by
  refine ⟨?_, ?_, fun g' answer hpoint => ?_, fun g' hg' => ?_, fun g' hg' => ?_⟩
  · rintro why rfl
    cases hg
  · rintro rfl
    cases hg
  · obtain rfl : point = .unlock g' answer := hpoint
    cases hg
    exact hunlock answer rfl
  · cases hg.symm.trans hg'
    exact ⟨htid, hexiting, henabled⟩
  · cases hg.symm.trans (Point.guard?_of_open? hg')
    exact hopened hg'

structure Inv (s : Pops α) : Prop where
  epoch : s.stack.epoch.Inv
  threads : ∃ issued most, s.threads.Booked issued most
  known : ∀ t p, s.pops t = some p → s.threads.identify t = (p.who, s.threads)
  fits : ∀ t p, s.pops t = some p → p.Fits s.stack.epoch
  locked : s.stack.epoch.exitLock.locked = true ↔ ∃ t, s.Locks t
  sole : ∀ t u, s.Locks t → s.Locks u → t = u
  published : ∀ id v, (s.stack.epoch.store id).published = some v →
    ∃ t p g, s.pops t = some p ∧ p.who.id = id ∧ p.point.open? = some g

namespace Inv

theorem new (threshold cacheTime : Int64) : (Pops.new threshold cacheTime : Pops α).Inv where
  epoch := .new ..
  threads := ⟨[], 0, .new⟩
  known t p h := by cases h
  fits t p h := by cases h
  locked := by
    constructor
    · intro h
      cases h
    · rintro ⟨t, p, h, -⟩
      cases h
  sole t u h := by
    obtain ⟨p, h, -⟩ := h
    cases h
  published id v h := by
    have hstore : (Pops.new threshold cacheTime : Pops α).stack.epoch.store id = {} :=
      SegmentTable.get_new id
    rw [hstore] at h
    cases h

/-- Two threads that act under one id, past the lock, are one. -/
theorem eq_of_id (hi : s.Inv) (hp : s.pops t = some p) (hq : s.pops u = some q)
    (hid : p.who.id = q.who.id) (hin : p.point.inside = true) (hin' : q.point.inside = true) :
    t = u := by
  obtain ⟨issued, most, hb⟩ := hi.threads
  rcases Threads.identify_eq_iff.1 (hi.known t p hp) with ⟨k, hk, ht⟩ | ⟨hk, -⟩ <;>
    rcases Threads.identify_eq_iff.1 (hi.known u q hq) with ⟨k', hk', hu⟩ | ⟨hk', -⟩ <;>
    rw [hk, hk'] at hid
  · by_contra hne
    exact hb.id_ne ht hu hne hid
  · exact absurd hid (hb.id_ne_exitingId ht)
  · exact absurd hid.symm (hb.id_ne_exitingId hu)
  · exact hi.sole t u ⟨p, hp, hk, hin⟩ ⟨q, hq, hk', hin'⟩

/-- Only an attempt of the same thread has published anything under its id. -/
theorem open_of_published (hi : s.Inv) (hp : s.pops t = some p) (hin : p.point.inside = true) {v : Nat}
    (hv : (s.stack.epoch.store p.who.id).published = some v) : ∃ g, p.point.open? = some g := by
  obtain ⟨u, q, g, hq, hid, hg⟩ := hi.published _ v hv
  have hin' := Point.inside_of_guard? (Point.guard?_of_open? hg)
  obtain rfl := hi.eq_of_id hp hq hid.symm hin hin'
  obtain rfl := Option.some.inj (hp.symm.trans hq)
  exact ⟨g, hg⟩

theorem exiting_of_id (hi : s.Inv) (hp : s.pops t = some p) (hid : p.who.id = exitingId) :
    p.who = .exiting := by
  obtain ⟨issued, most, hb⟩ := hi.threads
  rcases Threads.identify_eq_iff.1 (hi.known t p hp) with ⟨k, hk, ht⟩ | ⟨hk, -⟩
  · rw [hk] at hid
    exact absurd hid (hb.id_ne_exitingId ht)
  · exact hk

/-! ## One step -/

/-- One thread begins an attempt, goes on in it or ends it, while the attempts of the others stay as they
are. -/
theorem update (hi : s.Inv) (p? : Option (Pop α)) (hpops : s'.pops = Function.update s.pops t p?)
    (hthreads : s'.threads = s.threads) (hepoch : s'.stack.epoch.Inv)
    (hknown : ∀ q ∈ p?, s.threads.identify t = (q.who, s.threads))
    (hfits : ∀ q ∈ p?, q.Fits s'.stack.epoch)
    (hothers : ∀ u q, u ≠ t → s.pops u = some q → q.Fits s'.stack.epoch)
    (hlocked : s'.stack.epoch.exitLock.locked = true ↔
      (∃ q ∈ p?, q.who = .exiting ∧ q.point.inside = true) ∨ ∃ u, u ≠ t ∧ s.Locks u)
    (hsole : ∀ q ∈ p?, q.who = .exiting → q.point.inside = true → ∀ u, u ≠ t → ¬ s.Locks u)
    (hpublished : ∀ id v, (s'.stack.epoch.store id).published = some v →
      (∃ q ∈ p?, ∃ g, q.who.id = id ∧ q.point.open? = some g) ∨
        ∃ u q g, u ≠ t ∧ s.pops u = some q ∧ q.who.id = id ∧ q.point.open? = some g) : s'.Inv := by
  have hcases : ∀ u q, s'.pops u = some q ↔ u = t ∧ q ∈ p? ∨ u ≠ t ∧ s.pops u = some q := by
    intro u q
    rw [hpops]
    by_cases hu : u = t
    · subst hu
      simp
    · simp [hu]
  have hlocks : ∀ u, s'.Locks u ↔
      u = t ∧ (∃ q ∈ p?, q.who = .exiting ∧ q.point.inside = true) ∨ u ≠ t ∧ s.Locks u := by
    intro u
    simp only [Locks, hcases]
    constructor
    · rintro ⟨q, ⟨hu, hq⟩ | ⟨hu, hq⟩, hin⟩
      · exact .inl ⟨hu, q, hq, hin⟩
      · exact .inr ⟨hu, q, hq, hin⟩
    · rintro (⟨hu, q, hq, hin⟩ | ⟨hu, q, hq, hin⟩)
      · exact ⟨q, .inl ⟨hu, hq⟩, hin⟩
      · exact ⟨q, .inr ⟨hu, hq⟩, hin⟩
  refine ⟨hepoch, hthreads ▸ hi.threads, fun u q hq => ?_, fun u q hq => ?_, ?_, fun u v hu hv => ?_,
    fun id v hv => ?_⟩
  · rw [hthreads]
    rcases (hcases u q).1 hq with ⟨rfl, hq⟩ | ⟨-, hq⟩
    · exact hknown q hq
    · exact hi.known u q hq
  · rcases (hcases u q).1 hq with ⟨-, hq⟩ | ⟨hu, hq⟩
    · exact hfits q hq
    · exact hothers u q hu hq
  · rw [hlocked]
    simp only [hlocks, exists_or, exists_eq_left]
  · rcases (hlocks u).1 hu with ⟨rfl, q, hq, hwho, hin⟩ | ⟨hut, hu⟩ <;>
      rcases (hlocks v).1 hv with ⟨rfl, q', hq', hwho', hin'⟩ | ⟨hvt, hv⟩
    · rfl
    · exact absurd hv (hsole q hq hwho hin v hvt)
    · exact absurd hu (hsole q' hq' hwho' hin' u hut)
    · exact hi.sole u v hu hv
  · rcases hpublished id v hv with ⟨q, hq, g, hid, hg⟩ | ⟨u, q, g, hu, hq, hid, hg⟩
    · exact ⟨t, q, g, (hcases t q).2 (.inl ⟨rfl, hq⟩), hid, hg⟩
    · exact ⟨u, q, g, (hcases u q).2 (.inr ⟨hu, hq⟩), hid, hg⟩

/-- A thread past the lock goes on, or is over: then the lock is held if it still holds it, and what is
published in its store is what it has a guard for. -/
theorem goOn (hi : s.Inv) (next? : Option (Point α)) (hp : s.pops t = some p)
    (hin : p.point.inside = true) (hthreads : s'.threads = s.threads)
    (hpops : s'.pops = Function.update s.pops t (next?.map (⟨p.who, ·⟩)))
    (htouch : s.stack.epoch.Touches p.who.id s'.stack.epoch)
    (hfits : ∀ point ∈ next?, Pop.Fits ⟨p.who, point⟩ s'.stack.epoch)
    (hopen : ∀ v, (s'.stack.epoch.store p.who.id).published = some v →
      ∃ point ∈ next?, ∃ g, point.open? = some g)
    (hexit : p.who = .exiting →
      (s'.stack.epoch.exitLock.locked = true ↔ ∃ point ∈ next?, point.inside = true))
    (hlive : p.who ≠ .exiting → s'.stack.epoch.exitLock = s.stack.epoch.exitLock) : s'.Inv := by
  have hmine : ∀ q, q ∈ next?.map (Pop.mk p.who) ↔ ∃ point ∈ next?, Pop.mk p.who point = q :=
    fun q => Option.map_eq_some_iff
  have halone : p.who = .exiting → ∀ u, u ≠ t → ¬ s.Locks u := fun hwho u hu h =>
    hu (hi.sole u t h ⟨p, hp, hwho, hin⟩)
  have hother : ∀ {u q}, s.pops u = some q → q ≠ p → u ≠ t := by
    rintro u q hq hne rfl
    exact hne (Option.some.inj (hq.symm.trans hp))
  refine hi.update _ hpops hthreads htouch.inv (fun q hq => ?_) (fun q hq => ?_) (fun u q hu hq => ?_) ?_
    (fun q hq hwho _ => ?_) fun id v hv => ?_
  · obtain ⟨point, -, rfl⟩ := (hmine q).1 hq
    exact hi.known t p hp
  · obtain ⟨point, hpoint, rfl⟩ := (hmine q).1 hq
    exact hfits point hpoint
  · have hf := hi.fits u q hq
    refine ⟨hf.sound, hf.lock, hf.unlock, fun g hg => ?_, fun g hg => ?_⟩
    · obtain ⟨htid, hexiting, henabled⟩ := hf.guard g hg
      exact ⟨htid, hexiting, htouch.enabled _ henabled⟩
    · -- a thread with an open guard acts under another id
      have hqin := Point.inside_of_guard? (Point.guard?_of_open? hg)
      have hid : q.who.id ≠ p.who.id := fun hid => hu (hi.eq_of_id hq hp hid hqin hin)
      rw [htouch.sequence _ hid]
      exact hf.opened g hg
  · by_cases hwho : p.who = .exiting
    · rw [hexit hwho]
      constructor
      · rintro ⟨point, hpoint, hpin⟩
        exact .inl ⟨_, (hmine _).2 ⟨point, hpoint, rfl⟩, hwho, hpin⟩
      · rintro (⟨q, hq, -, hqin⟩ | ⟨u, hu, h⟩)
        · obtain ⟨point, hpoint, rfl⟩ := (hmine q).1 hq
          exact ⟨point, hpoint, hqin⟩
        · exact absurd h (halone hwho u hu)
    · rw [hlive hwho, hi.locked]
      constructor
      · rintro ⟨u, q, hq, hqwho, hqin⟩
        exact .inr ⟨u, hother hq fun h => hwho (h ▸ hqwho), q, hq, hqwho, hqin⟩
      · rintro (⟨q, hq, hqwho, -⟩ | ⟨u, -, h⟩)
        · obtain ⟨point, -, rfl⟩ := (hmine q).1 hq
          exact absurd hqwho hwho
        · exact ⟨u, h⟩
  · obtain ⟨point, -, rfl⟩ := (hmine q).1 hq
    exact halone hwho
  · by_cases hid : id = p.who.id
    · subst hid
      obtain ⟨point, hpoint, g, hg⟩ := hopen v hv
      exact .inl ⟨_, (hmine _).2 ⟨point, hpoint, rfl⟩, g, rfl, hg⟩
    · rw [htouch.published id hid] at hv
      obtain ⟨u, q, g, hq, hqid, hg⟩ := hi.published id v hv
      exact .inr ⟨u, q, g, hother hq fun h => hid (h ▸ hqid.symm), hq, hqid, hg⟩

theorem goto (hi : s.Inv) (hp : s.pops t = some p) (hin : p.point.inside = true) {point : Point α}
    (hthreads : s'.threads = s.threads)
    (hpops : s'.pops = Function.update s.pops t (some ⟨p.who, point⟩))
    (htouch : s.stack.epoch.Touches p.who.id s'.stack.epoch)
    (hlock : s'.stack.epoch.exitLock = s.stack.epoch.exitLock) (hpin : point.inside = true)
    (hfits : Pop.Fits ⟨p.who, point⟩ s'.stack.epoch)
    (hopen : ∀ v, (s'.stack.epoch.store p.who.id).published = some v → ∃ g, point.open? = some g) :
    s'.Inv := by
  refine hi.goOn (some point) hp hin hthreads hpops htouch (fun _ h => ?_) (fun v hv => ?_)
    (fun hwho => ?_) fun _ => hlock
  · exact Option.mem_some.1 h ▸ hfits
  · exact ⟨point, rfl, hopen v hv⟩
  · rw [hlock, hi.locked]
    exact ⟨fun _ => ⟨point, rfl, hpin⟩, fun _ => ⟨t, p, hp, hwho, hin⟩⟩

/-- What is published while a thread has nothing to give up was published by another one. -/
theorem published_aside (hi : s.Inv) (hp : ∀ p, s.pops t = some p → p.point.open? = none) {id v : Nat}
    (hv : (s.stack.epoch.store id).published = some v) :
    ∃ u q g, u ≠ t ∧ s.pops u = some q ∧ q.who.id = id ∧ q.point.open? = some g := by
  obtain ⟨u, q, g, hq, hid, hg⟩ := hi.published id v hv
  refine ⟨u, q, g, ?_, hq, hid, hg⟩
  rintro rfl
  exact absurd (hg.symm.trans (hp q hq)) (by simp)

theorem lock (hi : s.Inv) (hp : s.pops t = some ⟨.exiting, .lock⟩)
    (hfree : s.stack.epoch.exitLock.locked = false) :
    ((s.withEpoch { s.stack.epoch with exitLock :=
      { s.stack.epoch.exitLock with locked := true } }).goto t .exiting .load).Inv := by
  have hnone : ∀ u, ¬ s.Locks u := fun u hu => by
    rw [hi.locked.2 ⟨u, hu⟩] at hfree
    cases hfree
  have hclosed : ∀ p, s.pops t = some p → p.point.open? = none := fun p hp' => by
    cases hp.symm.trans hp'
    rfl
  refine hi.update (some ⟨.exiting, .load⟩) rfl rfl (hi.epoch.congr rfl rfl (Nat.le_refl _))
    (fun q hq => ?_) (fun q hq => ?_) (fun u q _ hq => ?_) ?_ (fun _ _ _ _ u _ => hnone u)
    fun id v hv => .inr (hi.published_aside hclosed hv)
  · cases hq
    have hk := hi.known t _ hp
    exact hk
  · cases hq
    exact Pop.fits_of_guard? rfl (by simp) (by simp)
  · obtain ⟨hsound, hlock, hunlock, hguard, hopened⟩ := hi.fits u q hq
    exact ⟨hsound, hlock, hunlock, hguard, hopened⟩
  · exact ⟨fun _ => .inl ⟨_, rfl, rfl, rfl⟩, fun _ => rfl⟩

end Inv

theorem Inv.givesUp (hi : s.Inv) (hp : s.pops t = some p) {g : Guard} (hg : p.point.open? = some g)
    {e : Epoch (Cell α)} (h : s.stack.epoch.giveUp p.who.id g.handle = .ok e) :
    s.stack.epoch.Touches p.who.id e ∧ e.exitLock = s.stack.epoch.exitLock ∧
      (e.store p.who.id).enabled = true ∧ (e.store p.who.id).published = none := by
  have hf := hi.fits t p hp
  have hhandle : g.handle = ⟨p.who.id, (s.stack.epoch.store p.who.id).sequence⟩ := by
    rw [← hf.opened g hg, ← (hf.guard g (Point.guard?_of_open? hg)).1]
  rw [hhandle] at h
  obtain ⟨e', h', hgives⟩ := hi.epoch.giveUp p.who.id (s.stack.epoch.store p.who.id).sequence
  obtain rfl := Except.ok.inj (h'.symm.trans h)
  refine ⟨hgives.touches hi.epoch h, hgives.exitLock, hgives.registers hi.epoch, ?_⟩
  rw [hgives.published, hi.epoch.sequence_enter, if_pos ⟨rfl, rfl⟩]

/-- Queueing a node, and freeing nodes, disturbs nobody. -/
theorem Inv.still_add (hi : s.Inv) (hp : s.pops t = some p) {g : Guard} (hg : p.point.guard? = some g)
    {node : Node (Cell α)} {e : Epoch (Cell α)} (h : s.stack.epoch.add p.who.id node = .ok e) :
    e.Inv ∧ e.exitLock = s.stack.epoch.exitLock ∧
      ∀ id, (s.stack.epoch.store id).Still (e.store id) := by
  obtain ⟨e', h', hq⟩ := hi.epoch.add p.who.id node
  obtain rfl := Except.ok.inj (h'.symm.trans h)
  rw [hi.epoch.enter_eq ((hi.fits t p hp).guard g hg).2.2] at hq
  exact ⟨hq.inv, hq.exitLock, hq.stills⟩

theorem Inv.still_reclaim (hi : s.Inv) (hp : s.pops t = some p) {g : Guard}
    (hg : p.point.guard? = some g) {ended : Except Violation (List (Cell α))} {e : Epoch (Cell α)}
    (h : s.stack.epoch.reclaim p.who.id g.handle.tid s.wall = (ended, e)) :
    e.Inv ∧ e.exitLock = s.stack.epoch.exitLock ∧
      ∀ id, (s.stack.epoch.store id).Still (e.store id) := by
  obtain ⟨htid, -, henabled⟩ := (hi.fits t p hp).guard g hg
  obtain ⟨added, freed, ended', e', h', hr⟩ := hi.epoch.reclaim henabled s.wall
  rw [htid] at h
  obtain ⟨-, rfl⟩ := Prod.mk.inj (h'.symm.trans h)
  exact ⟨hr.inv, hr.calm.exitLock, hr.calm.still⟩

/-- All that a step of an attempt can do. -/
inductive Steps (s : Pops α) (t : Nat) : Pop α → Pops α → Prop
  | spins (h : s.stack.epoch.exitLock.locked = true) : Steps s t ⟨.exiting, .lock⟩ s
  | locks (h : s.stack.epoch.exitLock.locked = false) : Steps s t ⟨.exiting, .lock⟩
      ((s.withEpoch { s.stack.epoch with exitLock :=
        { s.stack.epoch.exitLock with locked := true } }).goto t .exiting .load)
  | loads (who : Identity) :
      Steps s t ⟨who, .load⟩ (s.goto t who (.publish s.stack.epoch.version))
  | publishes (who : Identity) (version : Nat) (e : Epoch (Cell α))
      (h : (s.stack.epoch.store who.id).published = none)
      (hp : s.stack.epoch.Publishes who.id version e) :
      Steps s t ⟨who, .publish version⟩ ((s.withEpoch e).goto t who
        (.confirm ⟨⟨who.id, (s.stack.epoch.store who.id).sequence⟩, who.isExiting⟩ version))
  | confirms (who : Identity) (g : Guard) (version : Nat) (point : Point α)
      (h : point = .look g ∨ point = .retract g) :
      Steps s t ⟨who, .confirm g version⟩ (s.goto t who point)
  | retracts (who : Identity) (g : Guard) (e : Epoch (Cell α))
      (h : s.stack.epoch.giveUp who.id g.handle = .ok e) :
      Steps s t ⟨who, .retract g⟩ ((s.withEpoch e).goto t who .load)
  | looks (who : Identity) (g : Guard) (answer : TryPop α) :
      Steps s t ⟨who, .look g⟩ (s.goto t who (.giveUp g answer))
  | takes (who : Identity) (g : Guard) (cell : Cell α) (cells : List (Cell α)) :
      Steps s t ⟨who, .look g⟩
        ({ s with stack := { s.stack with cells } }.goto t who (.queue g cell))
  | queues (who : Identity) (g : Guard) (cell : Cell α) (e : Epoch (Cell α))
      (h : s.stack.epoch.add who.id (.leaf cell) = .ok e) :
      Steps s t ⟨who, .queue g cell⟩ ((s.withEpoch e).goto t who (.giveUp g (.popped cell.value)))
  | givesUp (who : Identity) (g : Guard) (answer : TryPop α) (e : Epoch (Cell α))
      (h : s.stack.epoch.giveUp who.id g.handle = .ok e) :
      Steps s t ⟨who, .giveUp g answer⟩ ((s.withEpoch e).goto t who (.reclaim g answer))
  | reclaims (who : Identity) (g : Guard) (answer : TryPop α)
      (ended : Except Violation (List (Cell α))) (e : Epoch (Cell α))
      (h : s.stack.epoch.reclaim who.id g.handle.tid s.wall = (ended, e)) (s' : Pops α)
      (hs' : s' = { s with stack := s.stack.collect e (ended.toOption.getD []) }) :
      Steps s t ⟨who, .reclaim g answer⟩ (if who.isExiting then
          s'.goto t who (.unlock g (answer.unpinned (ended.map fun _ => ())))
        else s'.finish t who (answer.unpinned (ended.map fun _ => ())))
  | unlocks (g : Guard) (answer : TryPop α) (e : Epoch (Cell α))
      (h : s.stack.epoch.unlockExit = .ok e) :
      Steps s t ⟨.exiting, .unlock g answer⟩ ((s.withEpoch e).finish t .exiting answer)

/-- Whatever a thread asserts is true, so that a step does one of these things. -/
theorem Inv.steps (hi : s.Inv) (hp : s.pops t = some p) (lost : Bool) :
    Steps s t p (s.step t p lost) := by
  have hk := hi.known t p hp
  have hf := hi.fits t p hp
  obtain ⟨who, point⟩ := p
  have hhandle : ∀ g, point.guard? = some g → g.handle = ⟨who.id, g.handle.sequence⟩ := fun g hg => by
    rw [← (hf.guard g hg).1]
  cases point with
  | lock =>
    obtain rfl : who = .exiting := hf.lock rfl
    simp only [step, hk, Epoch.lockExit_eq]
    cases hl : s.stack.epoch.exitLock.locked with
    | true => exact .spins hl
    | false => exact .locks hl
  | load =>
    simp only [step, hk]
    exact .loads who
  | publish version =>
    -- nobody but this thread could have published there, and it has no guard open
    have hnone : (s.stack.epoch.store who.id).published = none := by
      by_contra hsome
      obtain ⟨v, hv⟩ := Option.ne_none_iff_exists'.1 hsome
      obtain ⟨g, hg⟩ := hi.open_of_published hp rfl hv
      cases hg
    obtain ⟨e, h, hpub⟩ := hi.epoch.publishIn hnone version
    simp only [step, hk, h]
    exact .publishes who version e hnone hpub
  | confirm g version =>
    simp only [step, hk]
    refine .confirms who g version _ ?_
    split
    · exact .inl rfl
    · exact .inr rfl
  | retract g =>
    obtain ⟨e, h, -⟩ := hi.epoch.giveUp who.id g.handle.sequence
    rw [← hhandle g rfl] at h
    simp only [step, hk, h]
    exact .retracts who g e h
  | look g =>
    simp only [step, hk]
    split
    · exact .looks who g _
    · split
      · exact .looks who g _
      · exact .takes who g _ _
  | queue g cell =>
    obtain ⟨e, h, -⟩ := hi.epoch.add who.id (.leaf cell)
    simp only [step, hk, h]
    exact .queues who g cell e h
  | giveUp g answer =>
    obtain ⟨e, h, -⟩ := hi.epoch.giveUp who.id g.handle.sequence
    rw [← hhandle g rfl] at h
    simp only [step, hk, h]
    exact .givesUp who g answer e h
  | reclaim g answer =>
    obtain ⟨-, hexiting, -⟩ := hf.guard g rfl
    simp only [step, hk, hexiting]
    exact .reclaims who g answer _ _ rfl _ rfl
  | unlock g answer =>
    obtain rfl : who = .exiting := hf.unlock g answer rfl
    have hlocked := hi.locked.2 ⟨t, _, hp, rfl, rfl⟩
    have h := Epoch.unlockExit_eq s.stack.epoch
    rw [if_pos hlocked] at h
    simp only [step, hk, h]
    exact .unlocks g answer _ h
  | broken why => exact absurd rfl (hf.sound why)

/-! ## The invariant after each kind of step -/

section

variable {who : Identity} {g : Guard} {answer : TryPop α} {e : Epoch (Cell α)}

theorem Inv.published_eq_none (hi : s.Inv) (hp : s.pops t = some p) (hin : p.point.inside = true)
    (hopen : p.point.open? = none) : (s.stack.epoch.store p.who.id).published = none := by
  by_contra hsome
  obtain ⟨v, hv⟩ := Option.ne_none_iff_exists'.1 hsome
  obtain ⟨g, hg⟩ := hi.open_of_published hp hin hv
  cases hopen.symm.trans hg

theorem Inv.keep (hi : s.Inv) (hp : s.pops t = some p) (hg : p.point.open? = some g)
    {point : Point α} (hg' : point.open? = some g) (hthreads : s'.threads = s.threads)
    (hepoch : s'.stack.epoch = s.stack.epoch)
    (hpops : s'.pops = Function.update s.pops t (some ⟨p.who, point⟩)) : s'.Inv := by
  have hguard := Point.guard?_of_open? hg
  have hguard' := Point.guard?_of_open? hg'
  obtain ⟨htid, hexiting, henabled⟩ := (hi.fits t p hp).guard g hguard
  have hfits : Pop.Fits ⟨p.who, point⟩ s.stack.epoch := by
    refine Pop.fits_of_guard hguard' htid hexiting henabled (fun _ => (hi.fits t p hp).opened g hg) ?_
    rintro answer rfl
    cases hg'
  exact hi.goto hp (Point.inside_of_guard? hguard) hthreads hpops
    (hepoch ▸ hi.epoch.touches_self p.who.id) (hepoch ▸ rfl) (Point.inside_of_guard? hguard')
    (hepoch ▸ hfits) fun v _ => ⟨g, hg'⟩

theorem Inv.publish (hi : s.Inv) {version : Nat} (hp : s.pops t = some ⟨who, .publish version⟩)
    (hpub : s.stack.epoch.Publishes who.id version e) : ((s.withEpoch e).goto t who
      (.confirm ⟨⟨who.id, (s.stack.epoch.store who.id).sequence⟩, who.isExiting⟩ version)).Inv := by
  have hm := (hpub.enabled who.id).trans ((hi.epoch.enabled_enter who.id who.id).2 (.inl rfl))
  exact hi.goto hp rfl rfl rfl (hpub.touches hi.epoch) hpub.exitLock rfl
    (Pop.fits_of_guard rfl rfl rfl hm (fun _ => (hpub.sequence who.id).symm) (by simp))
    fun v _ => ⟨_, rfl⟩

theorem Inv.retract (hi : s.Inv) (hp : s.pops t = some ⟨who, .retract g⟩)
    (h : s.stack.epoch.giveUp who.id g.handle = .ok e) :
    ((s.withEpoch e).goto t who .load).Inv := by
  obtain ⟨htouch, hlock, -, hnone⟩ := hi.givesUp hp rfl h
  exact hi.goto hp rfl rfl rfl htouch hlock rfl (Pop.fits_of_guard? rfl (by simp) (by simp))
    fun v hv => absurd (hnone.symm.trans hv) (by simp)

theorem Inv.queue (hi : s.Inv) {cell : Cell α} (hp : s.pops t = some ⟨who, .queue g cell⟩)
    (h : s.stack.epoch.add who.id (.leaf cell) = .ok e) :
    ((s.withEpoch e).goto t who (.giveUp g (.popped cell.value))).Inv := by
  have hf := hi.fits t _ hp
  obtain ⟨htid, hexiting, henabled⟩ := hf.guard g rfl
  obtain ⟨hi', hlock, hstill⟩ := hi.still_add hp rfl h
  have hsequence := (hf.opened g rfl).trans (hstill who.id).sequence.symm
  exact hi.goto hp rfl rfl rfl (hi'.touches_of_still hstill who.id) hlock rfl
    (Pop.fits_of_guard rfl htid hexiting ((hstill who.id).enabled.trans henabled)
      (fun _ => hsequence) (by simp))
    fun v _ => ⟨g, rfl⟩

theorem Inv.giveUp (hi : s.Inv) (hp : s.pops t = some ⟨who, .giveUp g answer⟩)
    (h : s.stack.epoch.giveUp who.id g.handle = .ok e) :
    ((s.withEpoch e).goto t who (.reclaim g answer)).Inv := by
  obtain ⟨htouch, hlock, henabled, hnone⟩ := hi.givesUp hp rfl h
  obtain ⟨htid, hexiting, -⟩ := (hi.fits t _ hp).guard g rfl
  exact hi.goto hp rfl rfl rfl htouch hlock rfl
    (Pop.fits_of_guard rfl htid hexiting henabled (by simp [Point.open?]) (by simp))
    fun v hv => absurd (hnone.symm.trans hv) (by simp)

/-- A thread that has freed nodes has the lock to give back if it is on its way out, and is done if it is
not. -/
theorem Inv.reclaim (hi : s.Inv) (hp : s.pops t = some ⟨who, .reclaim g answer⟩)
    {ended : Except Violation (List (Cell α))}
    (h : s.stack.epoch.reclaim who.id g.handle.tid s.wall = (ended, e))
    (hs' : s' = { s with stack := s.stack.collect e (ended.toOption.getD []) }) (found : TryPop α) :
    (if who.isExiting then s'.goto t who (.unlock g found) else s'.finish t who found).Inv := by
  obtain ⟨htid, hexiting, henabled⟩ := (hi.fits t _ hp).guard g rfl
  obtain ⟨hi', hlock, hstill⟩ := hi.still_reclaim hp rfl h
  have htouch := hi'.touches_of_still hstill who.id
  have hnone : ∀ v, (e.store who.id).published ≠ some v := fun v hv => by
    rw [(hstill who.id).published, hi.published_eq_none hp rfl rfl] at hv
    cases hv
  subst hs'
  cases who with
  | exiting =>
    exact hi.goto hp rfl rfl rfl htouch hlock rfl
      (Pop.fits_of_guard rfl htid hexiting ((hstill exitingId).enabled.trans henabled)
        (by simp [Point.open?]) fun _ _ => rfl)
      fun v hv => absurd hv (hnone v)
  | live id =>
    exact hi.goOn none hp rfl rfl rfl htouch (fun _ hpoint => by cases hpoint)
      (fun v hv => absurd hv (hnone v)) (fun hwho => by cases hwho)
      fun _ => hlock

theorem Inv.unlock (hi : s.Inv) (hp : s.pops t = some ⟨.exiting, .unlock g answer⟩)
    (h : s.stack.epoch.unlockExit = .ok e) : ((s.withEpoch e).finish t .exiting answer).Inv := by
  have hlocked := hi.locked.2 ⟨t, _, hp, rfl, rfl⟩
  have hnone := hi.published_eq_none hp rfl rfl
  rw [Epoch.unlockExit_eq, if_pos hlocked] at h
  cases h
  have htouch : s.stack.epoch.Touches exitingId { s.stack.epoch with exitLock :=
      { s.stack.epoch.exitLock with locked := false } } :=
    ⟨hi.epoch.congr rfl rfl (Nat.le_refl _), fun _ h => h, fun _ _ => rfl, fun _ _ => rfl⟩
  refine hi.goOn none hp rfl rfl rfl htouch (fun _ hpoint => by cases hpoint)
    (fun v hv => ?_) (fun _ => ?_) fun hwho => absurd rfl hwho
  · cases hnone.symm.trans hv
  · simp [finish, Pops.goOn, withEpoch]

end

/-- Each of them leaves the pins apart. -/
theorem Steps.inv (h : Steps s t p s') (hi : s.Inv) (hp : s.pops t = some p) : s'.Inv := by
  cases h with
  | spins h => exact hi
  | locks h => exact hi.lock hp h
  | loads who =>
    exact hi.goto hp rfl rfl rfl (hi.epoch.touches_self who.id) rfl rfl
      (Pop.fits_of_guard? rfl (by simp) (by simp))
      fun v hv => absurd ((hi.published_eq_none hp rfl rfl).symm.trans hv) (by simp)
  | publishes who version e h hpub => exact hi.publish hp hpub
  | confirms who g version point h =>
    rcases h with rfl | rfl <;> exact hi.keep hp rfl rfl rfl rfl rfl
  | retracts who g e h => exact hi.retract hp h
  | looks who g answer => exact hi.keep hp rfl rfl rfl rfl rfl
  | takes who g cell cells => exact hi.keep hp rfl rfl rfl rfl rfl
  | queues who g cell e h => exact hi.queue hp h
  | givesUp who g answer e h => exact hi.giveUp hp h
  | reclaims who g answer ended e h s₁ hs₁ =>
    exact hi.reclaim hp h hs₁ _
  | unlocks g answer e h => exact hi.unlock hp h

/-! ## Events -/

theorem happen_step (hp : s.pops t = some p) (lost : Bool) :
    s.happen (.step t lost) = s.step t p lost := by
  simp only [happen, hp]

theorem happen_step_of_none (hp : s.pops t = none) (lost : Bool) : s.happen (.step t lost) = s := by
  simp only [happen, hp]

theorem Inv.move (hi : s.Inv) (m : Threads.Move)
    (hm : ∀ u p, s.pops u = some p → m ≠ .leave u ∧ m ≠ .finish u) :
    ({ s with threads := s.threads.move m } : Pops α).Inv := by
  obtain ⟨issued, most, hb⟩ := hi.threads
  refine ⟨hi.epoch, ⟨_, _, hb.move m⟩, fun u p hp => ?_, hi.fits, hi.locked, hi.sole, hi.published⟩
  obtain ⟨hl, hf⟩ := hm u p hp
  exact Threads.identify_eq_move (hi.known u p hp) m hl hf

theorem Inv.begin (hi : s.Inv) (hn : s.pops t = none) {who : Identity}
    (hk : s.threads.identify t = (who, s.threads)) :
    (s.goto t who (if who.isExiting then .lock else .load)).Inv := by
  generalize hpoint : (if who.isExiting then .lock else .load : Point α) = point
  have hout : who = .exiting → point.inside = false := by
    rintro rfl
    rw [← hpoint]
    rfl
  have hnoguard : point.guard? = none := by
    rw [← hpoint]
    split <;> rfl
  have hfits : Pop.Fits ⟨who, point⟩ s.stack.epoch := by
    refine Pop.fits_of_guard? hnoguard (fun why hx => ?_) fun hx => ?_
    · subst hx
      split at hpoint <;> cases hpoint
    · subst hx
      cases who with
      | live id => cases hpoint
      | exiting => rfl
  have hnone : ∀ {u q}, s.pops u = some q → u ≠ t := by
    rintro u q hq rfl
    cases hn.symm.trans hq
  refine hi.update (some ⟨who, point⟩) rfl rfl hi.epoch (fun q hq => ?_) (fun q hq => ?_)
    (fun u q _ hq => hi.fits u q hq) ?_ (fun q hq hwho hin => ?_)
    fun id v hv => .inr (hi.published_aside (fun p hp => absurd rfl (hnone hp)) hv)
  · cases hq
    exact hk
  · cases hq
    exact hfits
  · refine hi.locked.trans ⟨fun ⟨u, q, hq, hin⟩ => .inr ⟨u, hnone hq, q, hq, hin⟩, ?_⟩
    rintro (⟨q, hq, hwho, hin⟩ | ⟨u, -, h⟩)
    · cases hq
      cases (hout hwho).symm.trans hin
    · exact ⟨u, h⟩
  · cases hq
    cases (hout hwho).symm.trans hin

theorem Inv.happen (hi : s.Inv) (x : Event α) : (s.happen x).Inv := by
  have hidle : ∀ {u : Nat}, (s.pops u).isSome = false → ∀ v p, s.pops v = some p → v ≠ u := by
    rintro u hu v p hp rfl
    rw [hp] at hu
    cases hu
  cases x with
  | begin t =>
    simp only [Pops.happen]
    split
    · exact hi
    · next hn =>
      have hnone : s.pops t = none := by simpa using hn
      rw [Threads.identify_move]
      refine (hi.move (.ask t) fun _ _ _ => ⟨by simp, by simp⟩).begin hnone ?_
      show (s.threads.move (.ask t)).identify t = _
      rw [← Threads.identify_move, Threads.identify_identify]
  | step t lost =>
    cases hp : s.pops t with
    | none => rwa [happen_step_of_none hp]
    | some p =>
      rw [happen_step hp]
      exact (hi.steps hp lost).inv hi hp
  | push v =>
    have hepoch : (s.stack.tryPush v).2.epoch = s.stack.epoch := by
      unfold TreiberStack.tryPush
      dsimp only
      split <;> rfl
    refine ⟨?_, hi.threads, hi.known, ?_, ?_, hi.sole, ?_⟩ <;> simp only [Pops.happen, hepoch]
    · exact hi.epoch
    · exact hi.fits
    · exact hi.locked
    · exact hi.published
  | wall micros => exact ⟨hi.epoch, hi.threads, hi.known, hi.fits, hi.locked, hi.sole, hi.published⟩
  | ask t =>
    simp only [Pops.happen, Threads.identify_move]
    exact hi.move (.ask t) fun _ _ _ => ⟨by simp, by simp⟩
  | leave t =>
    simp only [Pops.happen]
    split
    · exact hi
    · next hn =>
      refine hi.move (.leave t) fun u p hp => ⟨fun h => ?_, by simp⟩
      cases h
      exact hidle (by simpa using hn) t p hp rfl
  | finish t =>
    simp only [Pops.happen]
    split
    · exact hi
    · next hn =>
      refine hi.move (.finish t) fun u p hp => ⟨by simp, fun h => ?_⟩
      cases h
      exact hidle (by simpa using hn) t p hp rfl

theorem Inv.after (hi : s.Inv) (events : List (Event α)) : (s.after events).Inv := by
  induction events generalizing s with
  | nil => exact hi
  | cons x events ih => exact ih (hi.happen x)

/-! ## What the invariant says -/

theorem Inv.apart (hi : s.Inv) : s.Apart where
  locked := hi.locked
  sole := hi.sole
  guards := by
    rintro t u g h ⟨p, hp, hg⟩ ⟨q, hq, hh⟩ hid
    have hgid := ((hi.fits t p hp).guard g hg).1
    have hhid := ((hi.fits u q hq).guard h hh).1
    exact hi.eq_of_id hp hq (hgid.symm.trans (hid.trans hhid)) (Point.inside_of_guard? hg)
      (Point.inside_of_guard? hh)
  published := by
    intro id v hv
    obtain ⟨t, p, g, hp, rfl, hg⟩ := hi.published id v hv
    have hguard := Point.guard?_of_open? hg
    have hf := hi.fits t p hp
    refine ⟨t, g, ⟨p, hp, hguard⟩, ?_, fun hid => ?_⟩
    · rw [← hf.opened g hg, ← (hf.guard g hguard).1]
    · exact ⟨p, hp, hi.exiting_of_id hp hid, Point.inside_of_guard? hguard⟩
  vacant := by
    intro t who version hp
    by_contra hsome
    obtain ⟨v, hv⟩ := Option.ne_none_iff_exists'.1 hsome
    obtain ⟨g, hg⟩ := hi.open_of_published hp rfl hv
    cases hg
  sound t who why hp := (hi.fits t _ hp).sound why rfl

/-- A step publishes for its thread only, and only where the attempt is about to. -/
theorem Steps.published (h : Steps s t p s') (hi : s.Inv) (hp : s.pops t = some p) {id v : Nat}
    (hv : (s'.stack.epoch.store id).published = some v) :
    (s.stack.epoch.store id).published = some v ∨
      p.who.id = id ∧ ∃ version, p.point = .publish version := by
  -- a handle is given up in the thread's own store
  have hgives : ∀ g e, p.point.open? = some g → s.stack.epoch.giveUp p.who.id g.handle = .ok e →
      (e.store id).published = some v → (s.stack.epoch.store id).published = some v := by
    intro g e hg h hv
    obtain ⟨htouch, -, -, hnone⟩ := hi.givesUp hp hg h
    by_cases hid : id = p.who.id
    · rw [hid, hnone] at hv
      cases hv
    · rwa [htouch.published id hid] at hv
  cases h with
  | spins | locks | loads | confirms | looks | takes => exact .inl hv
  | publishes who version e h hpub =>
    by_cases hid : who.id = id
    · exact .inr ⟨hid, version, rfl⟩
    · exact .inl ((hpub.touches hi.epoch).published id (Ne.symm hid) ▸ hv)
  | retracts who g e h => exact .inl (hgives g e rfl h hv)
  | queues who g cell e h => exact .inl (((hi.still_add hp rfl h).2.2 id).published ▸ hv)
  | givesUp who g answer e h => exact .inl (hgives g e rfl h hv)
  | reclaims who g answer ended e h s₁ hs₁ =>
    subst hs₁
    refine .inl (((hi.still_reclaim hp rfl h).2.2 id).published ▸ ?_)
    split at hv <;> exact hv
  | unlocks g answer e h =>
    rw [Epoch.unlockExit_eq] at h
    split at h
    · cases h
      exact .inl hv
    · cases h

theorem Crosses.of_aside {x : Event α} (hepoch : (s.happen x).stack.epoch = s.stack.epoch)
    (hpops : ∀ u q, (s.happen x).pops u = some q →
      s.pops u = some q ∨ q.point = .lock ∨ q.point = .load) : s.Crosses x where
  publishes v hv := .inl (hepoch ▸ hv)
  unlocks hl hl' := by
    rw [hepoch, hl] at hl'
    cases hl'
  reclaims t who g answer hq := by
    rcases hpops t _ hq with h | h | h
    · exact .inl h
    · cases h
    · cases h
  givesUp t who g answer hq := by
    rcases hpops t _ hq with h | h | h
    · exact .inl h
    · cases h
    · cases h

end Pops

end BackoffStack
