/-
The list of stores, and the two ways in which an operation of an epoch breaks off.

After any moves of any threads the list leads through all stores in use, each once
(`Epoch.Listed`). Only a thread that gives a handle back ever breaks off (`HazardScenario.broken_iff`). Either
the handle is one of another store than its own: then that store may have been registered by then, but
nothing else has changed. Or the handle is given up, and then one of the limits by which nodes are freed
does not fit a word: then no node is freed.
-/
import BackoffStack.Proofs.Hazard.Books
import BackoffStack.Proofs.Hazard.Headway
import BackoffStack.Proofs.Token.Density

namespace BackoffStack

variable {ι : Type}

namespace Epoch

variable {e e' : Epoch ι} {id me : Nat} {g : Guard}

/-- The list of stores, from the newest on. -/
structure Listed (e : Epoch ι) : Prop where
  /-- The links lead from one store to the next, and then to the end, -/
  linked : e.Chained e.newest e.registered
  /-- and to none twice. -/
  once : e.registered.Nodup
  /-- The stores on the list are those in use, -/
  all : ∀ id, id ∈ e.registered ↔ (e.store id).enabled = true
  /-- and lie in the table, -/
  present : ∀ id ∈ e.registered, id / segmentSize < e.stores.count
  /-- each under the id of its owner. -/
  owner : ∀ id ∈ e.registered, (e.store id).owner = id
  counted : e.storeCount = e.registered.length
  /-- No node waits elsewhere, -/
  waits : ∀ id, ∀ w ∈ (e.store id).waiting, id ∈ e.registered
  /-- and no version is published elsewhere. -/
  publishes : ∀ id, (e.store id).published.isSome = true → id ∈ e.registered

/-- A store may have become the first on the list, and no other field has changed, but for the lock of
exiting threads. -/
structure RegistersOnly (e : Epoch ι) (id : Nat) (e' : Epoch ι) : Prop where
  registered : e'.registered = if id ∈ e.registered then e.registered else id :: e.registered
  /-- A store that was on the list, or is another one, is as it was. -/
  others : ∀ j, j ≠ id ∨ j ∈ e.registered → e'.store j = e.store j
  published : ∀ j, (e'.store j).published = (e.store j).published
  sequence : ∀ j, (e'.store j).sequence = (e.store j).sequence
  waiting : ∀ j, (e'.store j).waiting = (e.store j).waiting
  count : ∀ j, (e'.store j).count = (e.store j).count
  lastRetired : ∀ j, (e'.store j).lastRetired = (e.store j).lastRetired
  waitingCount : e'.waitingCount = e.waitingCount
  version : e'.version = e.version
  cachedMin : e'.cachedMin = e.cachedMin
  cachedAt : e'.cachedAt = e.cachedAt
  threshold : e'.threshold = e.threshold
  cacheTime : e'.cacheTime = e.cacheTime

theorem RegistersOnly.lock (h : e.RegistersOnly id e') (l : SpinLock Unit) :
    e.RegistersOnly id { e' with exitLock := l } := by
  have hsame : ({ e' with exitLock := l } : Epoch ι).registered = e'.registered :=
    registered_congr rfl rfl
  exact { h with registered := hsame.trans h.registered }

/-- Why the thread with the id `me` breaks off when it gives a handle back. -/
inductive BreaksOff (e : Epoch ι) (me : Nat) (h : Handle) : Violation → Prop
  /-- The handle is one of another store. -/
  | foreign (hne : h.tid ≠ me) : BreaksOff e me h (.notOwner me h.tid)
  /-- It is given up, and then a limit does not fit a word. -/
  | overflow {e₁ : Epoch ι} (hgive : e.giveUp me h = .ok e₁) (hover : e₁.Overflows me) :
      BreaksOff e me h .overflow

namespace Inv

theorem listed (hi : e.Inv) (hc : e.Counted) : e.Listed := by
  obtain ⟨hlinked, honce, hall⟩ := hi.registered_spec
  refine ⟨hlinked, honce, hall, fun id hid => (hi.owned id ((hall id).1 hid)).2,
    fun id hid => (hi.owned id ((hall id).1 hid)).1, hc, fun id w hw => ?_, fun id hp => ?_⟩
  · rw [hall]
    by_contra he
    simp [hi.blank id (by simpa using he)] at hw
  · obtain ⟨v, hv⟩ := Option.isSome_iff_exists.1 hp
    exact (hall id).2 (hi.enabled_of_published hv)

theorem registersOnly_enter (hi : e.Inv) (id : Nat) : e.RegistersOnly id (e.enter id) := by
  have hstore : ∀ j, j ≠ id ∨ j ∈ e.registered → (e.enter id).store j = e.store j := by
    intro j hj
    rw [hi.store_enter, if_neg]
    rintro ⟨rfl, he⟩
    simp [hi.mem_registered, he] at hj
  have hsame : ∀ {β : Type} (f : Store ι → β), (∀ next, f { enabled := true, owner := id, next } = f {}) →
      ∀ j, f ((e.enter id).store j) = f (e.store j) := by
    intro β f hf j
    rw [hi.store_enter]
    split
    · next h => rw [hf, h.1, hi.blank id h.2]
    · rfl
  have hfields : (e.enter id).waitingCount = e.waitingCount ∧ (e.enter id).cachedAt = e.cachedAt ∧
      (e.enter id).threshold = e.threshold ∧ (e.enter id).cacheTime = e.cacheTime := by
    unfold Epoch.enter
    dsimp only
    split <;> exact ⟨rfl, rfl, rfl, rfl⟩
  refine ⟨?_, hstore, hsame _ fun _ => rfl, hsame _ fun _ => rfl, hsame _ fun _ => rfl,
    hsame _ fun _ => rfl, hsame _ fun _ => rfl, hfields.1, version_enter e id, cachedMin_enter e id,
    hfields.2.1, hfields.2.2.1, hfields.2.2.2⟩
  rw [hi.registered_enter]
  simp only [hi.mem_registered]

/-! ## Giving handles back -/

theorem unpin_release (e : Epoch ι) (me : Nat) (h : Handle) (now : Int64) :
    e.unpin me ⟨h, false⟩ now = e.release me h now := rfl

/-- Whoever drops a guard of another store is turned down, when that store was looked up; the lock that
goes with the guard is given back. -/
theorem unpin_foreign (hi : e.Inv) (hme : me ≠ g.handle.tid)
    (hg : g.exiting.toNat ≤ e.exitLock.locked.toNat) (now : Int64) :
    (e.unpin me g now).1 = .error (.notOwner me g.handle.tid) ∧
      e.RegistersOnly g.handle.tid (e.unpin me g now).2 ∧
      (e.unpin me g now).2.exitLock.locked = (e.exitLock.locked && !g.exiting) := by
  have honly := hi.registersOnly_enter g.handle.tid
  have hl := exitLock_enter e g.handle.tid
  unfold Epoch.unpin
  simp only [release_of_ne hi hme, unlockExit_eq]
  generalize e.enter g.handle.tid = e₁ at honly hl
  cases hexit : g.exiting with
  | false => exact ⟨rfl, honly, by simp [hl]⟩
  | true =>
    have hlocked : e₁.exitLock.locked = true := by
      rw [hexit] at hg
      exact hl ▸ Bool.toNat_eq_one.1 (Nat.le_antisymm (Bool.toNat_le _) hg)
    simp only [hlocked, if_true]
    exact ⟨trivial, honly.lock _, by simp⟩

/-- Whoever drops a guard of its own store breaks off if a word does not suffice for the limits of freeing
nodes, and only then; its handle is given up by that time, and the lock is given back all the same. -/
theorem unpin_overflow (hi : e.Inv) {e₁ : Epoch ι} (h₁ : e.giveUp me g.handle = .ok e₁)
    (hover : e₁.Overflows me) (hg : g.exiting.toNat ≤ e.exitLock.locked.toNat) (now : Int64) :
    ∃ l, e.unpin me g now = (.error .overflow, { e₁ with exitLock := l }) ∧
      l.locked = (e.exitLock.locked && !g.exiting) := by
  have hme : me = g.handle.tid := by
    by_contra hne
    cases (giveUp_of_ne hi hne).symm.trans h₁
  obtain ⟨e₁', added, freed, answer, e₂, l, h₁', -, hr, hunpin, hl⟩ := hi.unpin_own hme hg now
  obtain rfl := Except.ok.inj (h₁'.symm.trans h₁)
  obtain ⟨rfl, -⟩ := hr.nothing hover
  have hanswer := hr.answer
  rw [if_pos hover] at hanswer
  exact ⟨l, hanswer ▸ hunpin, hl⟩

theorem unpin_error_iff (hi : e.Inv) (hg : g.exiting.toNat ≤ e.exitLock.locked.toNat) (now : Int64)
    (why : Violation) : (e.unpin me g now).1 = .error why ↔ e.BreaksOff me g.handle why := by
  constructor
  · intro h
    by_cases hme : me = g.handle.tid
    · obtain ⟨e₁, added, freed, answer, e₂, l, h₁, -, hr, hunpin, -⟩ := hi.unpin_own hme hg now
      have hanswer := hr.answer
      rw [hunpin] at h
      subst h
      split at hanswer
      · next hover =>
        cases hanswer
        exact .overflow h₁ hover
      · cases hanswer
    · rw [(hi.unpin_foreign hme hg now).1] at h
      cases h
      exact .foreign (Ne.symm hme)
  · rintro (hne | ⟨h₁, hover⟩)
    · exact (hi.unpin_foreign (Ne.symm hne) hg now).1
    · obtain ⟨l, hunpin, -⟩ := hi.unpin_overflow h₁ hover hg now
      rw [hunpin]

/-- A thread's own store lets it pin, unless it has to wait or is turned down. -/
theorem exists_pin (hi : e.Inv) (who : Identity) : ∃ answer e', e.pin who = .ok (answer, e') := by
  have hacquired : ∀ {e : Epoch ι} (me : Nat), e.Inv →
      ∃ answer e', e.acquireIn me me = .ok (answer, e') := by
    intro e me hi
    rw [hi.acquireIn_eq]
    split <;> exact ⟨_, _, rfl⟩
  cases who with
  | live id =>
    obtain ⟨answer, e₁, h⟩ := hacquired id hi
    simp only [Epoch.pin, h]
    cases answer <;> exact ⟨_, _, rfl⟩
  | exiting =>
    simp only [Epoch.pin, lockExit_eq]
    cases hl : e.exitLock.locked with
    | true => exact ⟨_, _, rfl⟩
    | false =>
      have hi₁ : ({ e with exitLock := { e.exitLock with locked := true } } : Epoch ι).Inv :=
        hi.congr rfl rfl (Nat.le_refl _)
      obtain ⟨answer, e₁, h⟩ := hacquired exitingId hi₁
      have hlock : e₁.exitLock.locked = true := by rw [(hi₁.turnover_acquireIn h).2]
      simp only [Bool.false_eq_true, if_false, h]
      cases answer with
      | ok handle => exact ⟨_, _, rfl⟩
      | error why =>
        simp only [bind, Except.bind, unlockExit_eq, if_pos hlock]
        exact ⟨_, _, rfl⟩

theorem exists_acquire (hi : e.Inv) (who : Identity) :
    ∃ answer e', e.acquire who = .ok (answer, e') := by
  cases who with
  | live id =>
    simp only [Epoch.acquire, hi.acquireIn_eq]
    split <;> exact ⟨_, _, rfl⟩
  | exiting => exact ⟨_, _, rfl⟩

end Inv

end Epoch

namespace HazardScenario

variable {s : State ι} {t : Nat} {e : Epoch ι} {g : Guard}

/-- The guard that an action gives up, and the epoch in which it does. A handle by itself counts as a
guard without a lock. A pin gives up the guard that was kept before, after it has taken its own. -/
def State.returning? (s : State ι) (t : Nat) : Action ι → Option (Epoch ι × Guard)
  | .release ref => (s.resolve? ref).map fun h => (s.epoch, ⟨h, false⟩)
  | .unpin => (s.guards.lookup t).map fun g => (s.epoch, g)
  | .pin =>
    match s.epoch.pin (s.identify t).1 with
    | .ok (.pinned _, epoch) => (s.guards.lookup t).map fun g => (epoch, g)
    | _ => none
  | .acquire _ | .add _ | .addNull | .retire | .wall _ => none

/-- Whether a reply is that an assertion was broken. -/
def Unbroken (r : Reply Unit) : Prop := ∀ why, r ≠ .broken why

/-- How an action ends that gives a guard up. -/
structure Returns (s : State ι) (t : Nat) (e : Epoch ι) (g : Guard) (effect : Effect ι)
    (s' : State ι) : Prop where
  reply : ∃ r, Unbroken r ∧ effect.reply = match (e.unpin (s.identify t).1.id g s.wall).1 with
    | .ok _ => r
    | .error why => .broken why
  dropped : effect.dropped = (e.unpin (s.identify t).1.id g s.wall).1.toOption.getD []
  epoch : s'.epoch = (e.unpin (s.identify t).1.id g s.wall).2
  threads : s'.threads = (s.threads.identify t).2

/-- A guard may be dropped after some other things, by the same thread at the same time. -/
theorem dropGuard_returns (s₀ s : State ι) (t : Nat) (g : Guard) (reply : Reply Unit)
    (hthreads : s.threads.identify t = s₀.threads.identify t) (hwall : s.wall = s₀.wall)
    (hr : Unbroken reply) :
    Returns s₀ t s.epoch g (dropGuard s t g reply).1 (dropGuard s t g reply).2 := by
  have hme : (s₀.identify t).1 = (s.identify t).1 := by
    show (s₀.threads.identify t).1 = (s.threads.identify t).1
    rw [hthreads]
  obtain ⟨hepoch, -, hdropped⟩ := dropGuard_eq s t g reply
  rw [hwall, ← hme] at hepoch hdropped
  have hafter : (dropGuard s t g reply).2.threads = (s.threads.identify t).2 := by
    unfold dropGuard
    dsimp only
    split <;> rfl
  refine ⟨⟨reply, hr, ?_⟩, hdropped, hepoch, hafter.trans (congrArg Prod.snd hthreads)⟩
  unfold dropGuard
  dsimp only
  rw [← hwall, hme]
  split
  · next h => rw [show (s.epoch.unpin (s.identify t).1.id g s.wall).1 = _ from h]
  · next h => rw [show (s.epoch.unpin (s.identify t).1.id g s.wall).1 = _ from h]

theorem act_returns (action : Action ι) (h : s.returning? t action = some (e, g)) :
    Returns s t e g (act s t action).1 (act s t action).2 := by
  cases action with
  | release ref =>
    obtain ⟨handle, hhandle, heq⟩ := Option.map_eq_some_iff.1 h
    cases heq
    simp only [act, hhandle, epoch_identify, wall_identify]
    have hunpin := Epoch.Inv.unpin_release s.epoch (s.identify t).1.id handle s.wall
    split
    · next ha =>
      rw [← hunpin] at ha
      exact ⟨⟨.ok, fun _ => by simp, by rw [ha]⟩, by rw [ha]; rfl, rfl, rfl⟩
    · next ha =>
      rw [← hunpin] at ha
      exact ⟨⟨.ok, fun _ => by simp, by rw [ha]⟩, by rw [ha]; rfl, rfl, rfl⟩
  | unpin =>
    obtain ⟨g', hg, heq⟩ := Option.map_eq_some_iff.1 h
    cases heq
    simp only [act, hg]
    exact dropGuard_returns s { s with guards := s.guards.filter (·.1 ≠ t) } t g (.flag true) rfl rfl
      fun _ => by simp
  | pin =>
    simp only [State.returning?] at h
    split at h
    · next g' epoch hpin =>
      obtain ⟨stale, hg, heq⟩ := Option.map_eq_some_iff.1 h
      cases heq
      simp only [act, epoch_identify, hpin, hg, show (s.identify t).2.guards = s.guards from rfl]
      obtain ⟨hreply, hdropped, hepoch, hthreads⟩ := dropGuard_returns s
        { (s.identify t).2 with epoch := e, guards := assign t g' s.guards } t g .ok
        (s.threads.identify_identify t) rfl fun _ => by simp
      exact ⟨hreply, hdropped, hepoch, hthreads⟩
    · cases h
  | acquire | add | addNull | retire | wall => cases h

/-- No other action breaks an assertion. -/
theorem act_unbroken (hi : s.epoch.Inv) (action : Action ι) (h : s.returning? t action = none) :
    Unbroken (act s t action).1.reply := by
  cases action with
  | acquire name =>
    obtain ⟨answer, e', hacquire⟩ := hi.exists_acquire (s.identify t).1
    simp only [act, epoch_identify, hacquire]
    cases answer <;> exact fun _ => by simp [Reply.ofStatus]
  | release ref =>
    have hnone : s.resolve? ref = none := Option.map_eq_none_iff.1 h
    simp only [act, hnone]
    exact fun _ => by simp
  | pin =>
    obtain ⟨answer, e', hpin⟩ := hi.exists_pin (s.identify t).1
    simp only [act, epoch_identify, hpin]
    cases answer with
    | pinned g =>
      simp only [State.returning?, hpin] at h
      have hnone : (s.identify t).2.guards.lookup t = none := Option.map_eq_none_iff.1 h
      simp only [hnone]
      exact fun _ => by simp
    | refused why => exact fun _ => by simp
    | spins => exact fun _ => by simp
  | unpin =>
    have hnone : s.guards.lookup t = none := Option.map_eq_none_iff.1 h
    simp only [act, hnone]
    exact fun _ => by simp
  | add node =>
    obtain ⟨e', hadd, -⟩ := hi.add (s.identify t).1.id node
    simp only [act, epoch_identify, hadd]
    exact fun _ => by simp
  | addNull => exact fun _ => by simp [act]
  | retire =>
    obtain ⟨ids, freed, added, e', hretire, -⟩ := hi.retire (s.identify t).1.id s.wall
    simp only [act, epoch_identify, wall_identify, hretire]
    exact fun _ => by simp
  | wall micros => exact fun _ => by simp [act]

/-- What an action does to the epoch that gives nothing up. -/
inductive Does (s : State ι) (t : Nat) : Action ι → Epoch ι → Prop
  | acquire (name : String) {answer : Except Status Handle} {e : Epoch ι}
      (h : s.epoch.acquire (s.identify t).1 = .ok (answer, e)) : Does s t (.acquire name) e
  | pin {answer : Epoch.Pin} {e : Epoch ι} (h : s.epoch.pin (s.identify t).1 = .ok (answer, e)) :
      Does s t .pin e
  | spin {e : Epoch ι} (h : s.epoch.pin (s.identify t).1 = .ok (.spins, e)) : Does s t .pin s.epoch
  | add (node : Node ι) {e : Epoch ι} (h : s.epoch.add (s.identify t).1.id node = .ok e) :
      Does s t (.add node) e
  | retire {labels : List ι} {e : Epoch ι}
      (h : s.epoch.retire (s.identify t).1.id s.wall = .ok (labels, e)) : Does s t .retire e
  | release (ref : HandleRef) : Does s t (.release ref) s.epoch
  | unpin : Does s t .unpin s.epoch
  | addNull : Does s t .addNull s.epoch
  | wall (micros : Int64) : Does s t (.wall micros) s.epoch

theorem act_does (hi : s.epoch.Inv) (action : Action ι) (h : s.returning? t action = none) :
    Does s t action (act s t action).2.epoch := by
  cases action with
  | acquire name =>
    obtain ⟨answer, e', hacquire⟩ := hi.exists_acquire (s.identify t).1
    simp only [act, epoch_identify, hacquire]
    exact .acquire name hacquire
  | release ref =>
    have hnone : s.resolve? ref = none := Option.map_eq_none_iff.1 h
    simp only [act, hnone]
    exact .release ref
  | pin =>
    obtain ⟨answer, e', hpin⟩ := hi.exists_pin (s.identify t).1
    simp only [act, epoch_identify, hpin]
    cases answer with
    | pinned g =>
      simp only [State.returning?, hpin] at h
      have hnone : (s.identify t).2.guards.lookup t = none := Option.map_eq_none_iff.1 h
      simp only [hnone]
      exact .pin hpin
    | refused why => exact .pin hpin
    | spins => exact .spin hpin
  | unpin =>
    have hnone : s.guards.lookup t = none := Option.map_eq_none_iff.1 h
    simp only [act, hnone]
    exact .unpin
  | add node =>
    obtain ⟨e', hadd, -⟩ := hi.add (s.identify t).1.id node
    simp only [act, epoch_identify, hadd]
    exact .add node hadd
  | addNull => exact .addNull
  | retire =>
    obtain ⟨ids, freed, added, e', hretire, -⟩ := hi.retire (s.identify t).1.id s.wall
    simp only [act, epoch_identify, wall_identify, hretire]
    exact .retire hretire
  | wall micros => exact .wall micros

/-- A guard that is given up comes with its lock; and before that an epoch in order has got on. -/
theorem returning_spec (hi : s.epoch.Inv) (hg : s.Guarded) {action : Action ι}
    (h : s.returning? t action = some (e, g)) :
    e.Inv ∧ s.epoch.Advances e ∧ g.exiting.toNat ≤ e.exitLock.locked.toNat := by
  have hkept : ∀ {g}, s.guards.lookup t = some g →
      g.exiting.toNat ≤ s.epoch.exitLock.locked.toNat := by
    intro g hlookup
    have hcount := countP_filter_lookup hlookup
    have hguards : s.guards.countP (·.2.exiting) ≤ s.epoch.exitLock.locked.toNat := hg
    omega
  cases action with
  | release ref =>
    obtain ⟨handle, -, heq⟩ := Option.map_eq_some_iff.1 h
    cases heq
    exact ⟨hi, .refl _, Nat.zero_le _⟩
  | unpin =>
    obtain ⟨g', hlookup, heq⟩ := Option.map_eq_some_iff.1 h
    cases heq
    exact ⟨hi, .refl _, hkept hlookup⟩
  | pin =>
    simp only [State.returning?] at h
    split at h
    · next g' epoch hpin =>
      obtain ⟨stale, hlookup, heq⟩ := Option.map_eq_some_iff.1 h
      cases heq
      have hlock := (hi.turnover_pin hpin).2
      have hle := hkept hlookup
      exact ⟨hi.pin hpin, hi.advances_pin hpin, by omega⟩
    · cases h
  | acquire | add | addNull | retire | wall => cases h

/-! ## Runs -/

theorem after_guarded (hi : s.epoch.Inv) (hg : s.Guarded) (moves : List (Move ι)) :
    (s.after moves).Guarded := by
  induction moves generalizing s with
  | nil => exact hg
  | cons m moves ih =>
    obtain ⟨added, freed, ht⟩ := move_turns hi hg m
    exact ih (move_inv hi m) ht.guarded

theorem act_advances (hi : s.epoch.Inv) (hg : s.Guarded) (t : Nat) (action : Action ι) :
    s.epoch.Advances (act s t action).2.epoch := by
  cases h : s.returning? t action with
  | some returned =>
    obtain ⟨e, g⟩ := returned
    obtain ⟨hi', ha, -⟩ := returning_spec hi hg h
    rw [(act_returns action h).epoch]
    exact ha.trans (hi'.advances_unpin _ _ _)
  | none =>
    have hdoes := act_does hi action h
    generalize (act s t action).2.epoch = e at hdoes ⊢
    cases hdoes with
    | acquire name hacquire => exact hi.advances_acquire hacquire
    | pin hpin => exact hi.advances_pin hpin
    | add node hadd => exact hi.advances_add hadd
    | retire hretire => exact hi.advances_retire hretire
    | spin | release | unpin | addNull | wall => exact .refl _

theorem move_advances (hi : s.epoch.Inv) (hg : s.Guarded) (m : Move ι) :
    s.epoch.Advances (s.move m).epoch := by
  cases m with
  | act t action => exact act_advances hi hg t action
  | leave t => exact .refl _
  | finish t => exact .refl _

theorem after_advances (hi : s.epoch.Inv) (hg : s.Guarded) (moves : List (Move ι)) :
    s.epoch.Advances (s.after moves).epoch := by
  induction moves generalizing s with
  | nil => exact .refl _
  | cons m moves ih =>
    exact (move_advances hi hg m).trans (ih (move_inv hi m) (after_guarded hi hg [m]))

/-- What comes of it when thread `t` gives a guard of another store than its own up. -/
structure Refused (s : State ι) (t : Nat) (e : Epoch ι) (g : Guard) (effect : Effect ι)
    (s' : State ι) : Prop where
  reply : effect.reply = .broken (.notOwner (s.identify t).1.id g.handle.tid)
  dropped : effect.dropped = []
  epoch : e.RegistersOnly g.handle.tid s'.epoch
  /-- The lock that goes with the guard is given back all the same. -/
  exitLock : s'.epoch.exitLock.locked = (e.exitLock.locked && !g.exiting)
  /-- The thread acts under the id of its token, which it holds from now on if it held none before, or,
  once that is gone, under the one that all such threads share. -/
  caller : (∃ token, s'.threads.token? t = some token ∧ (s.identify t).1.id = token.id) ∨
    s.threads.Gone t ∧ (s.identify t).1.id = exitingId

/-- What comes of it when thread `t` gives a guard of its own store up, and a word does not suffice for the
limits of freeing nodes. -/
structure Overflowed (s : State ι) (e₁ e : Epoch ι) (g : Guard) (effect : Effect ι) (s' : State ι) :
    Prop where
  reply : effect.reply = .broken .overflow
  dropped : effect.dropped = []
  /-- Nothing has happened but that the handle was given up, -/
  epoch : ∃ l, s'.epoch = { e₁ with exitLock := l }
  /-- and the lock given back. -/
  exitLock : s'.epoch.exitLock.locked = (e.exitLock.locked && !g.exiting)

theorem caller_spec (s : State ι) (t : Nat) :
    (∃ token, (s.threads.identify t).2.token? t = some token ∧ (s.identify t).1.id = token.id) ∨
      s.threads.Gone t ∧ (s.identify t).1.id = exitingId := by
  have hwho : (s.identify t).1 = (s.threads.identify t).1 := rfl
  rw [hwho]
  rcases s.threads.identify_cases t with ⟨token, hwho, htoken⟩ | ⟨hgone, h⟩
  · exact .inl ⟨token, htoken, by rw [hwho]; rfl⟩
  · exact .inr ⟨hgone, by rw [h]; rfl⟩

theorem act_refused (hi : s.epoch.Inv) (hg : s.Guarded) {action : Action ι}
    (h : s.returning? t action = some (e, g)) (hne : g.handle.tid ≠ (s.identify t).1.id) :
    Refused s t e g (act s t action).1 (act s t action).2 := by
  obtain ⟨hi', -, hlock⟩ := returning_spec hi hg h
  obtain ⟨⟨r, -, hreply⟩, hdropped, hepoch, hthreads⟩ := act_returns action h
  obtain ⟨herror, honly, hexit⟩ := hi'.unpin_foreign (Ne.symm hne) hlock s.wall
  rw [herror] at hreply hdropped
  rw [← hepoch] at honly hexit
  exact ⟨hreply, hdropped, honly, hexit, hthreads ▸ caller_spec s t⟩

theorem act_overflowed (hi : s.epoch.Inv) (hg : s.Guarded) {action : Action ι} {e₁ : Epoch ι}
    (h : s.returning? t action = some (e, g)) (h₁ : e.giveUp (s.identify t).1.id g.handle = .ok e₁)
    (hover : e₁.Overflows (s.identify t).1.id) :
    Overflowed s e₁ e g (act s t action).1 (act s t action).2 := by
  obtain ⟨hi', -, hlock⟩ := returning_spec hi hg h
  obtain ⟨⟨r, -, hreply⟩, hdropped, hepoch, -⟩ := act_returns action h
  obtain ⟨l, hunpin, hl⟩ := hi'.unpin_overflow h₁ hover hlock s.wall
  rw [hunpin] at hreply hdropped hepoch
  exact ⟨hreply, hdropped, ⟨l, hepoch⟩, by rw [hepoch, hl]⟩

/-- After any moves of any threads the list leads through all stores in use. Whatever a thread does then, it
breaks off if and only if it gives a handle back and that handle is one of another store than its own, or a
word does not suffice for the limits of freeing nodes. The first changes nothing but that the other store is
registered, and the second nothing but that the handle is given up. -/
theorem broken_iff (threshold cacheTime : Int64) (moves : List (Move ι)) :
    let s := (State.new threshold cacheTime).after moves
    s.epoch.Listed ∧ ∀ t action,
      (∀ why, (act s t action).1.reply = .broken why ↔ ∃ e g, s.returning? t action = some (e, g) ∧
        e.BreaksOff (s.identify t).1.id g.handle why) ∧
      ∀ e g, s.returning? t action = some (e, g) →
        (g.handle.tid ≠ (s.identify t).1.id →
          Refused s t e g (act s t action).1 (act s t action).2) ∧
        ∀ e₁, e.giveUp (s.identify t).1.id g.handle = .ok e₁ → e₁.Overflows (s.identify t).1.id →
          Overflowed s e₁ e g (act s t action).1 (act s t action).2 := by
  have hi₀ : (State.new threshold cacheTime : State ι).epoch.Inv := .new ..
  have hi := after_inv hi₀ moves
  have hg := after_guarded hi₀ (Nat.zero_le _) moves
  have hcounted := (after_advances hi₀ (Nat.zero_le _) moves).counted rfl
  generalize (State.new threshold cacheTime : State ι).after moves = s at hi hg hcounted
  refine ⟨hi.listed hcounted, fun t action => ⟨fun why => ?_, fun e g h =>
    ⟨act_refused hi hg h, fun e₁ => act_overflowed hi hg h⟩⟩⟩
  cases h : s.returning? t action with
  | none =>
    refine ⟨fun hbroken => absurd hbroken (act_unbroken hi action h why), ?_⟩
    rintro ⟨e, g, ⟨⟩, -⟩
  | some returned =>
    obtain ⟨e, g⟩ := returned
    obtain ⟨hi', -, hlock⟩ := returning_spec hi hg h
    obtain ⟨⟨r, hr, hreply⟩, -⟩ := act_returns action h
    have hends : (act s t action).1.reply = .broken why ↔
        (e.unpin (s.identify t).1.id g s.wall).1 = .error why := by
      rw [hreply]
      cases (e.unpin (s.identify t).1.id g s.wall).1 with
      | ok labels => exact ⟨fun hbroken => absurd hbroken (hr why), fun h => by cases h⟩
      | error why' => exact ⟨fun h => congrArg Except.error (Reply.broken.inj h),
          fun h => congrArg Reply.broken (Except.error.inj h)⟩
    rw [hends, hi'.unpin_error_iff hlock]
    constructor
    · exact fun hbreaks => ⟨e, g, rfl, hbreaks⟩
    · rintro ⟨e', g', heq, hbreaks⟩
      cases heq
      exact hbreaks

/-- A thread can break off although the handle it gives back is its own: where the threshold is the largest
word, two stores are enough. -/
theorem own_release_breaks_off : ¬ ∀ (threshold cacheTime : Int64) (moves : List (Move Unit)) (t : Nat)
    (action : Action Unit) (why : Violation),
    let s := (State.new threshold cacheTime).after moves
    (act s t action).1.reply = .broken why → ∃ e g, s.returning? t action = some (e, g) ∧
      g.handle.tid ≠ (s.identify t).1.id := by
  intro h
  obtain ⟨e, g, hreturns, hne⟩ := h Int64.maxValue 0
    [.act 1 (.acquire "a"), .act 1 (.release (.named "a")), .act 2 (.acquire "b")] 2
    (.release (.named "b")) .overflow rfl
  cases hreturns
  exact hne rfl

end HazardScenario

end BackoffStack
