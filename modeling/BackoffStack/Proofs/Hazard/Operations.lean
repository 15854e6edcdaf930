/-
Acquiring and releasing, pinning and unpinning: each keeps the epoch in order, and says who has published
what afterwards.
-/
import BackoffStack.Proofs.Hazard.Reclaim

namespace BackoffStack

variable {ι : Type}

namespace Epoch

variable {e e' : Epoch ι} {id me : Nat}

/-- Some nodes were freed, and their drop functions have added others. -/
structure Frees (e : Epoch ι) (added freed : List (Waiting ι)) (e' : Epoch ι) : Prop where
  turnover : e.Turnover added freed e'
  handed : added.map (·.node) = freed.flatMap (·.node.onFree)

theorem Turnover.frees (h : e.Turnover [] [] e') : e.Frees [] [] e' := ⟨h, rfl⟩

/-- Operations that free nothing may come before and after. -/
theorem Frees.between {e₁ e₂ : Epoch ι} {added freed : List (Waiting ι)} (h : e₁.Frees added freed e₂)
    (hbefore : e.Turnover [] [] e₁) (hafter : e₂.Turnover [] [] e') : e.Frees added freed e' where
  turnover := by
    have hall := (hbefore.trans h.turnover).trans hafter
    rwa [List.append_nil, List.append_nil] at hall
  handed := h.handed

/-- What freeing nodes on the way leaves alone: the exiting threads' lock, and what is published. -/
structure Calm (e : Epoch ι) (added freed : List (Waiting ι)) (e' : Epoch ι) : Prop where
  frees : e.Frees added freed e'
  exitLock : e'.exitLock = e.exitLock
  still : ∀ id, (e.store id).Still (e'.store id)

theorem Calm.refl (e : Epoch ι) : e.Calm [] [] e := ⟨(Turnover.refl e).frees, rfl, fun _ => .refl _⟩

theorem Reclaimed.calm {version : Nat} {ids : List Nat} {freed added : List (Waiting ι)}
    (h : e.Reclaimed me version ids freed added e') : e.Calm added freed e' :=
  ⟨⟨h.turnover, h.handed⟩, h.exitLock, h.still⟩

/-! ## Acquiring -/

theorem Inv.put_like (hi : e.Inv) (he : (e.store id).enabled = true) {s : Store ι}
    (hl : (e.store id).Like s) (hw : s.waiting = (e.store id).waiting)
    (hr : s.lastRetired = (e.store id).lastRetired) : (e.put id s).Inv := by
  refine hi.put he hl (fun w h => ?_) fun w h => ?_
  · rw [hr]
    exact hi.fresh id w (hw ▸ h)
  · exact hi.old id w (hw ▸ h)

/-- The thread with the id `me` publishes a version in the store of `id`. -/
def publishIn (e : Epoch ι) (me id version : Nat) :
    Except Violation (Except Status Handle × Epoch ι) := do
  let e := e.enter id
  let (answer, s) ← (e.store id).acquire me version
  return (answer, e.put id s)

/-- A thread's own store takes a version unless there is one already. -/
theorem Inv.publishIn_eq (hi : e.Inv) (me version : Nat) : e.publishIn me me version =
    .ok (if ((e.enter me).store me).published.isSome then
        (.error .busy, (e.enter me).put me ((e.enter me).store me))
      else
        (.ok ((e.enter me).store me).handle,
          (e.enter me).put me (((e.enter me).store me).publish version))) := by
  have he := (hi.enabled_enter me me).2 (.inl rfl)
  have howner := ((hi.enter me).owned me he).1
  unfold publishIn
  simp only [Store.acquire, Store.assertOwner, howner, if_true]
  split <;> rfl

/-- What it comes to when the owner of a store publishes a version there. -/
structure Publishes (e : Epoch ι) (me v : Nat) (e' : Epoch ι) : Prop where
  inv : e'.Inv
  exitLock : e'.exitLock = e.exitLock
  version : e'.version = e.version
  enabled : ∀ id, (e'.store id).enabled = ((e.enter me).store id).enabled
  sequence : ∀ id, (e'.store id).sequence = (e.store id).sequence
  published : ∀ id, (e'.store id).published =
    if id = me then (if v = idleVersion then none else some v) else (e.store id).published

theorem Inv.publishIn (hi : e.Inv) (hn : (e.store me).published = none) (version : Nat) :
    ∃ e', e.publishIn me me version = .ok (.ok ⟨me, (e.store me).sequence⟩, e') ∧
      e.Publishes me version e' := by
  have he := (hi.enabled_enter me me).2 (.inl rfl)
  obtain ⟨howner, hlt⟩ := (hi.enter me).owned me he
  have heq := hi.publishIn_eq me version
  rw [hi.published_enter, hn, if_neg (by simp), Store.handle, howner, hi.sequence_enter] at heq
  have hstore := store_put hlt (((e.enter me).store me).publish version)
  refine ⟨_, heq, (hi.enter me).put_like he ⟨rfl, rfl, rfl⟩ rfl rfl, exitLock_enter e me,
    version_enter e me, fun id => ?_, fun id => ?_, fun id => ?_⟩
  · rw [hstore]
    split
    · next hid => exact hid ▸ rfl
    · rfl
  · rw [hstore, ← hi.sequence_enter me id]
    split
    · next hid => exact hid ▸ rfl
    · rfl
  · rw [hstore, ← hi.published_enter me id]
    split <;> rfl

theorem acquireIn_eq_publishIn (e : Epoch ι) (me id : Nat) :
    e.acquireIn me id = e.publishIn me id e.version := by
  unfold acquireIn publishIn
  simp only [version_enter]

/-- A thread's own store lets it acquire unless it has published a version already. -/
theorem Inv.acquireIn_eq (hi : e.Inv) (me : Nat) : e.acquireIn me me =
    .ok (if ((e.enter me).store me).published.isSome then
        (.error .busy, (e.enter me).put me ((e.enter me).store me))
      else
        (.ok ((e.enter me).store me).handle,
          (e.enter me).put me (((e.enter me).store me).publish e.version))) := by
  rw [acquireIn_eq_publishIn, hi.publishIn_eq]

theorem Inv.acquireIn (hi : e.Inv) {answer : Except Status Handle}
    (h : e.acquireIn me me = .ok (answer, e')) : e'.Inv := by
  have he := (hi.enabled_enter me me).2 (.inl rfl)
  rw [hi.acquireIn_eq] at h
  split at h
  · cases h
    exact (hi.enter me).put_like he ⟨rfl, rfl, rfl⟩ rfl rfl
  · cases h
    exact (hi.enter me).put_like he ⟨rfl, rfl, rfl⟩ rfl rfl

theorem Inv.acquire (hi : e.Inv) {who : Identity} {answer : Except Status Handle}
    (h : e.acquire who = .ok (answer, e')) : e'.Inv := by
  cases who with
  | live id => exact hi.acquireIn h
  | exiting =>
    cases h
    exact hi

theorem Inv.turnover_acquireIn (hi : e.Inv) {answer : Except Status Handle}
    (h : e.acquireIn me me = .ok (answer, e')) :
    e.Turnover [] [] e' ∧ e'.exitLock = e.exitLock := by
  have he := (hi.enabled_enter me me).2 (.inl rfl)
  have hid := ((hi.enter me).owned me he).2
  rw [hi.acquireIn_eq] at h
  split at h
  · cases h
    exact ⟨(hi.turnover_enter me).trans (.put hid rfl rfl), exitLock_enter e me⟩
  · cases h
    exact ⟨(hi.turnover_enter me).trans (.put hid rfl rfl), exitLock_enter e me⟩

theorem Inv.turnover_acquire (hi : e.Inv) {who : Identity} {answer : Except Status Handle}
    (h : e.acquire who = .ok (answer, e')) : e.Turnover [] [] e' ∧ e'.exitLock = e.exitLock := by
  cases who with
  | live id => exact hi.turnover_acquireIn h
  | exiting =>
    cases h
    exact ⟨.refl e, rfl⟩

/-! ## Releasing -/

theorem exists_of_bind_eq_ok {ε α β : Type} {x : Except ε α} {f : α → Except ε β} {b : β}
    (h : x >>= f = .ok b) : ∃ a, x = .ok a ∧ f a = .ok b := by
  cases x with
  | error v => cases h
  | ok a => exact ⟨a, rfl, h⟩

/-- The minimum that is kept is not above any version in use. -/
def Conservative (e : Epoch ι) : Prop := ∀ v, e.InUse v → e.cachedMin ≤ v

/-- The time at which the kept minimum gets too old does not fit a word. -/
def ExpiryOverflows (e : Epoch ι) : Prop :=
  e.cachedMin ≠ 0 ∧ ¬ FitsWord (e.cachedAt.toInt + e.cacheTime.toInt)

instance (e : Epoch ι) : Decidable e.ExpiryOverflows := inferInstanceAs (Decidable (_ ∧ _))

/-- Freeing nodes after a release in the store of `me` takes a sum or a product that does not fit a word. -/
def Overflows (e : Epoch ι) (me : Nat) : Prop :=
  if e.threshold.toInt < (e.store me).count then e.ExpiryOverflows
  else ¬ FitsWord (e.storeCount * e.threshold.toInt)

instance (e : Epoch ι) (me : Nat) : Decidable (e.Overflows me) :=
  inferInstanceAs (Decidable (if e.threshold.toInt < (e.store me).count then e.ExpiryOverflows
    else ¬ FitsWord (e.storeCount * e.threshold.toInt)))

theorem minVersion_of_overflows {now : Int64} (h : e.ExpiryOverflows) :
    e.minVersion now = .error .overflow := by
  rw [minVersion, if_neg h.1, checked, if_neg h.2]
  rfl

theorem exists_minVersion (h : ¬ e.ExpiryOverflows) (now : Int64) :
    ∃ version e', e.minVersion now = .ok (version, e') := by
  unfold minVersion
  by_cases hm : e.cachedMin = 0
  · rw [if_pos hm]
    exact ⟨_, _, rfl⟩
  · have hfits : FitsWord (e.cachedAt.toInt + e.cacheTime.toInt) := by
      by_contra hn
      exact h ⟨hm, hn⟩
    rw [if_neg hm, checked, if_pos hfits]
    exact ⟨_, _, rfl⟩

/-- The minimum is the one that was kept, or is found anew. -/
theorem minVersion_eq_ok {now : Int64} {version : Nat} (h : e.minVersion now = .ok (version, e')) :
    version = e.cachedMin ∧ e' = e ∨ version = e.oldestVersion ∧ e' = (e.refreshMin now).2 := by
  unfold minVersion at h
  split at h
  · cases h
    exact .inr ⟨rfl, rfl⟩
  · obtain ⟨expiry, -, h⟩ := exists_of_bind_eq_ok h
    split at h
    · cases h
      exact .inl ⟨rfl, rfl⟩
    · cases h
      exact .inr ⟨rfl, rfl⟩

/-- Asking for a minimum changes at most what is kept of it. Whether it is kept or found anew, the minimum
is not above any version in use. -/
theorem Inv.minVersion (hi : e.Inv) {now : Int64} {version : Nat}
    (h : e.minVersion now = .ok (version, e')) :
    (∃ least at?, e' = { e with cachedMin := least, cachedAt := at? }) ∧
      (e.Conservative → ∀ v, e.InUse v → version ≤ v) := by
  rcases minVersion_eq_ok h with ⟨rfl, rfl⟩ | ⟨rfl, rfl⟩
  · exact ⟨⟨_, _, rfl⟩, id⟩
  · exact ⟨⟨_, _, rfl⟩, fun _ v hv => hi.oldestVersion_isLeast.2 hv⟩

/-- How freeing nodes after a release in the store of `me` ends. -/
structure Reclaims (e : Epoch ι) (me : Nat) (added freed : List (Waiting ι))
    (answer : Except Violation (List ι)) (e' : Epoch ι) : Prop where
  inv : e'.Inv
  calm : e.Calm added freed e'
  /-- It breaks off where a word does not suffice, and goes through everywhere else. -/
  answer : answer = if e.Overflows me then .error .overflow else .ok (freed.map (·.node.label))
  /-- Where it breaks off, nothing has happened. -/
  nothing : e.Overflows me → e' = e ∧ freed = []
  /-- No node is freed that can still be looked at. -/
  spares : e.Conservative → ∀ v, e.InUse v → ∀ w ∈ freed, w.version ≤ v

theorem Reclaims.labels {added freed : List (Waiting ι)} {answer : Except Violation (List ι)}
    (h : e.Reclaims me added freed answer e') :
    freed.map (·.node.label) = answer.toOption.getD [] := by
  rw [h.answer]
  split
  · next hover =>
    rw [(h.nothing hover).2]
    rfl
  · rfl

theorem Reclaims.why {added freed : List (Waiting ι)} {answer : Except Violation (List ι)}
    (h : e.Reclaims me added freed answer e') {why : Violation} (ha : answer = .error why) :
    why = .overflow := by
  rw [h.answer] at ha
  split at ha
  · exact (Except.error.inj ha).symm
  · cases ha

theorem reclaim_of_lt {now : Int64} (hfull : e.threshold.toInt < (e.store id).count) :
    e.reclaim me id now =
      e.allOrNothing (e.minVersion now >>= fun (version, e) => e.drain me id id version) := by
  rw [Epoch.reclaim, if_pos hfull]

theorem reclaim_of_le {now : Int64} (hfull : ¬ e.threshold.toInt < (e.store id).count) :
    e.reclaim me id now = e.allOrNothing (checked (e.storeCount * e.threshold.toInt) >>= fun limit =>
      if limit < e.waitingCount then e.retire me now else .ok ([], e)) := by
  rw [Epoch.reclaim, if_neg hfull]
  rfl

/-- Freeing nodes after a release goes through, unless a word does not suffice for its limits. -/
theorem Inv.reclaim (hi : e.Inv) (hm : (e.store me).enabled = true) (now : Int64) :
    ∃ added freed answer e', e.reclaim me me now = (answer, e') ∧
      e.Reclaims me added freed answer e' := by
  have hbroken : e.Overflows me → e.Reclaims me [] [] (.error .overflow) e := fun h =>
    ⟨hi, .refl e, (if_pos h).symm, fun _ => ⟨rfl, rfl⟩, fun _ _ _ => by simp⟩
  by_cases hfull : e.threshold.toInt < (e.store me).count
  · have hiff : e.Overflows me ↔ e.ExpiryOverflows := by rw [Overflows, if_pos hfull]
    rw [reclaim_of_lt hfull]
    by_cases hover : e.ExpiryOverflows
    · rw [minVersion_of_overflows hover]
      exact ⟨[], [], _, e, rfl, hbroken (hiff.2 hover)⟩
    · obtain ⟨version, e₁, hv⟩ := exists_minVersion hover now
      obtain ⟨⟨least, at?, rfl⟩, hle⟩ := hi.minVersion hv
      have hi₁ : ({ e with cachedMin := least, cachedAt := at? } : Epoch ι).Inv :=
        hi.congr rfl rfl (Nat.le_refl _)
      have hown : me ≠ me → (e.store me).lastRetired ≤ version := fun h => absurd rfl h
      obtain ⟨freed, added, e', h, hr⟩ := hi₁.drain hm hm hown
      have hfrees := hr.calm.frees.between (.of_eq (e := e) rfl rfl rfl) (.refl e')
      rw [hv]
      show ∃ added freed answer e', e.allOrNothing (Epoch.drain _ me me me version) = _ ∧ _
      rw [h]
      exact ⟨added, freed, _, e', rfl, hr.inv, ⟨hfrees, hr.exitLock, hr.still⟩,
        (if_neg fun h => hover (hiff.1 h)).symm, fun h => absurd (hiff.1 h) hover,
        fun hc v hu w hw => (hr.due w hw).trans (hle hc v hu)⟩
  · have hiff : e.Overflows me ↔ ¬ FitsWord (e.storeCount * e.threshold.toInt) := by
      rw [Overflows, if_neg hfull]
    rw [reclaim_of_le hfull]
    by_cases hfits : FitsWord (e.storeCount * e.threshold.toInt)
    · have hok : ¬ e.Overflows me := fun h => hiff.1 h hfits
      rw [checked, if_pos hfits]
      by_cases hall : e.storeCount * e.threshold.toInt < e.waitingCount
      · obtain ⟨ids, freed, added, e', h, hr, -⟩ := hi.retire me now
        rw [hi.enter_eq hm] at hr
        refine ⟨added, freed, _, e', ?_, hr.inv, hr.calm, (if_neg hok).symm,
          fun h => absurd h hok, fun _ v hu w hw => ?_⟩
        · exact congrArg e.allOrNothing ((if_pos hall).trans h)
        · exact (hr.due w hw).trans (hi.oldestVersion_isLeast.2 hu)
      · exact ⟨[], [], _, e, congrArg e.allOrNothing (if_neg hall), hi, .refl e, (if_neg hok).symm,
          fun h => absurd h hok, fun _ _ _ => by simp⟩
    · rw [checked, if_neg hfits]
      exact ⟨[], [], _, e, rfl, hbroken (hiff.2 hfits)⟩

theorem giveUp_of_ne (hi : e.Inv) {h : Handle} (ht : me ≠ h.tid) :
    e.giveUp me h = .error (.notOwner me h.tid) := by
  have he := (hi.enabled_enter h.tid h.tid).2 (.inl rfl)
  have howner := ((hi.enter h.tid).owned h.tid he).1
  unfold giveUp
  simp only [Store.release, Store.assertOwner, howner, if_neg ht]
  rfl

theorem release_of_ne (hi : e.Inv) {h : Handle} (ht : me ≠ h.tid) (now : Int64) :
    e.release me h now = (.error (.notOwner me h.tid), e.enter h.tid) := by
  rw [release, giveUp_of_ne hi ht]

theorem release_of_giveUp {h : Handle} {now : Int64} {e₁ : Epoch ι} (h₁ : e.giveUp me h = .ok e₁) :
    e.release me h now = e₁.reclaim me h.tid now := by
  rw [release, h₁]

/-- What it comes to when the owner of a store gives up the handle of that store with a sequence number:
at most what is published there changes. -/
structure GivesUp (e : Epoch ι) (me : Nat) (sequence : UInt32) (e' : Epoch ι) : Prop where
  inv : e'.Inv
  turnover : e.Turnover [] [] e'
  exitLock : e'.exitLock = e.exitLock
  storeCount : e'.storeCount = (e.enter me).storeCount
  cachedMin : e'.cachedMin = (e.enter me).cachedMin
  enabled : ∀ id, (e'.store id).enabled = ((e.enter me).store id).enabled
  published : ∀ id, (e'.store id).published =
    if id = me ∧ ((e.enter me).store me).sequence = sequence then none else (e.store id).published

/-- A store takes its owner's handle back if the sequence is the current one. -/
theorem Inv.giveUp_eq (hi : e.Inv) (me : Nat) (sequence : UInt32) : e.giveUp me ⟨me, sequence⟩ =
    .ok ((e.enter me).put me (if ((e.enter me).store me).sequence = sequence then
      ((e.enter me).store me).unpublish else (e.enter me).store me)) := by
  have he := (hi.enabled_enter me me).2 (.inl rfl)
  have howner := ((hi.enter me).owned me he).1
  unfold Epoch.giveUp
  simp only [Store.release, Store.assertOwner, howner, if_true, Store.accepts_own howner,
    decide_eq_true_eq]
  rfl

theorem Inv.giveUp (hi : e.Inv) (me : Nat) (sequence : UInt32) :
    ∃ e', e.giveUp me ⟨me, sequence⟩ = .ok e' ∧ e.GivesUp me sequence e' := by
  have he := (hi.enabled_enter me me).2 (.inl rfl)
  obtain ⟨-, hlt⟩ := (hi.enter me).owned me he
  refine ⟨_, hi.giveUp_eq me sequence, ?_⟩
  generalize hs : (if ((e.enter me).store me).sequence = sequence then
    ((e.enter me).store me).unpublish else (e.enter me).store me) = s
  have hlike : ((e.enter me).store me).Like s ∧
      s.waiting = ((e.enter me).store me).waiting ∧
      s.lastRetired = ((e.enter me).store me).lastRetired ∧
      s.count = ((e.enter me).store me).count := by
    subst hs
    split <;> exact ⟨⟨rfl, rfl, rfl⟩, rfl, rfl, rfl⟩
  obtain ⟨hl, hwaiting, hretired, hcount⟩ := hlike
  have hstore := store_put hlt s
  refine ⟨(hi.enter me).put_like he hl hwaiting hretired,
    (hi.turnover_enter me).trans (.put hlt hwaiting hcount), exitLock_enter e me, rfl, rfl,
    fun id => ?_, fun id => ?_⟩
  · rw [hstore]
    split
    · next hid => exact hid ▸ hl.enabled
    · rfl
  · rw [hstore]
    by_cases hid : id = me
    · subst hid
      rw [if_pos rfl, ← hs, ← hi.published_enter id]
      by_cases hq : ((e.enter id).store id).sequence = sequence <;> simp [hq, Store.unpublish]
    · simp [hid, hi.published_enter]

theorem Inv.sequence_giveUp (hi : e.Inv) {sequence : UInt32}
    (h : e.giveUp me ⟨me, sequence⟩ = .ok e') (id : Nat) : (e'.store id).sequence =
      if id = me ∧ (e.store me).sequence = sequence then (e.store id).sequence + 1
      else (e.store id).sequence := by
  have hlt := ((hi.enter me).owned me ((hi.enabled_enter me me).2 (.inl rfl))).2
  rw [hi.giveUp_eq] at h
  cases h
  rw [store_put hlt, ← hi.sequence_enter me me, ← hi.sequence_enter me id]
  by_cases hid : id = me
  · subst hid
    by_cases hq : ((e.enter id).store id).sequence = sequence <;> simp [hq, Store.unpublish]
  · simp [hid]

theorem GivesUp.registers {sequence : UInt32} (h : e.GivesUp me sequence e') (hi : e.Inv) :
    (e'.store me).enabled = true :=
  (h.enabled me).trans ((hi.enabled_enter me me).2 (.inl rfl))

/-- The owner gives a handle of its store back, and nothing is published there any more, if the handle
is the current one. -/
theorem Inv.release_own (hi : e.Inv) (me : Nat) (sequence : UInt32) (now : Int64) :
    ∃ e₁ added freed answer e', e.giveUp me ⟨me, sequence⟩ = .ok e₁ ∧ e.GivesUp me sequence e₁ ∧
      e.release me ⟨me, sequence⟩ now = (answer, e') ∧ e₁.Reclaims me added freed answer e' := by
  obtain ⟨e₁, h₁, hgive⟩ := hi.giveUp me sequence
  obtain ⟨added, freed, answer, e', h, hr⟩ := hgive.inv.reclaim (hgive.registers hi) now
  exact ⟨e₁, added, freed, answer, e', h₁, hgive, (release_of_giveUp h₁).trans h, hr⟩

theorem Inv.release (hi : e.Inv) (me : Nat) (h : Handle) (now : Int64) :
    (e.release me h now).2.Inv := by
  by_cases ht : me = h.tid
  · obtain ⟨tid, sequence⟩ := h
    obtain rfl : me = tid := ht
    obtain ⟨e₁, added, freed, answer, e', -, -, he, hr⟩ := hi.release_own me sequence now
    rw [he]
    exact hr.inv
  · rw [release_of_ne hi ht]
    exact hi.enter _

/-- Whatever a release frees it answers; one that is turned down frees nothing. -/
theorem Inv.frees_release (hi : e.Inv) (me : Nat) (h : Handle) (now : Int64) :
    ∃ freed added, e.Frees added freed (e.release me h now).2 ∧
      (e.release me h now).2.exitLock = e.exitLock ∧
      freed.map (·.node.label) = (e.release me h now).1.toOption.getD [] := by
  by_cases ht : me = h.tid
  · obtain ⟨tid, sequence⟩ := h
    obtain rfl : me = tid := ht
    obtain ⟨e₁, added, freed, answer, e', -, hgive, he, hr⟩ := hi.release_own me sequence now
    rw [he]
    exact ⟨freed, added, hr.calm.frees.between hgive.turnover (.refl e'),
      hr.calm.exitLock.trans hgive.exitLock, hr.labels⟩
  · rw [release_of_ne hi ht]
    exact ⟨[], [], (hi.turnover_enter h.tid).frees, exitLock_enter e h.tid, rfl⟩

/-! ## Guards -/

theorem lockExit_eq (e : Epoch ι) : e.lockExit =
    if e.exitLock.locked then none
    else some { e with exitLock := { e.exitLock with locked := true } } := by
  unfold lockExit
  rw [SpinLock.tryLock_eq]
  split <;> rfl

theorem unlockExit_eq (e : Epoch ι) : e.unlockExit =
    if e.exitLock.locked then .ok { e with exitLock := { e.exitLock with locked := false } }
    else .error .notLocked := by
  unfold unlockExit
  rw [SpinLock.unlock_eq]
  split <;> rfl

/-- The handle that a pin comes to. -/
def Pin.handle? : Pin → Option Handle
  | .pinned g => some g.handle
  | .refused _ => none
  | .spins => none

/-- A pin comes to nothing, or to an acquisition in the thread's own store, before and after which the
exiting threads' lock may have changed. -/
theorem pin_eq_ok {who : Identity} {answer : Pin} (h : e.pin who = .ok (answer, e')) :
    (e' = e ∧ answer.handle? = none) ∨ ∃ l l' e₁ acquired,
      ({ e with exitLock := l } : Epoch ι).acquireIn who.id who.id = .ok (acquired, e₁) ∧
        e' = { e₁ with exitLock := l' } ∧ answer.handle? = acquired.toOption := by
  cases who with
  | live id =>
    obtain ⟨⟨acquired, e₁⟩, h₁, h⟩ := exists_of_bind_eq_ok h
    cases acquired <;> cases h <;> exact .inr ⟨e.exitLock, e'.exitLock, e', _, h₁, rfl, rfl⟩
  | exiting =>
    simp only [Epoch.pin, lockExit_eq] at h
    by_cases hl : e.exitLock.locked = true
    · rw [if_pos hl] at h
      cases h
      exact .inl ⟨rfl, rfl⟩
    · rw [if_neg hl] at h
      obtain ⟨⟨acquired, e₁⟩, h₁, h⟩ := exists_of_bind_eq_ok h
      cases acquired with
      | ok handle =>
        cases h
        exact .inr ⟨_, e'.exitLock, e', _, h₁, rfl, rfl⟩
      | error why =>
        obtain ⟨e₂, h₂, h⟩ := exists_of_bind_eq_ok h
        cases h
        rw [unlockExit_eq] at h₂
        split at h₂
        · cases h₂
          exact .inr ⟨_, _, e₁, _, h₁, rfl, rfl⟩
        · cases h₂

theorem Inv.pin (hi : e.Inv) {who : Identity} {answer : Pin} (h : e.pin who = .ok (answer, e')) :
    e'.Inv := by
  obtain ⟨hsame, -⟩ | ⟨l, l', e₁, acquired, h₁, rfl, -⟩ := pin_eq_ok h
  · exact hsame ▸ hi
  · have hi₁ : ({ e with exitLock := l } : Epoch ι).Inv := hi.congr rfl rfl (Nat.le_refl _)
    exact (hi₁.acquireIn h₁).congr rfl rfl (Nat.le_refl _)

/-- Whether the exiting threads' lock goes with the answer. -/
def Pin.locks : Pin → Bool
  | .pinned g => g.exiting
  | .refused _ => false
  | .spins => false

/-- A pin moves no node, and takes the exiting threads' lock if and only if its guard says so. -/
theorem Inv.turnover_pin (hi : e.Inv) {who : Identity} {answer : Pin}
    (h : e.pin who = .ok (answer, e')) : e.Turnover [] [] e' ∧
      e'.exitLock.locked.toNat =
        e.exitLock.locked.toNat + answer.locks.toNat := by
  cases who with
  | live id =>
    obtain ⟨⟨acquired, e₁⟩, h₁, h⟩ := exists_of_bind_eq_ok h
    obtain ⟨ht, hl⟩ := hi.turnover_acquireIn h₁
    cases acquired <;> cases h <;> exact ⟨ht, by rw [hl]; rfl⟩
  | exiting =>
    simp only [Epoch.pin, lockExit_eq] at h
    by_cases hl : e.exitLock.locked = true
    · rw [if_pos hl] at h
      cases h
      exact ⟨.refl e, rfl⟩
    · rw [if_neg hl] at h
      obtain ⟨⟨acquired, e₁⟩, h₁, h⟩ := exists_of_bind_eq_ok h
      have hi₁ : ({ e with exitLock := { e.exitLock with locked := true } } : Epoch ι).Inv :=
        hi.congr rfl rfl (Nat.le_refl _)
      have hlock : e.Turnover [] []
          ({ e with exitLock := { e.exitLock with locked := true } } : Epoch ι) := .of_eq rfl rfl rfl
      obtain ⟨ht, hl₁⟩ := hi₁.turnover_acquireIn h₁
      have ht := hlock.trans ht
      rw [Bool.not_eq_true] at hl
      cases acquired with
      | ok handle =>
        cases h
        exact ⟨ht, by rw [hl₁, hl]; rfl⟩
      | error why =>
        obtain ⟨e₂, h₂, h⟩ := exists_of_bind_eq_ok h
        cases h
        rw [unlockExit_eq, hl₁, if_pos rfl] at h₂
        cases h₂
        exact ⟨ht.trans (.of_eq rfl rfl rfl), by rw [hl]; rfl⟩

/-- Whoever drops a guard has the lock that goes with it, and answers whatever is freed. -/
theorem Inv.frees_unpin (hi : e.Inv) (me : Nat) {g : Guard} (now : Int64)
    (hg : g.exiting.toNat ≤ e.exitLock.locked.toNat) :
    ∃ freed added, e.Frees added freed (e.unpin me g now).2 ∧
      (e.unpin me g now).2.exitLock.locked.toNat + g.exiting.toNat = e.exitLock.locked.toNat ∧
      freed.map (·.node.label) = (e.unpin me g now).1.toOption.getD [] := by
  obtain ⟨freed, added, hf, hl, hd⟩ := hi.frees_release me g.handle now
  unfold Epoch.unpin
  dsimp only
  generalize e.release me g.handle now = answered at hf hl hd
  obtain ⟨answer, e₁⟩ := answered
  dsimp only at hf hl hd
  by_cases hexit : g.exiting = true
  · have hlocked : e.exitLock.locked = true := by
      rw [hexit] at hg
      exact Bool.toNat_eq_one.1 (Nat.le_antisymm (Bool.toNat_le _) hg)
    rw [if_pos hexit, unlockExit_eq, hl, if_pos hlocked, hexit, hlocked]
    exact ⟨freed, added, hf.between (.refl e) (.of_eq rfl rfl rfl), rfl, hd⟩
  · rw [if_neg hexit, hl, (Bool.not_eq_true _).mp hexit]
    exact ⟨freed, added, hf, rfl, hd⟩

/-- Whoever drops a guard of its own store gives its handle up, and then frees nodes; after that it gives
the lock back that goes with the guard. -/
theorem Inv.unpin_own (hi : e.Inv) {g : Guard} (hme : me = g.handle.tid)
    (hg : g.exiting.toNat ≤ e.exitLock.locked.toNat) (now : Int64) : ∃ e₁ added freed answer e₂ l,
    e.giveUp me g.handle = .ok e₁ ∧ e.GivesUp me g.handle.sequence e₁ ∧
      e₁.Reclaims me added freed answer e₂ ∧
      e.unpin me g now = (answer, { e₂ with exitLock := l }) ∧
      l.locked = (e.exitLock.locked && !g.exiting) := by
  obtain ⟨⟨tid, sequence⟩, exiting⟩ := g
  obtain rfl : me = tid := hme
  obtain ⟨e₁, added, freed, answer, e₂, h₁, hgive, hrelease, hr⟩ := hi.release_own me sequence now
  have hlock : e₂.exitLock = e.exitLock := hr.calm.exitLock.trans hgive.exitLock
  refine ⟨e₁, added, freed, answer, e₂, ?_⟩
  unfold Epoch.unpin
  simp only [hrelease, unlockExit_eq, hlock]
  cases exiting with
  | false => exact ⟨e₂.exitLock, h₁, hgive, hr, rfl, by simp [hlock]⟩
  | true =>
    have hlocked : e.exitLock.locked = true :=
      Bool.toNat_eq_one.1 (Nat.le_antisymm (Bool.toNat_le _) hg)
    rw [hlocked]
    exact ⟨_, h₁, hgive, hr, rfl, by simp⟩

/-- A guard that is dropped changes the exiting threads' lock after the release. -/
theorem exists_exitLock_unpin (e : Epoch ι) (me : Nat) (g : Guard) (now : Int64) :
    ∃ l, (e.unpin me g now).2 = { (e.release me g.handle now).2 with exitLock := l } := by
  unfold Epoch.unpin
  dsimp only
  generalize e.release me g.handle now = released
  obtain ⟨answer, e'⟩ := released
  split
  · rw [unlockExit_eq]
    split
    · next heq =>
      split at heq
      · cases heq
        exact ⟨_, rfl⟩
      · cases heq
    · exact ⟨e'.exitLock, rfl⟩
  · exact ⟨e'.exitLock, rfl⟩

theorem Inv.unpin (hi : e.Inv) (me : Nat) (g : Guard) (now : Int64) : (e.unpin me g now).2.Inv := by
  obtain ⟨l, hunpin⟩ := exists_exitLock_unpin e me g now
  rw [hunpin]
  exact (hi.release me g.handle now).congr rfl rfl (Nat.le_refl _)

end Epoch

end BackoffStack
