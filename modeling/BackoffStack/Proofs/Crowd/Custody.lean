/-
What holds of an epoch that many threads use at once, however their accesses come.

A version that is held is published in a store on the list, and so every scan finds it that begins after it
was acquired. A scan that began before has an older version to start with. Every minimum that is kept, or
that somebody has at hand, is therefore safe, and so is every node that was set apart to be freed.
-/
import BackoffStack.Proofs.Crowd.Accesses
import BackoffStack.Proofs.Hazard.Registry

namespace BackoffStack

variable {ι : Type}

namespace Shared

/-- The stores with these ids are all in use. -/
def Settled (s : Shared ι) (ids : List Nat) : Prop := ∀ id ∈ ids, (s.store id).enabled = true

/-- A scan that has come as far as `link` will find whatever is held and older than `least`. -/
def Scans (s : Shared ι) (g : Ledger) (ids : List Nat) (least : Nat) (link : Option Nat) : Prop :=
  least ≤ g.version ∧ ∃ rest, s.epoch.Chained link rest ∧ (∀ id ∈ rest, id ∈ ids) ∧
    ∀ id h version, g.held id = some (h, version) → least ≤ version ∨ id ∈ rest

/-- What is shared is in order; `ids` is the list of stores. -/
structure Inv (s : Shared ι) (g : Ledger) (ids : List Nat) : Prop where
  version : g.version = s.epoch.version
  chained : s.epoch.Chained s.epoch.newest ids
  enabled : ∀ id, (s.store id).enabled = true → id ∈ ids ∧ (s.store id).owner = id
  settled : s.registrar = none → s.Settled ids
  held : ∀ id h version, g.held id = some (h, version) → (s.store id).enabled = true ∧
    (s.store id).published = some version ∧ (s.store id).handle = h
  cached : g.Safe s.epoch.cachedMin

end Shared

/-- What an errand needs to go on. -/
def Errand.Ok (s : Shared ι) (a : Actor) : Errand ι → Prop
  | acquire => s.Owns a
  | release h => s.Owns a ∧ h.tid = a.id
  | add _ | retire => True

theorem Errand.Ok.onward {s s' : Shared ι} {a : Actor} {e : Errand ι} (h : e.Ok s a)
    (ho : s.Owns a → s'.Owns a) : e.Ok s' a := by
  cases e with
  | acquire => exact ho h
  | release k => exact ⟨ho h.1, h.2⟩
  | add node => trivial
  | retire => trivial

namespace Access

/-- Whether an access needs to be the next one of its actor: it depends on what the others of this actor
change. -/
def urgent : Access ι → Bool
  | lookAgain _ | readNewest _ | link .. | enlist _ | countStore _ | claim _ | enable _
  | unlockList _ | publish _ | confirm _ | retract | advance _ | withdraw _ => true
  | _ => false

/-- What an access needs to be in order. -/
def Ok (s : Shared ι) (g : Ledger) (ids : List Nat) (a : Actor) : Access ι → Prop
  | lookUp e | lockList e => e.Ok s a
  | lookAgain e => e.Ok s a ∧ s.registrar = some a ∧ s.Settled ids
  | readNewest e => e.Ok s a ∧ s.registrar = some a ∧ s.Settled ids ∧ a.id ∉ ids
  | link e next =>
    e.Ok s a ∧ s.registrar = some a ∧ s.Settled ids ∧ a.id ∉ ids ∧ next = s.epoch.newest
  | enlist e =>
    e.Ok s a ∧ s.registrar = some a ∧ s.Settled ids ∧ a.id ∉ ids ∧
      (s.store a.id).next = s.epoch.newest
  | countStore e | claim e =>
    e.Ok s a ∧ s.registrar = some a ∧ a.id ∈ ids ∧
      ∀ id ∈ ids, id ≠ a.id → (s.store id).enabled = true
  | enable e =>
    e.Ok s a ∧ s.registrar = some a ∧ a.id ∈ ids ∧
      (∀ id ∈ ids, id ≠ a.id → (s.store id).enabled = true) ∧ (s.store a.id).owner = a.id
  | unlockList e => e.Ok s a ∧ s.registrar = some a ∧ a.id ∈ ids ∧ s.Settled ids
  | readVersion | checkIdle _ => s.Owns a ∧ (s.store a.id).enabled = true
  | publish _ => s.Owns a ∧ (s.store a.id).enabled = true ∧ (s.store a.id).published = none
  | confirm version =>
    s.Owns a ∧ (s.store a.id).enabled = true ∧ (s.store a.id).published = some version ∧
      g.held a.id = none
  | retract | advance true => s.Owns a ∧ (s.store a.id).enabled = true ∧ g.held a.id = none
  | advance false => s.Owns a ∧ g.held a.id = none
  | checkHandle h => s.Owns a ∧ h.tid = a.id
  | withdraw h =>
    s.Owns a ∧ h.tid = a.id ∧ ∀ h' version, g.held a.id = some (h', version) → h' = h
  | readList _ least => least ≤ g.version
  | readPublished _ least id => s.Scans g ids least (some id)
  | readNext _ least id => id ∈ ids ∧ s.Scans g ids least (s.store id).next
  | readCachedAt least | readClock least _ | keepMin _ least | noteTime _ least
  | keepTime _ least _ => g.Safe least
  | swapRetired _ version | takeList _ version | readOthers version | readOther version _ =>
    g.Safe version
  | free w => g.Safe w.version
  | lockExit | compareOwn | readStoreCount | compareAll _ | readCached | beginScan _ | push _
  | countOwn _ | uncount .. | countAll _ | stamp _ | forgetRetired => True

end Access

/-- What one access of an actor leaves to the others. -/
structure Onward (a : Actor) (s : Shared ι) (g : Ledger) (ids : List Nat) (s' : Shared ι)
    (g' : Ledger) (ids' : List Nat) : Prop where
  version : g.version ≤ g'.version
  held : ∀ id h version, g'.held id = some (h, version) →
    g.held id = some (h, version) ∨ g.version ≤ version
  listed : ∀ id ∈ ids, id ∈ ids'
  next : ∀ id ∈ ids, (s'.store id).next = (s.store id).next
  enabled : ∀ id, (s.store id).enabled = true → (s'.store id).enabled = true
  /-- Only who holds the lock of the list changes it. -/
  registry : s.registrar ≠ some a →
    (∀ id, (s.store id).Like (s'.store id)) ∧ s'.epoch.newest = s.epoch.newest ∧ ids' = ids
  registrar : ∀ b, b ≠ a → s.registrar = some b → s'.registrar = some b
  /-- Only who owns a store publishes there. -/
  publication : ∀ id, id ≠ a.id ∨ ¬ s.Owns a → (s'.store id).published = (s.store id).published ∧
    g'.held id = g.held id
  exit : ∀ b, b ≠ a → s.exit = some b → s'.exit = some b

namespace Shared

variable {s s' : Shared ι} {g g' : Ledger} {ids ids' : List Nat} {a b : Actor}

theorem owns_of_exit (h : s.Owns b) (hexit : s.exit = some b → s'.exit = some b) : s'.Owns b := by
  cases b with
  | live n => trivial
  | exiting n => exact hexit h

/-- No two actors publish in the same store. -/
theorem eq_of_owns (ha : s.Owns a) (hb : s.Owns b) (hid : a.id = b.id) : a = b := by
  cases a with
  | live n =>
    cases b with
    | live m =>
      simp only [Actor.id] at hid
      congr
      omega
    | exiting m =>
      simp only [Actor.id] at hid
      omega
  | exiting n =>
    cases b with
    | live m =>
      simp only [Actor.id] at hid
      omega
    | exiting m => exact Option.some.inj (ha.symm.trans hb)

end Shared

namespace Ledger

variable {g g' : Ledger} {x y : Nat}

theorem Safe.of_le (h : g.Safe x) (hle : y ≤ x) : g.Safe y :=
  ⟨hle.trans h.le_version, fun id k version hk => hle.trans (h.le_held id k version hk)⟩

end Ledger

namespace Onward

variable {s s' : Shared ι} {g g' : Ledger} {ids ids' : List Nat} {a b : Actor} {x : Nat}

theorem safe (ho : Onward a s g ids s' g' ids') (h : g.Safe x) : g'.Safe x := by
  refine ⟨h.le_version.trans ho.version, fun id k version hk => ?_⟩
  rcases ho.held id k version hk with hk | hle
  · exact h.le_held id k version hk
  · exact h.le_version.trans hle

theorem scans (ho : Onward a s g ids s' g' ids') {link : Option Nat}
    (h : s.Scans g ids x link) : s'.Scans g' ids' x link := by
  obtain ⟨hle, rest, hc, hsub, hheld⟩ := h
  refine ⟨hle.trans ho.version, rest, hc.congr fun id hid => ho.next id (hsub id hid),
    fun id hid => ho.listed id (hsub id hid), fun id k version hk => ?_⟩
  rcases ho.held id k version hk with hk | hv
  · exact hheld id k version hk
  · exact .inl (hle.trans hv)

/-- Somebody else may hold the lock of the list: then the list stays as it is. -/
theorem settled (ho : Onward a s g ids s' g' ids') (hb : b ≠ a) (hr : s.registrar = some b) :
    s'.registrar = some b ∧ s'.epoch.newest = s.epoch.newest ∧ ids' = ids ∧
      (s.Settled ids → s'.Settled ids') ∧ ∀ id, (s.store id).Like (s'.store id) := by
  obtain ⟨hlike, hnewest, rfl⟩ := ho.registry (by rw [hr]; exact fun h => hb (Option.some.inj h))
  exact ⟨ho.registrar b hb hr, hnewest, rfl,
    fun hs id hid => ho.enabled id (hs id hid), hlike⟩

/-- What others publish stays as it is. -/
theorem others (ho : Onward a s g ids s' g' ids') (hb : b ≠ a) (howns : s.Owns b) :
    (s'.store b.id).published = (s.store b.id).published ∧ g'.held b.id = g.held b.id := by
  refine ho.publication b.id ?_
  by_contra h
  obtain ⟨hid, ha⟩ := not_or.1 h
  exact hb (Shared.eq_of_owns howns (not_not.1 ha) (not_not.1 hid))

/-! ### Accesses of the others -/

section Others

variable {e : Errand ι} {version : Nat} (ho : Onward a s g ids s' g' ids')
  (howns : s.Owns b → s'.Owns b) (hb : b ≠ a)
include ho howns hb

theorem ok_lookAgain (h : (Access.lookAgain e).Ok s g ids b) :
    (Access.lookAgain e).Ok s' g' ids' b := by
  obtain ⟨he, hr, hset⟩ := h
  obtain ⟨hr', -, -, hset', -⟩ := ho.settled hb hr
  exact ⟨he.onward howns, hr', hset' hset⟩

theorem ok_readNewest (h : (Access.readNewest e).Ok s g ids b) :
    (Access.readNewest e).Ok s' g' ids' b := by
  obtain ⟨he, hr, hset, hid⟩ := h
  obtain ⟨hr', -, rfl, hset', -⟩ := ho.settled hb hr
  exact ⟨he.onward howns, hr', hset' hset, hid⟩

theorem ok_link {next : Option Nat} (h : (Access.link e next).Ok s g ids b) :
    (Access.link e next).Ok s' g' ids' b := by
  obtain ⟨he, hr, hset, hid, hn⟩ := h
  obtain ⟨hr', hnewest, rfl, hset', -⟩ := ho.settled hb hr
  exact ⟨he.onward howns, hr', hset' hset, hid, hn.trans hnewest.symm⟩

theorem ok_enlist (h : (Access.enlist e).Ok s g ids b) : (Access.enlist e).Ok s' g' ids' b := by
  obtain ⟨he, hr, hset, hid, hn⟩ := h
  obtain ⟨hr', hnewest, rfl, hset', hlike⟩ := ho.settled hb hr
  exact ⟨he.onward howns, hr', hset' hset, hid, ((hlike _).next.trans hn).trans hnewest.symm⟩

/-- A store that is on the list already stays there until it is in use. -/
theorem ok_countStore (h : (Access.countStore e).Ok s g ids b) :
    (Access.countStore e).Ok s' g' ids' b := by
  obtain ⟨he, hr, hid, hset⟩ := h
  obtain ⟨hr', -, rfl, -, -⟩ := ho.settled hb hr
  exact ⟨he.onward howns, hr', hid, fun id hm hi => ho.enabled id (hset id hm hi)⟩

theorem ok_enable (h : (Access.enable e).Ok s g ids b) : (Access.enable e).Ok s' g' ids' b := by
  obtain ⟨he, hr, hid, hset, howner⟩ := h
  obtain ⟨hr', -, rfl, -, hlike⟩ := ho.settled hb hr
  exact ⟨he.onward howns, hr', hid, fun id hm hi => ho.enabled id (hset id hm hi),
    (hlike _).owner.trans howner⟩

theorem ok_unlockList (h : (Access.unlockList e).Ok s g ids b) :
    (Access.unlockList e).Ok s' g' ids' b := by
  obtain ⟨he, hr, hid, hset⟩ := h
  obtain ⟨hr', -, rfl, hset', -⟩ := ho.settled hb hr
  exact ⟨he.onward howns, hr', hid, hset' hset⟩

theorem ok_publish (h : (Access.publish version : Access ι).Ok s g ids b) :
    (Access.publish version : Access ι).Ok s' g' ids' b := by
  obtain ⟨hown, hen, hpub⟩ := h
  exact ⟨howns hown, ho.enabled _ hen, (ho.others hb hown).1.trans hpub⟩

theorem ok_confirm (h : (Access.confirm version : Access ι).Ok s g ids b) :
    (Access.confirm version : Access ι).Ok s' g' ids' b := by
  obtain ⟨hown, hen, hpub, hheld⟩ := h
  obtain ⟨hp, hh⟩ := ho.others hb hown
  exact ⟨howns hown, ho.enabled _ hen, hp.trans hpub, hh.trans hheld⟩

/-- Whoever holds nothing yet still does not, until it goes on itself. -/
theorem ok_retract (h : (Access.retract : Access ι).Ok s g ids b) :
    (Access.retract : Access ι).Ok s' g' ids' b := by
  obtain ⟨hown, hen, hheld⟩ := h
  exact ⟨howns hown, ho.enabled _ hen, (ho.others hb hown).2.trans hheld⟩

theorem ok_advance {again : Bool} (h : (Access.advance again : Access ι).Ok s g ids b) :
    (Access.advance again : Access ι).Ok s' g' ids' b := by
  cases again with
  | true => exact ho.ok_retract howns hb h
  | false =>
    obtain ⟨hown, hheld⟩ := h
    exact ⟨howns hown, (ho.others hb hown).2.trans hheld⟩

theorem ok_withdraw {k : Handle} (h : (Access.withdraw k : Access ι).Ok s g ids b) :
    (Access.withdraw k : Access ι).Ok s' g' ids' b := by
  obtain ⟨hown, hid, hheld⟩ := h
  refine ⟨howns hown, hid, fun k' version hk => hheld k' version ?_⟩
  rw [← (ho.others hb hown).2]
  exact hk

end Others

/-- The accesses of the others stay in order, and so do an actor's own that are not urgent. -/
theorem ok (ho : Onward a s g ids s' g' ids') (hexit : s.exit = some b → s'.exit = some b)
    {access : Access ι} (hb : b ≠ a ∨ access.urgent = false) (h : access.Ok s g ids b) :
    access.Ok s' g' ids' b := by
  have howns : s.Owns b → s'.Owns b := fun h => Shared.owns_of_exit h hexit
  have hne : access.urgent = true → b ≠ a := fun hu => hb.resolve_right (by simp [hu])
  cases access with
  | lookUp e | lockList e => exact Errand.Ok.onward h howns
  | lookAgain e => exact ho.ok_lookAgain howns (hne rfl) h
  | readNewest e => exact ho.ok_readNewest howns (hne rfl) h
  | link e next => exact ho.ok_link howns (hne rfl) h
  | enlist e => exact ho.ok_enlist howns (hne rfl) h
  | countStore e | claim e => exact ho.ok_countStore howns (hne rfl) h
  | enable e => exact ho.ok_enable howns (hne rfl) h
  | unlockList e => exact ho.ok_unlockList howns (hne rfl) h
  | readVersion | checkIdle version => exact ⟨howns h.1, ho.enabled _ h.2⟩
  | publish version => exact ho.ok_publish howns (hne rfl) h
  | confirm version => exact ho.ok_confirm howns (hne rfl) h
  | retract => exact ho.ok_retract howns (hne rfl) h
  | advance again => exact ho.ok_advance howns (hne rfl) h
  | checkHandle k => exact ⟨howns h.1, h.2⟩
  | withdraw k => exact ho.ok_withdraw howns (hne rfl) h
  | readList x least => exact Nat.le_trans h ho.version
  | readPublished x least id => exact ho.scans h
  | readNext x least id =>
    refine ⟨ho.listed id h.1, ?_⟩
    rw [ho.next id h.1]
    exact ho.scans h.2
  | readCachedAt | readClock | keepMin | noteTime | keepTime | swapRetired | takeList | readOthers
  | readOther | free => exact ho.safe h
  | _ => trivial

end Onward

end BackoffStack
