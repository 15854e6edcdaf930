/-
The life of a handle.

A store has at most one handle out, the one that it has handed out last. While that one is out, the store
takes back no other; and once it has been given back, the store counts on, so that no handle is handed out
again before the count comes round (`Store.Numbered`). Whatever threads do, and whichever of them has the
id by then: a handle that was given back may be given back again at any time, and no later acquisition
ends by that (`HazardScenario.handle_life_cycle`).
-/
import BackoffStack.Proofs.Crowd.Handles
import BackoffStack.Proofs.Hazard.Owners

namespace BackoffStack

variable {ι : Type}

/-- Handles of one store are told apart by their words. -/
theorem Handle.eq_of_toWord {h k : Handle} (ht : h.tid = k.tid) (hw : h.toWord = k.toWord) : h = k := by
  obtain ⟨tid, p⟩ := h
  obtain ⟨tid', q⟩ := k
  obtain rfl : tid = tid' := ht
  have hp := p.toNat_lt
  have hq := q.toNat_lt
  have hword := congrArg UInt64.toNat hw
  simp only [toWord, handleHalf, UInt32.size, UInt64.toNat_ofNat'] at hword
  have hsame : p.toNat = q.toNat := by omega
  rw [UInt32.toNat_inj.1 hsame]

/-- A word of an id is the word of that id's handle which it stands for. -/
theorem Handle.ofWord_eq_iff {h : Handle} {w : UInt64} (ht : (ofWord w).tid = h.tid) :
    ofWord w = h ↔ w = h.toWord := by
  refine ⟨fun heq => heq ▸ (toWord_ofWord w).symm, fun heq => eq_of_toWord ht ?_⟩
  rw [toWord_ofWord, heq]

/-! ## One store -/

namespace Store

variable {s s' s'' : Store ι} {id : Nat} {handles handles' : List Handle}

/-- What has become of the handles of a store when it has counted to `n`. The one that is out was handed out
last. -/
structure Numbered (s : Store ι) (id : Nat) (handles : List Handle) (n : Nat) : Prop where
  sequence : s.sequence = UInt32.ofNat n
  handed : Handed id handles n (s.published.isSome = true)
  last : s.published.isSome = true → ∃ older, handles = older ++ [⟨id, s.sequence⟩]

/-- So it is with `s'`, when further handles have been handed out. -/
def Renumbered (s : Store ι) (id : Nat) (handles : List Handle) (s' : Store ι) : Prop :=
  ∀ before n, s.Numbered id before n →
    s'.Numbered id (before ++ handles) (n + (s'.sequence - s.sequence).toNat)

namespace Renumbered

theorem still (hp : s'.published = s.published) (hq : s'.sequence = s.sequence) :
    s.Renumbered id [] s' := by
  intro before n h
  rw [hq, UInt32.sub_self, List.append_nil]
  exact ⟨hq.trans h.sequence, hp ▸ h.handed, hp ▸ hq ▸ h.last⟩

/-- While nothing is published, a handle with a new count is handed out. -/
theorem hand (hn : s.published = none) (hp : s'.published.isSome = true)
    (hq : s'.sequence = s.sequence) : s.Renumbered id [⟨id, s.sequence⟩] s' := by
  intro before n h
  have hidle : ¬ s.published.isSome = true := by simp [hn]
  rw [hq, UInt32.sub_self]
  refine ⟨hq.trans h.sequence, ?_, fun _ => ⟨before, by rw [hq]⟩⟩
  rw [h.sequence]
  exact h.handed.hand hidle hp

theorem count (hp : s'.published = none) (hq : s'.sequence = s.sequence + 1) :
    s.Renumbered id [] s' := by
  intro before n h
  rw [hq, toNat_add_one_sub, List.append_nil]
  refine ⟨?_, h.handed.count, fun hsome => ?_⟩
  · rw [hq, h.sequence, UInt32.ofNat_add]
    rfl
  · rw [hp] at hsome
    cases hsome

theorem after (h : s.Renumbered id handles s') (hq : s'.sequence = s.sequence)
    (h' : s'.Renumbered id handles' s'') : s.Renumbered id (handles ++ handles') s'' := by
  intro before n hn
  have hfirst := h before n hn
  rw [hq, UInt32.sub_self] at hfirst
  have hboth := h' _ _ hfirst
  rw [hq, List.append_assoc] at hboth
  exact hboth

end Renumbered

end Store

/-! ## Operations -/

namespace Epoch

variable {e e' e'' : Epoch ι} {id me : Nat} {h : Handle} {issued issued' : List Handle}

/-- No version was published or taken back, and no store has counted on. -/
structure Unmoved (e e' : Epoch ι) : Prop where
  published : ∀ id, (e'.store id).published = (e.store id).published
  sequence : ∀ id, (e'.store id).sequence = (e.store id).sequence

/-- Whoever acts under an id asks for a version, and is turned down. -/
structure TurnsDown (e : Epoch ι) (id : Nat) (e' : Epoch ι) : Prop where
  acquire : e.acquire (.live id) = .ok (.error .busy, e')
  pin : e.pin (.live id) = .ok (.refused .busy, e')
  unmoved : e.Unmoved e'

/-- Whoever acts under an id asks for a version, and publishes the global one. -/
structure Grants (e : Epoch ι) (id : Nat) (e' : Epoch ι) : Prop where
  acquire : e.acquire (.live id) = .ok (.ok ⟨id, (e.store id).sequence⟩, e')
  pin : e.pin (.live id) = .ok (.pinned ⟨⟨id, (e.store id).sequence⟩, false⟩, e')
  published : ∀ j, (e'.store j).published = if j = id then some e.version else (e.store j).published
  sequence : ∀ j, (e'.store j).sequence = (e.store j).sequence

/-- The thread with the id `me` gives a handle back: it ends an acquisition in that thread's own store if it
carries the count of that store, and comes to nothing otherwise. -/
structure TakesBack (e : Epoch ι) (me : Nat) (h : Handle) (e' : Epoch ι) : Prop where
  published : ∀ id, (e'.store id).published =
    if id = me ∧ h = ⟨me, (e.store me).sequence⟩ then none else (e.store id).published
  sequence : ∀ id, (e'.store id).sequence =
    if id = me ∧ h = ⟨me, (e.store me).sequence⟩ then (e.store id).sequence + 1
    else (e.store id).sequence

/-- The handles of all stores are as these tell that were handed out on the way from `e` to `e'`. -/
def Renumbers (e : Epoch ι) (issued : List Handle) (e' : Epoch ι) : Prop :=
  ∀ id, (e.store id).Renumbered id (issued.filter (·.tid = id)) (e'.store id)

theorem Unmoved.of_stores (hs : e'.stores = e.stores) : e.Unmoved e' := by
  have hstore : ∀ id, e'.store id = e.store id := fun id => by rw [store, hs, store]
  exact ⟨fun id => by rw [hstore], fun id => by rw [hstore]⟩

theorem Unmoved.trans (h : e.Unmoved e') (h' : e'.Unmoved e'') : e.Unmoved e'' where
  published id := (h'.published id).trans (h.published id)
  sequence id := (h'.sequence id).trans (h.sequence id)

theorem unmoved_of_still (h : ∀ id, (e.store id).Still (e'.store id)) : e.Unmoved e' where
  published id := (h id).published
  sequence id := (h id).sequence

theorem Unmoved.renumbers (h : e.Unmoved e') : e.Renumbers [] e' :=
  fun id => .still (h.published id) (h.sequence id)

theorem Renumbers.after (h : e.Renumbers issued e')
    (hq : ∀ id, (e'.store id).sequence = (e.store id).sequence) (h' : e'.Renumbers issued' e'') :
    e.Renumbers (issued ++ issued') e'' := by
  intro id
  rw [List.filter_append]
  exact (h id).after (hq id) (h' id)

/-- A handle that was just handed out is the last of its store. -/
theorem Renumbers.hand (hn : (e.store me).published = none)
    (hp : ∀ id, (e'.store id).published.isSome =
      if id = me then true else (e.store id).published.isSome)
    (hothers : ∀ id, id ≠ me → (e'.store id).published = (e.store id).published)
    (hq : ∀ id, (e'.store id).sequence = (e.store id).sequence) :
    e.Renumbers [⟨me, (e.store me).sequence⟩] e' := by
  intro id
  by_cases hid : id = me
  · subst hid
    rw [List.filter_cons_of_pos (by simp), List.filter_nil]
    exact .hand hn ((hp id).trans (if_pos rfl)) (hq id)
  · rw [List.filter_cons_of_neg (by simpa using Ne.symm hid), List.filter_nil]
    exact .still (hothers id hid) (hq id)

namespace TakesBack

/-- Another handle than the one that is out comes to nothing. -/
theorem unmoved (h' : e.TakesBack me h e') (hne : h ≠ ⟨me, (e.store me).sequence⟩) : e.Unmoved e' where
  published id := by rw [h'.published, if_neg fun hc => hne hc.2]
  sequence id := by rw [h'.sequence, if_neg fun hc => hne hc.2]

theorem published_of_eq (h' : e.TakesBack me h e') {v : Nat}
    (hv : (e'.store id).published = some v) : (e.store id).published = some v := by
  rw [h'.published] at hv
  split at hv
  · cases hv
  · exact hv

theorem renumbers (h' : e.TakesBack me h e') : e.Renumbers [] e' := by
  intro id
  by_cases hc : id = me ∧ h = ⟨me, (e.store me).sequence⟩
  · exact .count ((h'.published id).trans (if_pos hc)) ((h'.sequence id).trans (if_pos hc))
  · exact .still ((h'.published id).trans (if_neg hc)) ((h'.sequence id).trans (if_neg hc))

end TakesBack

namespace Inv

theorem unmoved_enter (hi : e.Inv) (id : Nat) : e.Unmoved (e.enter id) :=
  ⟨hi.published_enter id, hi.sequence_enter id⟩

/-- While a version is published, nothing changes when its thread asks for another. -/
theorem acquireIn_busy (hi : e.Inv) (h : (e.store me).published.isSome = true) :
    ∃ e', e.acquireIn me me = .ok (.error .busy, e') ∧ e.Unmoved e' := by
  have hlt := ((hi.enter me).owned me ((hi.enabled_enter me me).2 (.inl rfl))).2
  have hstore : ∀ id, ((e.enter me).put me ((e.enter me).store me)).store id =
      (e.enter me).store id := by
    intro id
    rw [store_put hlt]
    split
    · next hid => rw [hid]
    · rfl
  rw [← hi.published_enter me] at h
  refine ⟨_, by rw [hi.acquireIn_eq, if_pos h], (hi.unmoved_enter me).trans ?_⟩
  exact ⟨fun id => by rw [hstore], fun id => by rw [hstore]⟩

/-- While none is, the global version is published. -/
theorem acquireIn_free (hi : e.Inv) (h : (e.store me).published = none)
    (hv : e.version < idleVersion) :
    ∃ e', e.acquireIn me me = .ok (.ok ⟨me, (e.store me).sequence⟩, e') ∧
      (∀ id, (e'.store id).published =
        if id = me then some e.version else (e.store id).published) ∧
      ∀ id, (e'.store id).sequence = (e.store id).sequence := by
  obtain ⟨e', heq, hp⟩ := hi.publishIn h e.version
  rw [← acquireIn_eq_publishIn] at heq
  have hpublished := hp.published
  rw [if_neg hv.ne] at hpublished
  exact ⟨e', heq, hpublished, hp.sequence⟩

theorem turnsDown (hi : e.Inv) (h : (e.store id).published.isSome = true) :
    ∃ e', e.TurnsDown id e' := by
  obtain ⟨e', heq, hunmoved⟩ := hi.acquireIn_busy h
  refine ⟨e', heq, ?_, hunmoved⟩
  simp only [Epoch.pin, heq]
  rfl

theorem grants (hi : e.Inv) (h : (e.store id).published = none) (hv : e.version < idleVersion) :
    ∃ e', e.Grants id e' := by
  obtain ⟨e', heq, hp, hq⟩ := hi.acquireIn_free h hv
  refine ⟨e', heq, ?_, hp, hq⟩
  simp only [Epoch.pin, heq]
  rfl

/-! ### Handing out -/

theorem renumbers_acquireIn (hi : e.Inv) (hv : e.version < idleVersion)
    {answer : Except Status Handle} (h : e.acquireIn me me = .ok (answer, e')) :
    e.Renumbers answer.toOption.toList e' ∧
      ∀ id, (e'.store id).sequence = (e.store id).sequence := by
  cases hp : (e.store me).published with
  | some v =>
    have hout : (e.store me).published.isSome = true := by rw [hp]; rfl
    obtain ⟨e₁, h₁, hunmoved⟩ := hi.acquireIn_busy hout
    cases h₁.symm.trans h
    exact ⟨hunmoved.renumbers, hunmoved.sequence⟩
  | none =>
    obtain ⟨e₁, h₁, hpublished, hq⟩ := hi.acquireIn_free hp hv
    cases h₁.symm.trans h
    refine ⟨.hand hp (fun id => ?_) (fun id hid => ?_) hq, hq⟩
    · rw [hpublished]
      split <;> rfl
    · rw [hpublished, if_neg hid]

theorem renumbers_acquire (hi : e.Inv) (hv : e.version < idleVersion) {who : Identity}
    {answer : Except Status Handle} (h : e.acquire who = .ok (answer, e')) :
    e.Renumbers answer.toOption.toList e' := by
  cases who with
  | live id => exact (hi.renumbers_acquireIn hv h).1
  | exiting =>
    cases h
    exact (Unmoved.of_stores rfl).renumbers

theorem renumbers_pin (hi : e.Inv) (hv : e.version < idleVersion) {who : Identity} {answer : Pin}
    (h : e.pin who = .ok (answer, e')) : e.Renumbers answer.handle?.toList e' ∧
      ∀ id, (e'.store id).sequence = (e.store id).sequence := by
  obtain ⟨rfl, hnone⟩ | ⟨l, l', e₁, acquired, h₁, rfl, hanswer⟩ := pin_eq_ok h
  · rw [hnone]
    exact ⟨(Unmoved.of_stores rfl).renumbers, fun _ => rfl⟩
  · have hi₁ : ({ e with exitLock := l } : Epoch ι).Inv := hi.congr rfl rfl (Nat.le_refl _)
    obtain ⟨hrenumbers, hq⟩ := hi₁.renumbers_acquireIn hv h₁
    rw [hanswer]
    exact ⟨hrenumbers, hq⟩

/-! ### Taking back -/

theorem takesBack_release (hi : e.Inv) (me : Nat) (h : Handle) (now : Int64) :
    e.TakesBack me h (e.release me h now).2 := by
  by_cases ht : me = h.tid
  · obtain ⟨tid, sequence⟩ := h
    obtain rfl : me = tid := ht
    obtain ⟨e₁, added, freed, answer, e', h₁, hgive, hrelease, hr⟩ := hi.release_own me sequence now
    have hsame : (⟨me, sequence⟩ : Handle) = ⟨me, (e.store me).sequence⟩ ↔
        (e.store me).sequence = sequence := by
      rw [Handle.mk.injEq, eq_comm (a := sequence)]
      exact and_iff_right rfl
    rw [hrelease]
    refine ⟨fun id => ?_, fun id => ?_⟩
    · simp only [(hr.calm.still id).published, hgive.published, hi.sequence_enter, hsame]
    · simp only [(hr.calm.still id).sequence, hi.sequence_giveUp h₁, hsame]
  · have hne : h ≠ ⟨me, (e.store me).sequence⟩ := fun heq => ht (heq ▸ rfl)
    rw [release_of_ne hi ht]
    refine ⟨fun id => ?_, fun id => ?_⟩
    · rw [if_neg fun hc => hne hc.2]
      exact hi.published_enter ..
    · rw [if_neg fun hc => hne hc.2]
      exact hi.sequence_enter ..

theorem takesBack_unpin (hi : e.Inv) (me : Nat) (g : Guard) (now : Int64) :
    e.TakesBack me g.handle (e.unpin me g now).2 := by
  obtain ⟨l, hunpin⟩ := exists_exitLock_unpin e me g now
  obtain ⟨hpublished, hsequence⟩ := hi.takesBack_release me g.handle now
  rw [hunpin]
  exact ⟨hpublished, hsequence⟩

end Inv

end Epoch

/-! ## Moves -/

namespace HazardScenario

variable {s : State ι} {t : Nat}

/-- The handle that a move hands out. -/
def Move.issued? (s : State ι) : Move ι → Option Handle
  | .act t (.acquire _) =>
    match s.epoch.acquire (s.identify t).1 with
    | .ok (answer, _) => answer.toOption
    | .error _ => none
  | .act t .pin =>
    match s.epoch.pin (s.identify t).1 with
    | .ok (answer, _) => answer.handle?
    | .error _ => none
  | _ => none

namespace State

/-- The handles that are handed out in a run, the earliest first. -/
def issued (s : State ι) : List (Move ι) → List Handle
  | [] => []
  | m :: moves => (m.issued? s).toList ++ (s.move m).issued moves

/-- How often the store of an id counts on in a run. -/
def spent (s : State ι) (id : Nat) : List (Move ι) → Nat
  | [] => 0
  | m :: moves =>
    (((s.move m).epoch.store id).sequence - (s.epoch.store id).sequence).toNat +
      (s.move m).spent id moves

end State

/-- An action that gives a guard up hands out at most the handle that it takes before. -/
theorem returning_renumbers (hi : s.epoch.Inv) (hv : s.epoch.version < idleVersion)
    {action : Action ι} {e : Epoch ι} {g : Guard} (h : s.returning? t action = some (e, g)) :
    s.epoch.Renumbers ((Move.act t action).issued? s).toList e ∧
      ∀ id, (e.store id).sequence = (s.epoch.store id).sequence := by
  have hsame : s.epoch.Renumbers [] s.epoch := (Epoch.Unmoved.of_stores rfl).renumbers
  cases action with
  | release ref =>
    obtain ⟨handle, -, heq⟩ := Option.map_eq_some_iff.1 h
    cases heq
    exact ⟨hsame, fun _ => rfl⟩
  | unpin =>
    obtain ⟨g', -, heq⟩ := Option.map_eq_some_iff.1 h
    cases heq
    exact ⟨hsame, fun _ => rfl⟩
  | pin =>
    simp only [State.returning?] at h
    split at h
    · next g' epoch hpin =>
      obtain ⟨stale, -, heq⟩ := Option.map_eq_some_iff.1 h
      cases heq
      simp only [Move.issued?, hpin]
      exact hi.renumbers_pin hv hpin
    · cases h
  | acquire | add | addNull | retire | wall => cases h

theorem act_renumbers (hi : s.epoch.Inv) (hg : s.Guarded) (hv : s.epoch.version < idleVersion) (t : Nat)
    (action : Action ι) :
    s.epoch.Renumbers ((Move.act t action).issued? s).toList (act s t action).2.epoch := by
  have hsame : s.epoch.Renumbers [] s.epoch := (Epoch.Unmoved.of_stores rfl).renumbers
  cases h : s.returning? t action with
  | some returned =>
    obtain ⟨e, g⟩ := returned
    obtain ⟨hfirst, hq⟩ := returning_renumbers hi hv h
    have hboth := hfirst.after hq
      ((returning_spec hi hg h).1.takesBack_unpin (s.identify t).1.id g s.wall).renumbers
    rw [List.append_nil] at hboth
    rw [(act_returns action h).epoch]
    exact hboth
  | none =>
    have hdoes := act_does hi action h
    generalize (act s t action).2.epoch = e at hdoes ⊢
    cases hdoes with
    | acquire name hacquire =>
      simp only [Move.issued?, hacquire]
      exact hi.renumbers_acquire hv hacquire
    | pin hpin =>
      simp only [Move.issued?, hpin]
      exact (hi.renumbers_pin hv hpin).1
    | spin hpin =>
      simp only [Move.issued?, hpin]
      exact hsame
    | add node hadd =>
      obtain ⟨e', hadd', hq⟩ := hi.add (s.identify t).1.id node
      cases hadd'.symm.trans hadd
      exact ((hi.unmoved_enter _).trans (Epoch.unmoved_of_still hq.stills)).renumbers
    | retire hretire =>
      obtain ⟨ids, freed, added, e', hretire', hr, -⟩ := hi.retire (s.identify t).1.id s.wall
      cases hretire'.symm.trans hretire
      exact ((hi.unmoved_enter _).trans (Epoch.unmoved_of_still hr.still)).renumbers
    | release | unpin | addNull | wall => exact hsame

theorem move_renumbers (hi : s.epoch.Inv) (hg : s.Guarded) (hv : s.epoch.version < idleVersion)
    (m : Move ι) : s.epoch.Renumbers (m.issued? s).toList (s.move m).epoch := by
  cases m with
  | act t action => exact act_renumbers hi hg hv t action
  | leave t => exact (Epoch.Unmoved.of_stores rfl).renumbers
  | finish t => exact (Epoch.Unmoved.of_stores rfl).renumbers

/-! ## Runs -/

theorem version_le_after (hi : s.epoch.Inv) (hg : s.Guarded) (moves : List (Move ι)) :
    s.epoch.version ≤ (s.after moves).epoch.version := by
  induction moves generalizing s with
  | nil => exact Nat.le_refl _
  | cons m moves ih =>
    obtain ⟨added, freed, ht⟩ := move_turns hi hg m
    exact ht.turnover.version_le.trans (ih (move_inv hi m) ht.guarded)

theorem after_numbered (hi : s.epoch.Inv) (hg : s.Guarded) {moves : List (Move ι)}
    (hv : (s.after moves).epoch.version < idleVersion) {id : Nat} {before : List Handle} {n : Nat}
    (h : (s.epoch.store id).Numbered id before n) :
    ((s.after moves).epoch.store id).Numbered id
      (before ++ (s.issued moves).filter (·.tid = id)) (n + s.spent id moves) := by
  induction moves generalizing s before n with
  | nil =>
    rw [State.issued, State.spent, List.filter_nil, List.append_nil]
    exact h
  | cons m moves ih =>
    have hi' := move_inv hi m
    have hg' : (s.move m).Guarded := after_guarded hi hg [m]
    have hm := move_renumbers hi hg ((version_le_after hi hg (m :: moves)).trans_lt hv) m id before n h
    rw [State.issued, State.spent, List.filter_append, ← List.append_assoc, ← Nat.add_assoc]
    exact ih hi' hg' hv hm

/-- What becomes of the handles of a run. -/
structure KeepsHandles (s : State ι) (issued : List Handle) (spent : Nat → Nat) : Prop where
  /-- A thread that asks for a version is turned down exactly while its store has one published, -/
  busy : ∀ id, (s.epoch.store id).published.isSome = true ↔ ∃ e', s.epoch.TurnsDown id e'
  /-- and else publishes the global version. -/
  free : ∀ id, (s.epoch.store id).published = none ↔ ∃ e', s.epoch.Grants id e'
  /-- What is published was acquired with the handle that was handed out last. -/
  outstanding : ∀ id, (s.epoch.store id).published.isSome = true →
    ∃ older, issued.filter (·.tid = id) = older ++ [⟨id, (s.epoch.store id).sequence⟩]
  /-- Of all words that carry the id, the owner ends its acquisition with the word of that handle, and
  with no other one changes what is published, or any count. No assertion is broken, but after that a limit
  may not fit its word. -/
  release : ∀ id, (s.epoch.store id).published.isSome = true → ∀ w now, (Handle.ofWord w).tid = id →
    ∃ answer e', s.epoch.release id (.ofWord w) now = (answer, e') ∧
      (∀ why, answer = .error why → why = .overflow) ∧
      ((e'.store id).published = none ↔ w = Handle.toWord ⟨id, (s.epoch.store id).sequence⟩) ∧
      (w ≠ Handle.toWord ⟨id, (s.epoch.store id).sequence⟩ → s.epoch.Unmoved e')
  /-- Whoever gives back a handle or a guard, whichever it is, publishes nothing. -/
  publishes : ∀ me g now id v,
    ((s.epoch.release me g.handle now).2.store id).published = some v ∨
      ((s.epoch.unpin me g now).2.store id).published = some v →
    (s.epoch.store id).published = some v
  /-- All handles of a store differ until its count comes round, -/
  distinct : ∀ id, spent id < UInt32.size →
    ((issued.filter (·.tid = id)).map Handle.toWord).Nodup
  /-- so that giving back an earlier one does not end the acquisition that is under way. -/
  stale : ∀ id, spent id < UInt32.size → (s.epoch.store id).published.isSome = true →
    ∀ older last, issued.filter (·.tid = id) = older ++ [last] →
      ∀ h ∈ older, ∀ me now, s.epoch.Unmoved (s.epoch.release me h now).2

/-- What is published, and what the count is, settles what becomes of the handles. -/
theorem keepsHandles_of_numbered (hi : s.epoch.Inv) (hv : s.epoch.version < idleVersion)
    {issued : List Handle} {spent : Nat → Nat}
    (h : ∀ id, (s.epoch.store id).Numbered id (issued.filter (·.tid = id)) (spent id)) :
    KeepsHandles s issued spent where
  busy id := by
    refine ⟨hi.turnsDown, fun ⟨e', hdown⟩ => ?_⟩
    by_contra hfree
    obtain ⟨e'', hgrants⟩ := hi.grants (by simpa using hfree) hv
    cases hdown.acquire.symm.trans hgrants.acquire
  free id := by
    refine ⟨fun hfree => hi.grants hfree hv, fun ⟨e', hgrants⟩ => ?_⟩
    by_contra hbusy
    obtain ⟨e'', hdown⟩ := hi.turnsDown (Option.isSome_iff_ne_none.2 hbusy)
    cases hdown.acquire.symm.trans hgrants.acquire
  outstanding id hp := (h id).last hp
  release id hp w now ht := by
    obtain ⟨e₁, added, freed, answer, e', -, -, hrelease, hr⟩ :=
      hi.release_own id (Handle.ofWord w).sequence now
    have hword : (⟨id, (Handle.ofWord w).sequence⟩ : Handle) = .ofWord w := ht ▸ rfl
    rw [hword] at hrelease
    have hback := hi.takesBack_release id (.ofWord w) now
    rw [hrelease] at hback
    have hsame : Handle.ofWord w = ⟨id, (s.epoch.store id).sequence⟩ ↔ _ := Handle.ofWord_eq_iff ht
    refine ⟨answer, e', hrelease, fun why => hr.why, ?_,
      fun hne => hback.unmoved fun heq => hne (hsame.1 heq)⟩
    rw [hback.published, ← hsame]
    by_cases heq : Handle.ofWord w = ⟨id, (s.epoch.store id).sequence⟩
    · simp [heq]
    · simpa [heq] using Option.isSome_iff_ne_none.1 hp
  publishes me g now id v hv := hv.elim (hi.takesBack_release me g.handle now).published_of_eq
    (hi.takesBack_unpin me g now).published_of_eq
  distinct id hspent := by
    refine List.Nodup.map_on (fun k hk l hl heq => ?_) ((h id).handed.nodup hspent)
    have htid : ∀ {k}, k ∈ issued.filter (·.tid = id) → k.tid = id := fun hk => by
      simpa using (List.mem_filter.1 hk).2
    exact Handle.eq_of_toWord ((htid hk).trans (htid hl).symm) heq
  stale id hspent hp older last hlist k hk me now := by
    obtain ⟨older', hlast⟩ := (h id).last hp
    obtain ⟨rfl, hend⟩ := List.append_inj' (hlist.symm.trans hlast) rfl
    have hnodup := (h id).handed.nodup hspent
    rw [hlast] at hnodup
    have htid : k.tid = id := by
      have hmem : k ∈ issued.filter (·.tid = id) := hlast ▸ List.mem_append_left _ hk
      simpa using (List.mem_filter.1 hmem).2
    refine (hi.takesBack_release me k now).unmoved ?_
    rintro rfl
    obtain rfl : me = id := htid
    exact (List.nodup_append.1 hnodup).2.2 _ hk _ (List.mem_singleton_self _) rfl

/-- Whatever threads do with a new epoch, one operation after the other, or any number of them at once: a
thread is turned down exactly while its store has a version, nothing but the handle that is out takes it
back, and no handle is handed out twice until the count comes round. -/
theorem handle_life_cycle (threshold cacheTime : Int64) :
    (∀ moves : List (Move ι), let s : State ι := .new threshold cacheTime
      (s.after moves).epoch.version < idleVersion →
        KeepsHandles (s.after moves) (s.issued moves) (s.spent · moves)) ∧
    ∀ (wall : Int64) (events : List (Crowd.Event ι)),
      ({ shared := { epoch := { threshold, cacheTime }, wall } } : Crowd ι).KeepsHandles events := by
  refine ⟨fun moves hv => ?_, fun wall events => Crowd.keepsHandles threshold cacheTime wall events⟩
  have hi : (State.new threshold cacheTime : State ι).epoch.Inv := .new ..
  refine keepsHandles_of_numbered (after_inv hi moves) hv fun id => ?_
  have hblank : (State.new threshold cacheTime : State ι).epoch.store id = {} :=
    SegmentTable.get_new id
  have hnew : ((State.new threshold cacheTime : State ι).epoch.store id).Numbered id [] 0 := by
    rw [hblank]
    exact ⟨rfl, .nil, fun hp => by cases hp⟩
  have hall := after_numbered hi (Nat.zero_le _) hv hnew
  rw [List.nil_append, Nat.zero_add] at hall
  exact hall

/-- Thread 3 gives its handle back and acquires another one. -/
def renewal : List (Move Nat) :=
  [.act 3 (.acquire "first"), .act 3 (.release (.named "first")), .act 3 (.acquire "second")]

/-- To give the first handle back once more changes nothing. -/
theorem renewal_outlasts_release :
    let s : State Nat := (State.new 0 0).after renewal
    s.epoch.version < idleVersion ∧
      KeepsHandles s ((State.new 0 0).issued renewal) ((State.new 0 0).spent · renewal) ∧
      (s.epoch.store 1).published = some 0 ∧ (State.new 0 0).issued renewal = [⟨1, 0⟩, ⟨1, 1⟩] ∧
      s.epoch.Unmoved (s.epoch.release 1 ⟨1, 0⟩ 0).2 := by
  have hv : ((State.new 0 0).after renewal).epoch.version < idleVersion := by decide
  have hkeeps := (handle_life_cycle 0 0).1 renewal hv
  have hpublished : (((State.new 0 0).after renewal).epoch.store 1).published = some 0 := by decide
  have hissued : (State.new 0 0).issued renewal = [⟨1, 0⟩, ⟨1, 1⟩] := by decide
  have hspent : (State.new 0 0).spent 1 renewal < UInt32.size := by decide
  have hlast : ((State.new 0 0).issued renewal).filter (·.tid = 1) = [⟨1, 0⟩] ++ [⟨1, 1⟩] := by
    rw [hissued]
    rfl
  have hout : (((State.new 0 0).after renewal).epoch.store 1).published.isSome = true := by
    rw [hpublished]
    rfl
  have hstale := hkeeps.stale 1 hspent hout _ _ hlast ⟨1, 0⟩ (List.mem_singleton_self _) 1 0
  exact ⟨hv, hkeeps, hpublished, hissued, hstale⟩

end HazardScenario

end BackoffStack
