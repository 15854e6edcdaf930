/-
Which handles a store turns down.

Its owner may give back any word to a store. One that names the owner's id is turned down unless it is the
handle that was handed out last. One that names another id is not looked at any further: it takes back
whatever is published, and the store counts on. It is for the callers to choose the store that a handle names.
The epoch does so, and so nothing but the handle of an acquisition ends it (`Store.rejects_iff_own`).
-/
import BackoffStack.Proofs.Hazard.Handles

namespace BackoffStack

variable {ι : Type}

namespace Store

/-- What its owner asks of a store. -/
inductive Call where
  | acquire (version : Nat)
  | release (word : UInt64)

/-- A store, and the handle that it has handed out last. -/
structure Used (ι : Type) where
  store : Store ι
  last? : Option Handle := none

/-- One call of the thread with the id `id`. -/
def Used.perform (id : Nat) (u : Used ι) : Call → Used ι
  | .acquire version =>
    match u.store.acquire id version with
    | .ok (.ok h, store) => ⟨store, some h⟩
    | .ok (.error _, store) => { u with store }
    | .error _ => u
  | .release word =>
    match u.store.release id (.ofWord word) with
    | .ok store => { u with store }
    | .error _ => u

/-- A store that was enabled for the thread with the id `id`, after a run of that thread's calls. -/
def used (id : Nat) (calls : List Call) : Used ι :=
  calls.foldl (Used.perform id) { store := ({} : Store ι).enable id }

/-- What a store that turns handles down should do with a word: if that is not the handle of the acquisition
under way, nothing changes. -/
def Rejects (s : Store ι) (id : Nat) (word : UInt64) : Prop :=
  ∃ s', s.release id (.ofWord word) = .ok s' ∧ (Handle.ofWord word ≠ ⟨id, s.sequence⟩ →
    s'.published = s.published ∧ s'.sequence = s.sequence)

/-- What becomes of a store when a word is given back to it. -/
structure TakesBack (s : Store ι) (id : Nat) (word : UInt64) (s' : Store ι) : Prop where
  /-- The handle that is out ends the acquisition. -/
  current : Handle.ofWord word = ⟨id, s.sequence⟩ → s' = s.unpublish
  /-- No other handle of this store does. -/
  stale : (Handle.ofWord word).tid = id → Handle.ofWord word ≠ ⟨id, s.sequence⟩ → s' = s
  /-- A handle of another store does. -/
  foreign : (Handle.ofWord word).tid ≠ id → s' = s.unpublish

/-- The handle that is out was handed out last. -/
structure Used.Inv (u : Used ι) (id : Nat) : Prop where
  owner : u.store.owner = id
  last : u.store.published.isSome = true → u.last? = some ⟨id, u.store.sequence⟩

variable {s : Store ι} {u : Used ι} {id : Nat} {word : UInt64}

/-! ## One call -/

theorem acquire_eq (howner : s.owner = id) (version : Nat) : s.acquire id version =
    .ok (if s.published.isSome = true then (.error .busy, s)
      else (.ok ⟨id, s.sequence⟩, s.publish version)) := by
  unfold acquire assertOwner
  rw [if_pos howner.symm]
  cases s.published.isSome with
  | true => rfl
  | false =>
    rw [← howner]
    rfl

theorem release_eq (howner : s.owner = id) (h : Handle) :
    s.release id h = .ok (if h.tid = id ∧ h.sequence ≠ s.sequence then s else s.unpublish) := by
  have haccepts : s.accepts h = true ↔ ¬ (h.tid = id ∧ h.sequence ≠ s.sequence) := by
    simp [accepts, howner, eq_comm (a := id), eq_comm (a := s.sequence), imp_iff_not_or]
  unfold release assertOwner
  rw [if_pos howner.symm]
  by_cases hrefused : h.tid = id ∧ h.sequence ≠ s.sequence
  · rw [if_pos hrefused, if_neg fun haccepted => haccepts.1 haccepted hrefused]
    rfl
  · rw [if_neg hrefused, if_pos (haccepts.2 hrefused)]
    rfl

theorem takesBack (howner : s.owner = id) (word : UInt64) :
    ∃ s', s.release id (.ofWord word) = .ok s' ∧ s.TakesBack id word s' := by
  refine ⟨_, release_eq howner _, fun hcurrent => ?_, fun htid hstale => ?_, fun htid => ?_⟩
  · exact if_neg fun h => h.2 (by rw [hcurrent])
  · refine if_pos ⟨htid, fun hsequence => hstale ?_⟩
    rw [← htid, ← hsequence]
  · exact if_neg fun h => htid h.1

theorem sequence_unpublish_ne (s : Store ι) : s.unpublish.sequence ≠ s.sequence := by
  unfold unpublish
  grind

theorem rejects_iff (howner : s.owner = id) : s.Rejects id word ↔ (Handle.ofWord word).tid = id := by
  obtain ⟨s', hrelease, htakes⟩ := takesBack howner word
  constructor
  · rintro ⟨s₁, h₁, hsame⟩
    cases h₁.symm.trans hrelease
    by_contra htid
    have hne : Handle.ofWord word ≠ ⟨id, s.sequence⟩ := fun h => htid (h ▸ rfl)
    have hcounts := (hsame hne).2
    rw [htakes.foreign htid] at hcounts
    exact sequence_unpublish_ne s hcounts
  · intro htid
    refine ⟨s', hrelease, fun hne => ?_⟩
    rw [htakes.stale htid hne]
    exact ⟨rfl, rfl⟩

/-! ## Runs -/

namespace Used

theorem Inv.perform (h : u.Inv id) (c : Call) : (u.perform id c).Inv id := by
  obtain ⟨howner, hlast⟩ := h
  cases c with
  | acquire version =>
    simp only [Used.perform, acquire_eq howner]
    by_cases hbusy : u.store.published.isSome = true
    · rw [if_pos hbusy]
      exact ⟨howner, hlast⟩
    · rw [if_neg hbusy]
      exact ⟨howner, fun _ => rfl⟩
  | release word =>
    simp only [Used.perform, release_eq howner]
    split
    · exact ⟨howner, hlast⟩
    · exact ⟨howner, fun hsome => by cases hsome⟩

theorem Inv.foldl (h : u.Inv id) (calls : List Call) : (calls.foldl (Used.perform id) u).Inv id := by
  induction calls generalizing u with
  | nil => exact h
  | cons c calls ih => exact ih (h.perform c)

end Used

theorem used_inv (id : Nat) (calls : List Call) : (used id calls : Used ι).Inv id := by
  have hnew : ({ store := ({} : Store ι).enable id } : Used ι).Inv id := ⟨rfl, fun hsome => by cases hsome⟩
  exact hnew.foldl calls

/-- The store that an epoch looks up for a handle belongs to the id that the handle names. -/
theorem owner_enter {e : Epoch ι} (hi : e.Inv) (h : Handle) :
    ((e.enter h.tid).store h.tid).owner = h.tid :=
  ((hi.enter h.tid).owned h.tid ((hi.enabled_enter h.tid h.tid).2 (.inl rfl))).1

/-- After any calls of its owner, a store turns down each word that is not the handle of the acquisition under
way, if that word names the store; a word that names another one ends the acquisition. The handle that is out
is the one that was handed out last. In an epoch words are given back to the store that they name, and so
whatever word anybody gives back after any moves, nothing ends but the acquisition that it was handed out
for. -/
theorem rejects_iff_own (id : UInt32) (calls : List Call) (word : UInt64) :
    (let u : Used ι := used id.toNat calls
    (u.store.Rejects id.toNat word ↔ (Handle.ofWord word).tid = id.toNat) ∧
    (∃ s', u.store.release id.toNat (.ofWord word) = .ok s' ∧ u.store.TakesBack id.toNat word s') ∧
    (u.store.published.isSome = true → ∃ h, u.last? = some h ∧
      (Handle.ofWord word = ⟨id.toNat, u.store.sequence⟩ ↔ word = h.toWord))) ∧
    ∀ (threshold cacheTime : Int64) (moves : List (HazardScenario.Move ι)) (me : Nat) (now : Int64),
      let e := ((HazardScenario.State.new threshold cacheTime).after moves).epoch
      let h := Handle.ofWord word
      ((e.enter h.tid).store h.tid).owner = h.tid ∧ e.TakesBack me h (e.release me h now).2 := by
  obtain ⟨howner, hlast⟩ := used_inv (ι := ι) id.toNat calls
  refine ⟨⟨rejects_iff howner, takesBack howner word, fun hsome => ⟨_, hlast hsome, ?_⟩⟩, ?_⟩
  · have hroom : id.toNat < handleHalf := id.toNat_lt
    constructor
    · intro h
      rw [← h, Handle.toWord_ofWord]
    · rintro rfl
      exact Handle.ofWord_toWord _ hroom
  · intro threshold cacheTime moves me now
    have hi := HazardScenario.after_inv (ι := ι) (s := .new threshold cacheTime) (.new ..) moves
    exact ⟨owner_enter hi _, hi.takesBack_release me _ now⟩

/-- The owner of a store has acquired 5, and gives back a word that names the store of thread 2. -/
theorem not_always_rejects : ¬ ∀ (id : UInt32) (calls : List Call) (word : UInt64),
    (used id.toNat calls : Used Unit).store.Rejects id.toNat word := by
  intro hall
  obtain ⟨s', hrelease, hsame⟩ := hall 1 [.acquire 5] 2
  cases hrelease
  exact absurd (hsame (by decide)).1 (by decide)

end Store

end BackoffStack
