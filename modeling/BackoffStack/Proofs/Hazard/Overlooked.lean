/-
Which nodes a drain overlooks.

A store that is drained up to the version that it was drained up to last is left alone. That is right as long
as nothing has come into its list since, and when its owner queues a node the store forgets what it was
drained up to. It does not forget it when nodes come in that were too new for another store, nor is it told
apart whether a store was drained up to version zero or not at all. So a drain frees all that it should just if
the store was not drained up to that version last, or else nothing that is due waits there
(`Shelf.retire_clears_iff`).
-/
import BackoffStack.Proofs.Hazard.Draining

namespace BackoffStack

variable {ι : Type}

namespace Shelf

/-- What is asked of the stores of a shelf. Drop functions hand nothing over. -/
inductive Call (ι : Type) where
  | enable (key id : Nat)
  | add (key caller version : Nat) (label : ι)
  | retire (key caller version receiver : Nat)
  deriving DecidableEq

/-- Whether a call is about the list of a store: it queues a node there, or drains it. -/
def Call.about (key : Nat) : Call ι → Bool
  | enable .. => false
  | add k .. => k == key
  | retire k .. => k == key

/-- The version that a call drains up to. -/
def Call.upTo? : Call ι → Option Nat
  | retire _ _ version _ => some version
  | _ => none

/-- One call, if the store that takes nodes in belongs to its caller. -/
def perform (s : Shelf ι) : Call ι → Except Violation (Shelf ι)
  | .enable key id => .ok (s.put key ((s.get key).enable id))
  | .add key caller version label => s.add key caller version (.leaf label)
  | .retire key caller version receiver => (·.2) <$> s.retire key caller version receiver

/-- What becomes of a shelf on which nothing has been put. -/
def run (calls : List (Call ι)) : Except Violation (Shelf ι) := calls.foldlM perform {}

/-- The version that a store was drained up to, if the last call about its own list was a drain. -/
def drainedAt? (key : Nat) (calls : List (Call ι)) : Option Nat :=
  (calls.reverse.find? (·.about key)).bind Call.upTo?

/-- A drain has freed all nodes that are due, and none of them is left. -/
structure Clears (s : Shelf ι) (key version : Nat) (freed : List (Waiting ι)) (s' : Shelf ι) : Prop where
  freed : freed = ((s.get key).waiting.filter (·.version ≤ version)).reverse
  left : ∀ w ∈ (s'.get key).waiting, version < w.version

/-- The node has come into the list of a store when another one was drained, for which it was too new. Since
then the store's own list has only been drained up to `version`. -/
inductive Arrived (key version : Nat) (w : Waiting ι) : List (Call ι) → Prop
  | moves {calls s other caller bound} (h : run calls = .ok s) (hw : w ∈ (s.get other).waiting)
      (hother : other ≠ key) (hbound : bound < w.version) (hdrains : (s.get other).lastRetired ≠ bound) :
      Arrived key version w (calls ++ [.retire other caller bound key])
  | stays {calls c} (h : Arrived key version w calls) (hc : c.about key = true → c.upTo? = some version) :
      Arrived key version w (calls ++ [c])

/-- What one call can do. -/
inductive Does (s : Shelf ι) : Call ι → Shelf ι → Prop
  | enables {key id s'} (h : ∀ k, s'.get k = if k = key then (s.get k).enable id else s.get k) :
      Does s (.enable key id) s'
  | queues {key caller version label s'} (h : ∀ k, s'.get k =
      if k = key then { (s.get k).receive [⟨version, .leaf label⟩] with lastRetired := 0 } else s.get k) :
      Does s (.add key caller version label) s'
  | skips {key caller version receiver s'} (hv : (s.get key).lastRetired = version)
      (h : ∀ k, s'.get k = s.get k) : Does s (.retire key caller version receiver) s'
  | drains {key caller version receiver s'} (hv : (s.get key).lastRetired ≠ version)
      (h : ∀ k, s.Hands key version receiver k (s'.get k)) : Does s (.retire key caller version receiver) s'

variable {s s' : Shelf ι} {calls : List (Call ι)} {c : Call ι} {key caller version receiver : Nat}
  {w : Waiting ι}

/-! ## One call -/

theorem drainedAt?_concat (key : Nat) (calls : List (Call ι)) (c : Call ι) :
    drainedAt? key (calls ++ [c]) = if c.about key then c.upTo? else drainedAt? key calls := by
  cases h : c.about key <;> simp [drainedAt?, h]

/-- Whoever remembers a version above zero has been drained up to it. -/
theorem drainedAt?_eq_some (h : (drainedAt? key calls).getD 0 = version) (hv : 0 < version) :
    drainedAt? key calls = some version :=
  (Option.getD_eq_iff.1 h).resolve_right fun hnone => hv.ne hnone.2

theorem get_put_self (s : Shelf ι) (key : Nat) (f : Store ι → Store ι) (k : Nat) :
    (s.put key (f (s.get key))).get k = if k = key then f (s.get k) else s.get k := by
  rw [get_put]
  split
  · next hk => rw [hk]
  · rfl

/-- A drain that is not skipped leaves nothing that was due. -/
theorem Hands.newer {store : Store ι} (h : s.Hands key version receiver key store)
    (hw : w ∈ store.waiting) : version < w.version := by
  rw [h.waiting, if_pos rfl, List.append_nil] at hw
  split at hw
  · simpa using (List.mem_filter.1 hw).2
  · cases hw

/-- A drain that is skipped changes nothing. -/
theorem retire_eq_of_cached (howner : (s.get receiver).owner = caller)
    (hv : (s.get key).lastRetired = version) :
    ∃ s', s.retire key caller version receiver = .ok ([], s') ∧ ∀ k, s'.get k = s.get k := by
  have hdrain : (s.get key).drain version = { store := s.get key } := if_pos hv
  have hnone : ∀ store : Store ι, store.receive [] = store := fun store => by simp [Store.receive]
  have hretire : s.retire key caller version receiver = .ok ([],
      (s.put key (s.get key)).put receiver ((s.put key (s.get key)).get receiver)) := by
    simp [Shelf.retire, Store.assertOwner, howner, hdrain, hnone]
  have hsame : ∀ (s : Shelf ι) key k, (s.put key (s.get key)).get k = s.get k := fun s key k =>
    (get_put_self s key id k).trans (ite_self _)
  exact ⟨_, hretire, fun k => (hsame ..).trans (hsame ..)⟩

theorem owner_of_retire {answer : List (Waiting ι) × Shelf ι}
    (h : s.retire key caller version receiver = .ok answer) : (s.get receiver).owner = caller := by
  by_contra hne
  simp [Shelf.retire, Store.assertOwner, Ne.symm hne] at h

theorem does (h : s.perform c = .ok s') : s.Does c s' := by
  cases c with
  | enable key id =>
    cases h
    exact .enables (get_put_self s key (·.enable id))
  | add key caller version label =>
    have howner : (s.get key).owner = caller := by
      by_contra hne
      simp [perform, Shelf.add, Store.add, Store.assertOwner, Ne.symm hne] at h
    have hput : s.put key { (s.get key).receive [⟨version, .leaf label⟩] with lastRetired := 0 } = s' := by
      simpa [perform, Shelf.add, Store.add, Store.assertOwner, howner] using h
    exact .queues fun k => hput ▸ get_put_self s key
      (fun store => { store.receive [⟨version, .leaf label⟩] with lastRetired := 0 }) k
  | retire key caller version receiver =>
    simp only [perform] at h
    cases hretire : s.retire key caller version receiver with
    | error why => simp [hretire] at h
    | ok answer =>
      obtain rfl : answer.2 = s' := by simpa [hretire] using h
      have howner := owner_of_retire hretire
      by_cases hv : (s.get key).lastRetired = version
      · obtain ⟨s₁, hs₁, hsame⟩ := retire_eq_of_cached howner hv
        cases hs₁.symm.trans hretire
        exact .skips hv hsame
      · obtain ⟨s₁, hs₁, hands⟩ := retire_eq howner hv
        cases hs₁.symm.trans hretire
        exact .drains hv hands

/-! ## Runs -/

theorem exists_of_run_concat (h : run (calls ++ [c]) = .ok s') :
    ∃ s, run calls = .ok s ∧ s.perform c = .ok s' := by
  unfold run at h ⊢
  rw [List.foldlM_append] at h
  simp only [List.foldlM_cons, List.foldlM_nil, bind_pure] at h
  cases hr : calls.foldlM perform ({} : Shelf ι) with
  | error why =>
    rw [hr] at h
    cases h
  | ok s =>
    rw [hr] at h
    exact ⟨s, rfl, h⟩

theorem lastRetired_eq (h : run calls = .ok s) (key : Nat) :
    (s.get key).lastRetired = (drainedAt? key calls).getD 0 := by
  induction calls using List.reverseRecOn generalizing s with
  | nil =>
    cases h
    rfl
  | append_singleton calls c ih =>
    obtain ⟨s₀, hr, hc⟩ := exists_of_run_concat h
    have ih := ih hr
    rw [drainedAt?_concat]
    cases does hc with
    | @enables k id _ h =>
      rw [h key]
      simp only [Call.about, Bool.false_eq_true, if_false, ← ih]
      split <;> rfl
    | @queues k caller version label _ h =>
      rw [h key]
      by_cases hk : k = key
      · simp [Call.about, Call.upTo?, hk]
      · simpa [Call.about, hk, Ne.symm hk] using ih
    | @skips k caller version receiver _ hv h =>
      rw [h key]
      by_cases hk : k = key
      · simpa [Call.about, Call.upTo?, hk] using hk ▸ hv
      · simpa [Call.about, hk] using ih
    | @drains k caller version receiver _ hv h =>
      rw [(h key).lastRetired]
      by_cases hk : k = key
      · simp [Call.about, Call.upTo?, hk]
      · simpa [Call.about, hk, Ne.symm hk] using ih

/-- What is due after all, in a list that has been drained, has arrived from another store since. -/
theorem arrived_of_due (h : run calls = .ok s) (hv : 0 < version) (hdrained : drainedAt? key calls = some version)
    (hw : w ∈ (s.get key).waiting) (hdue : w.version ≤ version) : Arrived key version w calls := by
  induction calls using List.reverseRecOn generalizing s with
  | nil => cases hdrained
  | append_singleton calls c ih =>
    obtain ⟨s₀, hr, hc⟩ := exists_of_run_concat h
    have ih := ih hr
    rw [drainedAt?_concat] at hdrained
    cases does hc with
    | @enables k id _ h =>
      have hsame : (s.get key).waiting = (s₀.get key).waiting := by
        rw [h key]
        split <;> rfl
      exact .stays (ih hdrained (hsame ▸ hw)) (by simp [Call.about])
    | @queues k caller v label _ h =>
      by_cases hk : k = key
      · simp [Call.about, Call.upTo?, hk] at hdrained
      · rw [h key, if_neg (Ne.symm hk)] at hw
        exact .stays (ih (by simpa [Call.about, hk] using hdrained) hw) (by simp [Call.about, hk])
    | @skips k caller v receiver _ hlast h =>
      rw [h key] at hw
      by_cases hk : k = key
      · obtain rfl : v = version := by simpa [Call.about, Call.upTo?, hk] using hdrained
        rw [hk, lastRetired_eq hr] at hlast
        exact .stays (ih (drainedAt?_eq_some hlast hv) hw) fun _ => rfl
      · exact .stays (ih (by simpa [Call.about, hk] using hdrained) hw) (by simp [Call.about, hk])
    | @drains k caller v receiver _ hlast h =>
      by_cases hk : k = key
      · obtain rfl : v = version := by simpa [Call.about, Call.upTo?, hk] using hdrained
        subst hk
        exact absurd ((h k).newer hw) (Nat.not_lt.2 hdue)
      · rw [(h key).waiting, if_neg (Ne.symm hk)] at hw
        rcases List.mem_append.1 hw with hmoved | hold
        · split at hmoved
          · next hr' =>
            subst hr'
            obtain ⟨hthere, hbound⟩ := List.mem_filter.1 hmoved
            exact .moves hr hthere hk (by simpa using hbound) hlast
          · cases hmoved
        · exact .stays (ih (by simpa [Call.about, hk] using hdrained) hold) (by simp [Call.about, hk])

/-- After any run, whoever owns the receiver can drain any store. All that is due is freed, and nothing of it
is left, unless the store was drained up to the same version last: then nothing is freed. What is due there
nevertheless has been handed over by another store since; or the version is zero. -/
theorem retire_clears_iff (h : run calls = .ok s) (howner : (s.get receiver).owner = caller)
    (key version : Nat) :
    ∃ freed s', s.retire key caller version receiver = .ok (freed, s') ∧
      (s.Clears key version freed s' ↔ ((drainedAt? key calls).getD 0 = version →
        ∀ w ∈ (s.get key).waiting, version < w.version)) ∧
      ((drainedAt? key calls).getD 0 = version → freed = [] ∧ (∀ k, s'.get k = s.get k) ∧
        ∀ w ∈ (s.get key).waiting, w.version ≤ version → 0 < version → Arrived key version w calls) := by
  have hlast := lastRetired_eq h key
  by_cases hv : (s.get key).lastRetired = version
  · obtain ⟨s', hretire, hsame⟩ := retire_eq_of_cached howner hv
    rw [hlast] at hv
    refine ⟨_, s', hretire, ⟨fun hc _ => hsame key ▸ hc.left, fun hnone => ?_⟩, fun _ => ⟨rfl, hsame, ?_⟩⟩
    · have hdue : (s.get key).waiting.filter (·.version ≤ version) = [] :=
        List.filter_eq_nil_iff.2 fun w hw => by simpa using hnone hv w hw
      exact ⟨by rw [hdue]; rfl, hsame key ▸ hnone hv⟩
    · intro w hw hle hpos
      exact arrived_of_due h hpos (drainedAt?_eq_some hv hpos) hw hle
  · obtain ⟨s', hretire, hands⟩ := retire_eq howner hv
    rw [hlast] at hv
    exact ⟨_, s', hretire, ⟨fun _ hc => absurd hc hv, fun _ => ⟨rfl, fun w => (hands key).newer⟩⟩,
      fun hc => absurd hc hv⟩

/-- The first thread has drained its store up to 10. Then it drains the second thread's up to 3, and takes in a
node that is newer than that. -/
def handover : List (Call Nat) :=
  [.enable 0 1, .enable 1 2, .retire 0 1 10 0, .add 1 2 5 50, .retire 1 1 3 0]

/-- The stores of the two threads after that. -/
def handedOver : Shelf Nat where
  stores := [
    (0, { enabled := true, owner := 1, lastRetired := 10, waiting := [⟨5, .leaf 50⟩], count := 1 }),
    (1, { enabled := true, owner := 2, lastRetired := 3 })]

/-- If the first thread drains its store up to 10 again, the node is left there. -/
theorem not_always_clears : ¬ ∀ (calls : List (Call Nat)) (s : Shelf Nat) (key caller version receiver : Nat)
    (freed : List (Waiting Nat)) (s' : Shelf Nat), run calls = .ok s →
      s.retire key caller version receiver = .ok (freed, s') → s.Clears key version freed s' := by
  intro hall
  have hclears := hall handover handedOver 0 1 10 0 [] handedOver rfl rfl
  exact absurd (hclears.left ⟨5, .leaf 50⟩ (List.mem_singleton_self _)) (by decide)

/-- It frees the node if it drains its store up to 11. -/
theorem handed_over_clears : run handover = .ok handedOver ∧ (handedOver.get 0).owner = 1 ∧
    ∃ freed s', handedOver.retire 0 1 11 0 = .ok (freed, s') ∧ handedOver.Clears 0 11 freed s' ∧
      freed.map (·.version) = [5] := by
  obtain ⟨freed, s', hretire, hclears, -⟩ :=
    retire_clears_iff (rfl : run handover = .ok handedOver) (rfl : (handedOver.get 0).owner = 1) 0 11
  have hc := hclears.2 fun hcached => absurd hcached (by decide)
  exact ⟨rfl, rfl, freed, s', hretire, hc, by rw [hc.freed]; decide⟩

end Shelf

end BackoffStack
