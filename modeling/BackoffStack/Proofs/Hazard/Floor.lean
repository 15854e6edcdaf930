/-
No minimum that an epoch keeps runs ahead of its threads.

The floor of an epoch is the least of the global version and all published ones. It never sinks. So a
minimum that was found at any earlier time is not above it, whatever the clock has done since, and a
release that goes by such a minimum frees no node that freeing everything would leave
(`HazardScenario.kept_minimum_conservative`).
-/
import BackoffStack.Proofs.Hazard.Owners

namespace BackoffStack

variable {ι : Type}

namespace Epoch

variable {e e' : Epoch ι} {v H H' : Nat} {added freed : List (Waiting ι)}

/-- `H` is the least of the global version and all published ones. -/
def Floor (e : Epoch ι) (H : Nat) : Prop :=
  IsLeast {v | v = e.version ∨ ∃ id, (e.store id).published = some v} H

/-- On the way from `e` to `e'` the floor has not sunk; what is kept of it is not above it. -/
def Rises (e e' : Epoch ι) : Prop :=
  ∃ H H', e.Floor H ∧ e.cachedMin ≤ H ∧ e'.Floor H' ∧ e'.cachedMin ≤ H' ∧ H ≤ H'

/-- The nodes that were freed since `e₁` are among those that any thread would have freed then, if it had
freed every node that nobody could look at. -/
structure Spares (e₁ : Epoch ι) (freed : List (Waiting ι)) (e' : Epoch ι) : Prop where
  frees : ∃ added, e₁.Frees added freed e'
  within : ∀ me now, ∃ m all added e₂, e₁.retire me now = .ok (all.map (·.node.label), e₂) ∧
    e₁.RetiresExactly m all added e₂ ∧ freed.Subperm all

namespace Inv

/-- Versions are published in registered stores only. -/
theorem inUse_iff (hi : e.Inv) :
    e.InUse v ↔ v = e.version ∨ ∃ id, (e.store id).published = some v :=
  or_congr_right (exists_congr fun _ => ⟨And.right, fun hp => ⟨hi.enabled_of_published hp, hp⟩⟩)

theorem floor_iff (hi : e.Inv) : e.Floor H ↔ IsLeast {v | e.InUse v} H := by
  simp only [Floor, hi.inUse_iff]

/-- Whoever looks for the oldest version finds the floor. -/
theorem floor (hi : e.Inv) : e.Floor e.oldestVersion := hi.floor_iff.2 hi.oldestVersion_isLeast

theorem cachedMin_le (hi : e.Inv) (hc : e.Conservative) (h : e.Floor H) : e.cachedMin ≤ H :=
  hc H (hi.inUse_iff.2 h.1)

theorem rises (hi : e.Inv) (hi' : e'.Inv) (hc : e.Conservative) (h : e.Advances e') :
    e.Rises e' :=
  ⟨_, _, hi.floor, hi.cachedMin_le hc hi.floor, hi'.floor,
    hi'.cachedMin_le (h.conservative hc) hi'.floor,
    h.oldest_le hi.oldestVersion_isLeast hi'.oldestVersion_isLeast.1⟩

end Inv

/-- Freed nodes waited before: those that drop functions have added are too new to be among them. -/
theorem Turnover.subperm {m : Nat} (h : e.Turnover added freed e') (hm : m ≤ e.version)
    (hf : ∀ w ∈ freed, w.version ≤ m) : freed.Subperm (e.waiting.filter (·.version ≤ m)) := by
  have hadded := filter_of_later fun w hw => hm.trans_lt (h.later w hw)
  have hkept := h.kept.filter (·.version ≤ m)
  rw [List.filter_append, List.filter_append, hadded.1, (filter_of_due hf).1, List.nil_append] at hkept
  exact (List.sublist_append_left freed _).subperm.trans hkept.symm.subperm

/-- Whoever frees nothing above a version in use spares all that must be left. -/
theorem Inv.spares (hi : e.Inv) (h : e.Frees added freed e')
    (hdue : ∀ v, e.InUse v → ∀ w ∈ freed, w.version ≤ v) : e.Spares freed e' := by
  refine ⟨⟨added, h⟩, fun me now => ?_⟩
  obtain ⟨m, all, added', e₂, hretire, hexact⟩ := hi.retires_exactly me now
  have hm := hexact.least
  have hsub := h.turnover.subperm (hm.2 (.inl rfl)) (hdue m hm.1)
  exact ⟨m, all, added', e₂, hretire, hexact, hsub.trans hexact.frees.symm.subperm⟩

end Epoch

namespace HazardScenario

/-- After any moves of any threads the minimum that the epoch keeps is not above the floor, and no
operation lets the floor sink. So a thread that gives a guard of its own store up frees only nodes that it
would also free if it freed everything right after that. -/
theorem kept_minimum_conservative (threshold cacheTime : Int64) (moves : List (Move ι)) :
    let s := (State.new threshold cacheTime : State ι).after moves
    (∃ H, s.epoch.Floor H ∧ s.epoch.cachedMin ≤ H) ∧ (∀ m, s.epoch.Rises (s.move m).epoch) ∧
      ∀ t action e g, s.returning? t action = some (e, g) →
        s.epoch.Rises e ∧ e.Rises (act s t action).2.epoch ∧
        (g.handle.tid = (s.identify t).1.id → ∃ e₁ freed,
          e.giveUp (s.identify t).1.id g.handle = .ok e₁ ∧
          (act s t action).1.dropped = freed.map (·.node.label) ∧
          e₁.Spares freed (act s t action).2.epoch) := by
  have hi₀ : (State.new threshold cacheTime : State ι).epoch.Inv := .new ..
  have hc₀ : (State.new threshold cacheTime : State ι).epoch.Conservative := fun _ _ => Nat.zero_le _
  have hi := after_inv hi₀ moves
  have hg := after_guarded hi₀ (Nat.zero_le _) moves
  have hc := (after_advances hi₀ (Nat.zero_le _) moves).conservative hc₀
  generalize (State.new threshold cacheTime : State ι).after moves = s at hi hg hc
  refine ⟨⟨_, hi.floor, hi.cachedMin_le hc hi.floor⟩,
    fun m => hi.rises (move_inv hi m) hc (move_advances hi hg m), fun t action e g h => ?_⟩
  obtain ⟨hi', ha, hlock⟩ := returning_spec hi hg h
  obtain ⟨-, hdropped, hepoch, -⟩ := act_returns action h
  have hc' := ha.conservative hc
  have hunpin := hi'.advances_unpin (s.identify t).1.id g s.wall
  refine ⟨hi.rises hi' hc ha, hepoch ▸ hi'.rises (hi'.unpin ..) hc' hunpin, fun hown => ?_⟩
  obtain ⟨e₁, added, freed, answer, e₂, l, h₁, hgive, hr, hends, -⟩ :=
    hi'.unpin_own hown.symm hlock s.wall
  have hc₁ := (hi'.advances_giveUp hgive).conservative hc'
  have hfrees : e₁.Frees added freed { e₂ with exitLock := l } :=
    hr.calm.frees.between (.refl e₁) (.of_eq rfl rfl rfl)
  rw [hends] at hdropped hepoch
  exact ⟨e₁, freed, h₁, hdropped.trans hr.labels.symm,
    hepoch ▸ hgive.inv.spares hfrees (hr.spares hc₁)⟩

end HazardScenario

end BackoffStack
