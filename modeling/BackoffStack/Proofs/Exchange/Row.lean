/-
Slots side by side, with calls that each visit one of them. A step of one call is a move of its own
slot, and no other slot sees anything of it (`Row.Inv.step`).
-/
import BackoffStack.Proofs.Exchange.Stage
import BackoffStack.Proofs.Places

namespace BackoffStack

variable {α : Type}

/-- The place that a call visits, and the call; by number. -/
abbrev Visits (α : Type) := Nat → Option (Nat × Party α)

namespace Visits

/-- The calls that visit a place. -/
def callers (visits : Visits α) (place : Nat) : Parties α := fun t =>
  (visits t).bind fun v => if v.1 = place then some v.2 else none

/-- The visits after one call took a step. -/
def advance (visits : Visits α) (t place : Nat) (o : Option α) (x : Exchange α) : Visits α :=
  Function.update visits t (if x.over then none else some (place, ⟨o, x⟩))

variable {visits : Visits α} {t u place q : Nat} {o : Option α} {x : Exchange α} {p : Party α}

theorem callers_eq_some : visits.callers place t = some p ↔ visits t = some (place, p) := by
  unfold callers
  cases h : visits t with
  | none => simp
  | some v =>
    obtain ⟨r, p'⟩ := v
    by_cases hr : r = place <;> simp [hr]

theorem callers_update_same (v : Option (Party α)) :
    callers (Function.update visits t (v.map (place, ·))) place =
      Function.update (visits.callers place) t v := by
  funext u
  by_cases hu : u = t
  · subst hu
    cases v <;> simp [callers]
  · simp [callers, Function.update_of_ne hu]

theorem callers_update_other (v : Option (Party α)) (hq : q ≠ place)
    (ht : ∀ p, visits t ≠ some (q, p)) :
    callers (Function.update visits t (v.map (place, ·))) q = visits.callers q := by
  funext u
  by_cases hu : u = t
  · subst hu
    have : visits.callers q u = none := by
      cases h : visits.callers q u with
      | none => rfl
      | some p => exact absurd (callers_eq_some.1 h) (ht p)
    rw [this]
    cases v <;> simp [callers, Ne.symm hq]
  · simp [callers, Function.update_of_ne hu]

theorem advance_eq : visits.advance t place o x =
    Function.update visits t
      ((if x.over then none else some ⟨o, x⟩ : Option (Party α)).map (place, ·)) := by
  unfold advance
  split <;> rfl

end Visits

/-- The values in the envelopes of all slots. -/
def Row.values (slots : List (Slot α)) : List α :=
  slots.flatMap fun s => s.envelopes.map (·.2)

namespace Row

/-- What a change of one slot adds and takes away, it adds and takes away in the whole row. -/
theorem values_set {slots : List (Slot α)} {place : Nat} (hp : place < slots.length) {s' : Slot α}
    {l l' : List α} (h : (l ++ (slots.getD place {}).envelopes.map (·.2)).Perm
      (l' ++ s'.envelopes.map (·.2))) :
    (l ++ values slots).Perm (l' ++ values (slots.set place s')) := by
  rw [List.getD_eq_getElem _ _ hp] at h
  exact flatMap_set_perm hp h

/-- Whether a call is in the slot at a place. -/
def waits (visit? : Nat → Option (Nat × Exchange α)) (place t : Nat) : Bool :=
  match visit? t with
  | some (q, x) => q == place && x.inside
  | none => false

/-- The call in the slot at a place, among those of some threads. -/
def waiter? (threads : List Nat) (visit? : Nat → Option (Nat × Exchange α)) (place : Nat) :
    Option Nat :=
  threads.find? (waits visit? place)

/-- All slots in order, each at its stage and with the calls that visit it. -/
structure Inv (slots : List (Slot α)) (stages : Nat → Stage α) (visits : Visits α) : Prop where
  inside : ∀ t place p, visits t = some (place, p) → place < slots.length
  slot : ∀ place, place < slots.length →
    (slots.getD place {}).Inv (stages place) (visits.callers place)

namespace Inv

variable {slots : List (Slot α)} {stages : Nat → Stage α} {visits : Visits α} {t place : Nat}
  {o : Option α} {x : Exchange α}

theorem new (n : Nat) : Inv (List.replicate n ({} : Slot α)) (fun _ => .vacant) fun _ => none where
  inside t place p ht := nomatch ht
  slot place hp := by
    rw [List.getD_eq_getElem _ _ hp, List.getElem_replicate]
    exact Slot.Inv.new

theorem set (h : Inv slots stages visits) (hp : place < slots.length) (s' : Slot α)
    (stage' : Stage α) (v : Option (Party α)) (ht : ∀ q p, visits t = some (q, p) → q = place)
    (hs : s'.Inv stage' (Function.update (visits.callers place) t v)) :
    Inv (slots.set place s') (Function.update stages place stage')
      (Function.update visits t (v.map (place, ·))) where
  inside u q p hu := by
    rw [List.length_set]
    by_cases hut : u = t
    · subst hut
      rw [Function.update_self, Option.map_eq_some_iff] at hu
      obtain ⟨_, -, e⟩ := hu
      cases e
      exact hp
    · rw [Function.update_of_ne hut] at hu
      exact h.inside u q p hu
  slot q hq := by
    rw [List.length_set] at hq
    by_cases hqp : q = place
    · subst hqp
      rw [Function.update_self, Visits.callers_update_same, List.getD_eq_getElem _ _ (by simpa using hq),
        List.getElem_set_self]
      exact hs
    · rw [Function.update_of_ne hqp, Visits.callers_update_other v hqp fun p e => hqp (ht q p e),
        List.getD_eq_getElem _ _ (by simpa using hq), List.getElem_set_ne (Ne.symm hqp),
        ← List.getD_eq_getElem _ {} hq]
      exact h.slot q hq

theorem step (h : Inv slots stages visits) (ht : visits t = some (place, ⟨o, x⟩)) (now : Nat)
    {x' : Exchange α} {s' : Slot α} (hx : x.step now (slots.getD place {}) = (x', s')) :
    ∃ taken stage', (stages place).Move (visits.callers place) t o x' taken stage' ∧
      Inv (slots.set place s') (Function.update stages place stage')
        (visits.advance t place o x') ∧
      (values slots).Perm (taken.toList ++ values (slots.set place s')) := by
  have hp := h.inside t place _ ht
  obtain ⟨taken, stage', hmove, hinv, hperm⟩ :=
    (h.slot place hp).step (Visits.callers_eq_some.2 ht) now
  rw [hx] at hmove hinv hperm
  refine ⟨taken, stage', hmove, ?_, by simpa using values_set (l := []) hp (by simpa using hperm)⟩
  rw [Visits.advance_eq]
  refine h.set hp s' stage' _ (fun q p e => ?_) hinv
  rw [ht] at e
  cases e
  rfl

theorem start (h : Inv slots stages visits) (ht : visits t = none) (hp : place < slots.length)
    {a : Address} (ha : (slots.getD place {}).Usable a) (now : Nat) (timeout : Duration)
    (o : Option α) {x : Exchange α} {s' : Slot α}
    (hx : Exchange.start now timeout o a (slots.getD place {}) = (x, s')) :
    Inv (slots.set place s') stages (Function.update visits t (some (place, ⟨o, x⟩))) ∧
      (values (slots.set place s')).Perm (o.toList ++ values slots) := by
  have hat : visits.callers place t = none := by simp [Visits.callers, ht]
  have hs := (h.slot place hp).start hat ha now timeout o
  rw [hx] at hs
  have hinv := h.set hp s' (stages place) (some ⟨o, x⟩) (by simp [ht]) hs
  rw [Function.update_eq_self] at hinv
  have hvalues : s'.envelopes.map (·.2) =
      o.toList ++ (slots.getD place {}).envelopes.map (·.2) := by
    rw [← Slot.values_enclose _ a o, show s' = _ from (congrArg Prod.snd hx).symm]
    rfl
  have hperm : (o.toList ++ values slots).Perm ([] ++ values (slots.set place s')) :=
    values_set hp (by rw [hvalues]; simp)
  exact ⟨hinv, hperm.symm⟩

theorem exists_of_occupant (h : Inv slots stages visits) (hp : place < slots.length)
    (hs : (stages place).occupant? = some t) :
    ∃ p, visits t = some (place, p) ∧ p.exchange.inside = true := by
  obtain ⟨p, ht⟩ := (h.slot place hp).occupant_isSome hs
  exact ⟨p, Visits.callers_eq_some.1 ht, ((h.slot place hp).occupant t p ht).2 hs⟩

/-- A call that is not under way has not been joined. -/
theorem not_met (h : Inv slots stages visits) (hp : place < slots.length) (ht : visits t = none) :
    ¬ (stages place).Met t := by
  intro hm
  obtain ⟨p, hv, -⟩ := h.exists_of_occupant hp hm.occupant
  simp [ht] at hv

theorem waiter?_eq (h : Inv slots stages visits) (hp : place < slots.length)
    (hs : (stages place).occupant? = some t) {threads : List Nat}
    {visit? : Nat → Option (Nat × Exchange α)}
    (hv : ∀ u, visit? u = (visits u).map fun v => (v.1, v.2.exchange))
    (hmem : ∀ u v, visits u = some v → u ∈ threads) :
    waiter? threads visit? place = some t := by
  obtain ⟨p, ht, hin⟩ := h.exists_of_occupant hp hs
  have hfound : waits visit? place t = true := by simp [waits, hv, ht, hin]
  unfold waiter?
  cases hf : threads.find? (waits visit? place) with
  | none => simp [List.find?_eq_none.1 hf t (hmem t _ ht)] at hfound
  | some u =>
    -- whoever is found is in the slot, where nobody but `t` is
    have hu := List.find?_some hf
    simp only [waits, hv] at hu
    cases hvu : visits u with
    | none => simp [hvu] at hu
    | some v =>
      obtain ⟨q, p'⟩ := v
      simp only [hvu, Option.map_some, Bool.and_eq_true, beq_iff_eq] at hu
      obtain ⟨rfl, hin'⟩ := hu
      have := ((h.slot q hp).occupant u p' (Visits.callers_eq_some.2 hvu)).1 hin'
      exact this.symm.trans hs

end Inv

end Row

end BackoffStack
