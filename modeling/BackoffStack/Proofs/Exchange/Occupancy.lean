/-
What the word of a slot tells about the calls there.

The word is empty if and only if nobody is in the slot; it carries the offer of the call that waits there
until somebody joins it, and the joiner's offer from then on (`Arena.History.word_tells`). So whoever is in
the slot may empty it without looking, and a call that cannot withdraw has a partner.

Addresses are used again, so that an address does not tell whose offer lies there. That is why the calls
are followed from the moment at which they make their offers (`Arena.History.MadeAt`).
-/
import BackoffStack.Proofs.Exchange.Pairing
import Mathlib.Data.List.Induction

namespace BackoffStack

variable {α : Type}

/-- A reader takes a word apart into what it was composed of. -/
theorem Word.read {w : Word} {a : Address} {s : SlotState} (h4 : 4 ∣ a) (hw : w = compose a s) :
    w.state = s ∧ w.address = a :=
  ⟨hw ▸ state_compose _ _ h4, hw ▸ address_compose _ _ h4⟩

/-! ## One step of a call -/

namespace Exchange

variable {x : Exchange α} {s : Slot α}

theorem mine_step (now : Nat) (x : Exchange α) (s : Slot α) : (x.step now s).1.mine = x.mine := by
  unfold step
  repeat' split
  all_goals rfl

/-- What a step of a call does to the word: a call outside the slot may begin to wait there, or join the
one that waits, and the one inside may leave. -/
theorem word_step (now : Nat) (x : Exchange α) (s : Slot α) :
    (x.step now s).2.word = s.word ∨
      (x.inside = true ∧ (x.step now s).2.word = Word.empty) ∨
      (x.point = .claim s.word ∧ (x.step now s).2.word = Word.compose x.mine .waiting) ∨
      (x.joins s = true ∧ (x.step now s).2.word = Word.compose x.mine .busy) := by
  cases hx : x.point with
  | clock =>
    simp only [step, hx]
    split <;> simp [giveUp]
  | look =>
    simp only [step, hx]
    repeat' split
    all_goals exact .inl rfl
  | claim seen =>
    simp only [step, hx, Slot.compareAndSet?]
    by_cases hw : s.word = seen
    · simp [hw]
    · simp [hw]
  | join seen =>
    simp only [step, hx, Slot.compareAndSet?]
    by_cases hw : s.word = seen
    · simp [hw, joins, hx, complete]
    · simp [hw]
  | watch =>
    simp only [step, hx]
    split <;> exact .inl rfl
  | check =>
    simp only [step, hx]
    split <;> exact .inl rfl
  | withdraw =>
    simp only [step, hx, Slot.compareAndSet?]
    by_cases hw : s.word = Word.compose x.mine .waiting
    · simp [hw, inside, hx, giveUp]
    · simp [hw]
  | clear a => simp [step, hx, inside, complete, Slot.setWord]
  | returned answer => simp [step, hx]

theorem word_of_joins (hj : x.joins s = true) (now : Nat) :
    (x.step now s).2.word = Word.compose x.mine .busy := by
  unfold joins at hj
  split at hj
  · next seen hx =>
    have hw : s.word = seen := by simpa using hj
    simp [step, hx, Slot.compareAndSet?, hw, complete]
  · cases hj

end Exchange

namespace Arena

theorem slot_set {w : Arena α} {place : Nat} (hp : place < w.slots.length) (s : Slot α) (q : Nat) :
    (w.slots.set place s).getD q {} = if q = place then s else w.slot q := by
  by_cases hq : q = place
  · subst hq
    rw [if_pos rfl, List.getD_eq_getElem _ _ (by simpa using hp), List.getElem_set_self]
  · rw [if_neg hq, slot, List.getD_eq_getElem?_getD, List.getD_eq_getElem?_getD,
      List.getElem?_set_ne (Ne.symm hq)]

theorem word_startAt {w : Arena α} {place : Nat} (hp : place < w.slots.length) (t : Nat)
    (timeout : Duration) (o : Option α) (a : Address) (q : Nat) :
    ((w.startAt t place timeout o a).slot q).word = (w.slot q).word := by
  unfold startAt
  show ((w.slots.set place _).getD q {}).word = _
  rw [slot_set hp]
  split
  · next hq =>
    subst hq
    exact Slot.word_enclose ..
  · rfl

section Step

variable {w : Arena α} {t : Nat} {v : Visit α}

theorem slot_step (hv : w.flights.find? t = some v) (hp : v.place < w.slots.length) (q : Nat) :
    (w.step t).slot q =
      if q = v.place then (v.exchange.step w.clock (w.slot v.place)).2 else w.slot q := by
  rw [← slot_set hp]
  unfold step
  rw [hv]
  dsimp only
  split <;> rfl

theorem find?_step (hv : w.flights.find? t = some v) (u : Nat) :
    (w.step t).flights.find? u =
      if u = t then
        if (v.exchange.step w.clock (w.slot v.place)).1.over then none
        else some { v with exchange := (v.exchange.step w.clock (w.slot v.place)).1 }
      else w.flights.find? u := by
  unfold step
  rw [hv]
  dsimp only
  split
  · next ha => simp [Flights.find?_erase, Exchange.over, ha]
  · next ha => simp [Flights.find?_insert, Exchange.over, ha]

end Step

namespace History

variable {h : History α} {e : Event α} {capacity : Nat} {events : List (Event α)} {t u place : Nat}
  {a b : Address}

/-! ## Addresses -/

/-- The call has made its offer in an envelope at this address; the pop marker lies at the null
address. -/
def MadeAt (capacity : Nat) (events : List (Event α)) (t : Nat) (a : Address) : Prop :=
  ∃ past, past <+: events ∧
    ∃ v, (run capacity past).arena.flights.find? t = some v ∧ v.exchange.mine = a

theorem run_snoc (capacity : Nat) (events : List (Event α)) (e : Event α) :
    run capacity (events ++ [e]) = (run capacity events).happen e := by
  unfold run
  rw [List.foldl_append]
  rfl

theorem run_inv (capacity : Nat) (events : List (Event α)) :
    ∃ stages, (run capacity events).Inv stages :=
  (Inv.new capacity).foldl events

theorem offer?_happen {o : Option α} (ho : h.offer? t = some o) (e : Event α) :
    (h.happen e).offer? t = some o := by
  cases e with
  | offer u place timeout o' a =>
    unfold happen
    dsimp only
    split
    · next hg =>
      have hne : t ≠ u := by
        rintro rfl
        simp [hg.1] at ho
      simp only [offer?, List.lookup_cons, beq_eq_false_iff_ne.2 hne]
      exact ho
    · exact ho
  | step u => exact ho
  | advance nanos => exact ho

/-- A call in flight has only begun, or was in flight before, at the same place and with its offer at the
same address. -/
theorem find?_happen {v : Visit α} (hv : (h.happen e).arena.flights.find? t = some v) :
    h.offer? t = none ∨ ∃ v', h.arena.flights.find? t = some v' ∧ v'.place = v.place ∧
      v'.exchange.mine = v.exchange.mine := by
  cases e with
  | offer u place timeout o a =>
    unfold happen at hv
    dsimp only at hv
    split at hv
    · next hg =>
      by_cases ht : t = u
      · exact .inl (ht ▸ hg.1)
      · refine .inr ⟨v, ?_, rfl, rfl⟩
        simpa [startAt, Flights.find?_insert, ht] using hv
    · exact .inr ⟨v, hv, rfl, rfl⟩
  | step u =>
    cases hu : h.arena.flights.find? u with
    | none =>
      rw [Inv.happen_step, step_of_none hu] at hv
      exact .inr ⟨v, hv, rfl, rfl⟩
    | some v' =>
      rw [Inv.happen_step] at hv
      simp only [find?_step hu] at hv
      split at hv
      · next ht =>
        split at hv
        · cases hv
        · cases hv
          exact .inr ⟨v', ht ▸ hu, rfl, (Exchange.mine_step ..).symm⟩
      · exact .inr ⟨v, hv, rfl, rfl⟩
  | advance nanos => exact .inr ⟨v, hv, rfl, rfl⟩

theorem MadeAt.mono (hm : MadeAt capacity events t a) (e : Event α) :
    MadeAt capacity (events ++ [e]) t a := by
  obtain ⟨past, hp, h⟩ := hm
  exact ⟨past, hp.trans (List.prefix_append ..), h⟩

theorem MadeAt.of_find? {v : Visit α} (hv : (run capacity events).arena.flights.find? t = some v) :
    MadeAt capacity events t v.exchange.mine :=
  ⟨events, List.prefix_rfl, v, hv, rfl⟩

theorem madeAt_snoc : MadeAt capacity (events ++ [e]) t a ↔ MadeAt capacity events t a ∨
    ∃ v, (run capacity (events ++ [e])).arena.flights.find? t = some v ∧ v.exchange.mine = a := by
  unfold MadeAt
  constructor
  · rintro ⟨past, hp, hv⟩
    rcases List.prefix_concat_iff.1 hp with rfl | hp
    · exact .inr hv
    · exact .inl ⟨past, hp, hv⟩
  · rintro (⟨past, hp, hv⟩ | hv)
    · exact ⟨past, hp.trans (List.prefix_append ..), hv⟩
    · exact ⟨_, List.prefix_rfl, hv⟩

theorem not_madeAt_nil : ¬ MadeAt capacity ([] : List (Event α)) t a := by
  rintro ⟨past, hp, v, hv, -⟩
  obtain rfl := List.prefix_nil.1 hp
  cases hv

theorem MadeAt.offer? (hm : MadeAt capacity events t a) :
    ∃ o, (run capacity events).offer? t = some o := by
  induction events using List.reverseRecOn with
  | nil => exact absurd hm not_madeAt_nil
  | append_singleton events e ih =>
    rcases madeAt_snoc.1 hm with hm | ⟨v, hv, -⟩
    · obtain ⟨o, ho⟩ := ih hm
      exact ⟨o, run_snoc capacity events e ▸ offer?_happen ho e⟩
    · obtain ⟨stages, hi⟩ := run_inv capacity (events ++ [e])
      exact hi.known t v hv

theorem MadeAt.unique (ha : MadeAt capacity events t a) (hb : MadeAt capacity events t b) : a = b := by
  induction events using List.reverseRecOn generalizing a b with
  | nil => exact absurd ha not_madeAt_nil
  | append_singleton events e ih =>
    -- one that is in flight was so before, or nothing is known of it from before
    have hnow : ∀ {c v}, MadeAt capacity events t c →
        (run capacity (events ++ [e])).arena.flights.find? t = some v → c = v.exchange.mine := by
      intro c v hc hv
      rw [run_snoc] at hv
      rcases find?_happen hv with hnone | ⟨v', hv', -, hmine⟩
      · obtain ⟨o, ho⟩ := hc.offer?
        simp [hnone] at ho
      · exact (ih hc (.of_find? hv')).trans hmine
    rcases madeAt_snoc.1 ha with ha | ⟨v, hv, rfl⟩ <;> rcases madeAt_snoc.1 hb with hb | ⟨v', hv', rfl⟩
    · exact ih ha hb
    · exact hnow ha hv'
    · exact (hnow hb hv).symm
    · rw [Option.some.inj (hv.symm.trans hv')]

/-! ## Joiners -/

/-- A slot looks busy only after a join, and else as it did before. -/
theorem word_step_of_busy {w : Arena α} {v : Visit α} (hv : w.flights.find? t = some v)
    (hp : v.place < w.slots.length) (hmine : 4 ∣ v.exchange.mine)
    (hj : v.exchange.joins (w.slot v.place) = false) (h4 : 4 ∣ a)
    (hw : ((w.step t).slot place).word = Word.compose a .busy) :
    (w.slot place).word = Word.compose a .busy := by
  rw [slot_step hv hp] at hw
  split at hw
  · next hplace =>
    subst hplace
    rcases v.exchange.word_step w.clock (w.slot v.place) with
      hsame | ⟨-, hempty⟩ | ⟨-, hwaits⟩ | ⟨hjoins, -⟩
    · exact hsame ▸ hw
    · exact absurd (hw.symm.trans hempty) (Word.compose_busy_ne_empty h4)
    · exact absurd (hw.symm.trans hwaits) (Word.compose_busy_ne_waiting h4 hmine)
    · rw [hj] at hjoins
      cases hjoins
  · exact hw

theorem happen_offer (h : History α) (t place : Nat) (timeout : Duration) (o : Option α)
    (a : Address) : (h.happen (.offer t place timeout o a)).pairs = h.pairs ∧
      ∀ q, ((h.happen (.offer t place timeout o a)).arena.slot q).word = (h.arena.slot q).word := by
  unfold happen
  dsimp only
  split
  · next hg => exact ⟨rfl, word_startAt hg.2.1 t timeout o a⟩
  · exact ⟨rfl, fun _ => rfl⟩

namespace Inv

variable {stages : Nat → Stage α}

theorem exists_visit (hi : h.Inv stages) {v : Visit α} (hv : h.arena.flights.find? t = some v) :
    ∃ o, h.visits t = some (v.place, ⟨o, v.exchange⟩) := by
  obtain ⟨o, ho⟩ := hi.known t v hv
  exact ⟨o, visits_of_find? hv ho⟩

theorem place_lt (hi : h.Inv stages) {v : Visit α} (hv : h.arena.flights.find? t = some v) :
    v.place < h.arena.slots.length := by
  obtain ⟨o, hvisit⟩ := hi.exists_visit hv
  exact hi.row.inside t _ _ hvisit

theorem aligned (hi : h.Inv stages) {v : Visit α} (hv : h.arena.flights.find? t = some v) :
    4 ∣ v.exchange.mine := by
  obtain ⟨o, hvisit⟩ := hi.exists_visit hv
  exact (hi.row.slot v.place (hi.place_lt hv)).aligned _ _ (Visits.callers_eq_some.2 hvisit)

/-- A call that joins finds one that waits, which is its partner from then on. -/
theorem exists_joined (hi : h.Inv stages) {v : Visit α} (hv : h.arena.flights.find? t = some v)
    (hj : v.exchange.joins (h.arena.slot v.place) = true) : ∃ waiter p,
      stages v.place = .waiting waiter ∧ h.visits waiter = some (v.place, p) ∧ t ≠ waiter ∧
        h.arena.joined? t = some waiter := by
  obtain ⟨o, hvisit⟩ := hi.exists_visit hv
  have hp := hi.place_lt hv
  obtain ⟨taken, stage', hmove, -, -⟩ := hi.row.step hvisit h.arena.clock rfl
  obtain ⟨waiter, hst, -⟩ :=
    ((hi.row.slot v.place hp).joins_iff (Visits.callers_eq_some.2 hvisit) rfl hmove).1 hj
  obtain ⟨p, hwaiter, hinside⟩ := hi.row.exists_of_occupant hp (by rw [hst]; rfl)
  refine ⟨waiter, p, hst, hwaiter, fun he => ?_, hi.joined?_eq_some hv hp hj hst⟩
  subst he
  cases hvisit.symm.trans hwaiter
  simp [(Slot.Inv.answer_of_joins hj 0).1] at hinside

theorem find?_of_partner? (hi : h.Inv stages) {v : Visit α} (hu : h.partner? t = some u)
    (hv : (h.happen e).arena.flights.find? t = some v) :
    ∃ v', h.arena.flights.find? t = some v' ∧ v'.place = v.place := by
  obtain ⟨o, ho⟩ := hi.offer_of_partner? hu
  rcases find?_happen hv with hnone | ⟨v', hv', hplace, -⟩
  · simp [hnone] at ho
  · exact ⟨v', hv', hplace⟩

/-- After a join, a call with a partner had it before, in a slot that was busy then, or has just been
joined. -/
theorem busy_of_joins (hi : h.Inv stages) {t' : Nat} {v v₀ : Visit α}
    (hv₀ : h.arena.flights.find? t' = some v₀)
    (hj : v₀.exchange.joins (h.arena.slot v₀.place) = true)
    (hv : (h.happen (.step t')).arena.flights.find? t = some v)
    (hu : (h.happen (.step t')).partner? t = some u) (h4 : 4 ∣ a)
    (hw : ((h.happen (.step t')).arena.slot v.place).word = Word.compose a .busy) :
    (h.partner? t = some u ∧ (h.arena.slot v.place).word = Word.compose a .busy) ∨
      (t' = u ∧ v₀.exchange.mine = a) := by
  obtain ⟨waiter, p, hst, hwaiter, hne, hjoined⟩ := hi.exists_joined hv₀ hj
  obtain ⟨-, theirs, hanswer⟩ := Slot.Inv.answer_of_joins hj h.arena.clock
  rw [happen_step] at hv hu hw
  simp only [find?_step hv₀, Exchange.over, hanswer] at hv
  rw [slot_step hv₀ (hi.place_lt hv₀)] at hw
  -- the joiner returns at once
  have ht : t ≠ t' := fun ht => by simp [ht] at hv
  rw [if_neg ht] at hv
  rw [hjoined, partner?, partnerIn_pair hne, if_neg ht] at hu
  obtain ⟨o, hvisit⟩ := hi.exists_visit hv
  by_cases htw : t = waiter
  · subst htw
    have hplace : v.place = v₀.place :=
      congrArg Prod.fst (Option.some.inj (hvisit.symm.trans hwaiter))
    rw [if_pos rfl] at hu
    rw [if_pos hplace, Exchange.word_of_joins hj] at hw
    exact .inr ⟨Option.some.inj hu, Word.compose_inj (hi.aligned hv₀) h4 hw⟩
  · have hplace : v.place ≠ v₀.place := by
      intro hplace
      have hnone := hi.alone t v hv (by rw [hplace, hst]; exact Stage.not_met_waiting)
      rw [if_neg htw, ← partner?, hnone] at hu
      cases hu
    rw [if_neg htw] at hu
    rw [if_neg hplace] at hw
    exact .inl ⟨hu, hw⟩

/-- The slot of a call with a partner was busy before with the same word, or the partner was about to
join it. -/
theorem was_busy (hi : h.Inv stages) (e : Event α) {v : Visit α}
    (hv : (h.happen e).arena.flights.find? t = some v) (hu : (h.happen e).partner? t = some u)
    (h4 : 4 ∣ a) (hw : ((h.happen e).arena.slot v.place).word = Word.compose a .busy) :
    (∃ v', h.arena.flights.find? t = some v' ∧ h.partner? t = some u ∧
      (h.arena.slot v'.place).word = Word.compose a .busy) ∨
    ∃ v', h.arena.flights.find? u = some v' ∧ v'.exchange.mine = a := by
  have hsame : h.partner? t = some u → (h.arena.slot v.place).word = Word.compose a .busy →
      ∃ v', h.arena.flights.find? t = some v' ∧ h.partner? t = some u ∧
        (h.arena.slot v'.place).word = Word.compose a .busy := by
    intro hu hw
    obtain ⟨v', hv', hplace⟩ := hi.find?_of_partner? hu hv
    exact ⟨v', hv', hu, hplace ▸ hw⟩
  cases e with
  | offer t' place timeout o b =>
    obtain ⟨hpairs, hword⟩ := happen_offer h t' place timeout o b
    rw [partner?, hpairs] at hu
    exact .inl (hsame hu (by rw [← hword, hw]))
  | advance nanos => exact .inl (hsame hu hw)
  | step t' =>
    cases hv₀ : h.arena.flights.find? t' with
    | none =>
      rw [happen_step] at hu hw
      rw [joined?_of_not_joins (by simp [hv₀])] at hu
      rw [step_of_none hv₀] at hw
      exact .inl (hsame hu hw)
    | some v₀ =>
      cases hj : v₀.exchange.joins (h.arena.slot v₀.place) with
      | false =>
        rw [happen_step] at hu hw
        rw [joined?_of_not_joins fun v' hv' => by rwa [← Option.some.inj (hv₀.symm.trans hv')]] at hu
        exact .inl (hsame hu (word_step_of_busy hv₀ (hi.place_lt hv₀) (hi.aligned hv₀) hj h4 hw))
      | true =>
        rcases hi.busy_of_joins hv₀ hj hv hu h4 hw with ⟨hu, hw⟩ | ⟨rfl, hmine⟩
        · exact .inl (hsame hu hw)
        · exact .inr ⟨v₀, hv₀, hmine⟩

end Inv

/-- The word of a slot carries the address at which the joiner has made its offer. -/
theorem madeAt_of_busy {v : Visit α} (hv : (run capacity events).arena.flights.find? t = some v)
    (hu : (run capacity events).partner? t = some u) (h4 : 4 ∣ a)
    (hw : ((run capacity events).arena.slot v.place).word = Word.compose a .busy) :
    MadeAt capacity events u a := by
  induction events using List.reverseRecOn generalizing v with
  | nil => cases hv
  | append_singleton events e ih =>
    obtain ⟨stages, hi⟩ := run_inv capacity events
    rw [run_snoc] at hv hu hw
    rcases hi.was_busy e hv hu h4 hw with ⟨v', hv', hu', hw'⟩ | ⟨v', hv', rfl⟩
    · exact (ih hv' hu' hw').mono e
    · exact (MadeAt.of_find? hv').mono e

/-! ## Who is in a slot -/

/-- The call waits in the slot, or has a partner and has not left yet. -/
def Inside (h : History α) (place t : Nat) : Prop :=
  ∃ v, h.arena.flights.find? t = some v ∧ v.place = place ∧ v.exchange.inside = true

/-- The call is in the slot, and no other is. -/
def Sole (h : History α) (place t : Nat) : Prop :=
  h.Inside place t ∧ ∀ u, h.Inside place u → u = t

/-- The call has met nobody. -/
def Unmet (h : History α) (t : Nat) : Prop := ∀ w, (t, w) ∉ h.pairs ∧ (w, t) ∉ h.pairs

/-- The call has met `u`, and nobody else. -/
def Met (h : History α) (t u : Nat) : Prop := ∀ w, ((t, w) ∈ h.pairs ∨ (w, t) ∈ h.pairs) ↔ w = u

/-- What the word of a slot tells about the calls there, given where each has made its offer. -/
structure Tells (h : History α) (madeAt : Nat → Address → Prop) (place : Nat) : Prop where
  /-- A reader takes the word apart into what it was composed of. -/
  composed : ∃ a s, 4 ∣ a ∧ (h.arena.slot place).word = Word.compose a s ∧
    (h.arena.slot place).word.address = a ∧ (h.arena.slot place).word.state = s
  empty : (h.arena.slot place).word = Word.empty ↔ ∀ t, ¬ h.Inside place t
  /-- One call is there, which nobody has joined, and the word carries its offer. -/
  waiting : ∀ a, (h.arena.slot place).word.state = .waiting ∧
      (h.arena.slot place).word.address = a ↔
    ∃ t o, h.Sole place t ∧ h.Unmet t ∧ h.offer? t = some o ∧ madeAt t a ∧
      (h.arena.slot place).Holds a o
  /-- One call is there, which one call with the other kind of offer has joined, and the word carries the
  joiner's offer, which is still to be taken. -/
  busy : ∀ a, (h.arena.slot place).word.state = .busy ∧ (h.arena.slot place).word.address = a ↔
    ∃ t u o o', h.Sole place t ∧ h.Met t u ∧ h.offer? t = some o ∧ h.offer? u = some o' ∧
      o.isSome = !o'.isSome ∧ madeAt u a ∧ (h.arena.slot place).Holds a o'
  /-- Only the call inside takes the slot out of this state. -/
  leaves : (h.arena.slot place).word.state = .busy → ∀ e,
    ((h.happen e).arena.slot place).word ≠ (h.arena.slot place).word →
      ∃ t, e = .step t ∧ h.Inside place t
  /-- It overwrites no other call's state when it does. -/
  clears : ∀ t v a, h.arena.flights.find? t = some v → v.place = place →
    v.exchange.point = .clear a → h.Sole place t ∧ (∃ u, h.Met t u) ∧
      (h.arena.slot place).word.state = .busy ∧ (h.arena.slot place).word.address = a
  /-- A call that fails to withdraw has a partner. -/
  withdraws : ∀ t v, h.arena.flights.find? t = some v → v.place = place →
    v.exchange.point = .withdraw → (h.arena.slot place).compareAndSet?
      (Word.compose v.exchange.mine .waiting) Word.empty = none →
      (h.arena.slot place).word.state = .busy ∧ ∃ u, h.Met t u
  /-- While no call is under way there, the slot is empty. -/
  idle : (∀ t v, h.arena.flights.find? t = some v → v.place ≠ place) →
    (h.arena.slot place).word = Word.empty

/-- The three ways to find a slot. -/
inductive Found (h : History α) (place : Nat) : Prop
  | vacant (word : (h.arena.slot place).word = Word.empty) (nobody : ∀ t, ¬ h.Inside place t)
  | waiting {t v o} (flight : h.arena.flights.find? t = some v) (there : v.place = place)
      (sole : h.Sole place t) (alone : h.partner? t = none) (offer : h.offer? t = some o)
      (word : (h.arena.slot place).word = Word.compose v.exchange.mine .waiting)
      (holds : (h.arena.slot place).Holds v.exchange.mine o)
  | busy {t v u a o o'} (flight : h.arena.flights.find? t = some v) (there : v.place = place)
      (sole : h.Sole place t) (partner : h.partner? t = some u) (offer : h.offer? t = some o)
      (theirs : h.offer? u = some o') (kinds : o.isSome = !o'.isSome)
      (word : (h.arena.slot place).word = Word.compose a .busy)
      (holds : (h.arena.slot place).Holds a o')

namespace Inv

variable {stages : Nat → Stage α}

theorem met_iff (hi : h.Inv stages) : h.Met t u ↔ h.partner? t = some u := by
  constructor
  · intro hm
    rcases (hm u).2 rfl with hp | hp
    · exact (partnerIn_of_mem hi.disjoint hp).1
    · exact (partnerIn_of_mem hi.disjoint hp).2
  · intro hp w
    refine ⟨fun hw => ?_, fun hw => hw ▸ mem_of_partnerIn hp⟩
    have hpw : h.partner? t = some w := hw.elim (fun hw => (partnerIn_of_mem hi.disjoint hw).1)
      fun hw => (partnerIn_of_mem hi.disjoint hw).2
    exact Option.some.inj (hpw.symm.trans hp)

theorem unmet_iff (hi : h.Inv stages) : h.Unmet t ↔ h.partner? t = none :=
  (partner?_eq_none_iff hi.disjoint).symm

theorem visits_eq_some (hi : h.Inv stages) {p : Party α} (hp : h.visits t = some (place, p)) :
    ∃ v, h.arena.flights.find? t = some v ∧ v.place = place ∧ h.offer? t = some p.offer ∧
      p.exchange = v.exchange := by
  unfold visits at hp
  cases hv : h.arena.flights.find? t with
  | none => simp [hv] at hp
  | some v =>
    obtain ⟨o, ho⟩ := hi.known t v hv
    simp only [hv, ho, Option.bind_some, Option.map_some, Option.some.injEq, Prod.mk.injEq] at hp
    obtain ⟨rfl, rfl⟩ := hp
    exact ⟨v, rfl, rfl, ho, rfl⟩

/-- Whoever is in a slot is who its stage says. -/
theorem inside_iff (hi : h.Inv stages) (hp : place < h.arena.slots.length) :
    h.Inside place t ↔ (stages place).occupant? = some t := by
  constructor
  · rintro ⟨v, hv, rfl, hin⟩
    obtain ⟨o, hvisit⟩ := hi.exists_visit hv
    have hcall := Visits.callers_eq_some.2 hvisit
    exact ((hi.row.slot v.place hp).occupant t _ hcall).1 hin
  · intro hocc
    obtain ⟨p, hvisit, hin⟩ := hi.row.exists_of_occupant hp hocc
    obtain ⟨v, hv, hplace, -, hx⟩ := hi.visits_eq_some hvisit
    exact ⟨v, hv, hplace, hx ▸ hin⟩

theorem sole (hi : h.Inv stages) (hp : place < h.arena.slots.length)
    (hocc : (stages place).occupant? = some t) : h.Sole place t := by
  refine ⟨(hi.inside_iff hp).2 hocc, fun u hu => ?_⟩
  exact Option.some.inj (((hi.inside_iff hp).1 hu).symm.trans hocc)

theorem found (hi : h.Inv stages) (place : Nat) : h.Found place := by
  by_cases hp : place < h.arena.slots.length
  · have hslot := hi.row.slot place hp
    cases hst : stages place with
    | vacant =>
      rw [hst] at hslot
      refine .vacant hslot.writes fun t ht => ?_
      rw [hi.inside_iff hp, hst] at ht
      cases ht
    | waiting t =>
      have hsole := hi.sole hp (t := t) (by rw [hst]; rfl)
      rw [hst] at hslot
      obtain ⟨p, hcall, hword⟩ := hslot.writes
      obtain ⟨v, hv, hplace, ho, hx⟩ := hi.visits_eq_some (Visits.callers_eq_some.1 hcall)
      have hholds := hslot.holds (x := p.exchange) hcall Stage.not_met_waiting
      rw [hx] at hword hholds
      refine .waiting hv hplace hsole (hi.alone t v hv ?_) ho hword hholds
      rw [hplace, hst]
      exact Stage.not_met_waiting
    | joined t theirs =>
      have hsole := hi.sole hp (t := t) (by rw [hst]; rfl)
      rw [hst] at hslot
      obtain ⟨p, a, hcall, hword, h4, hkinds⟩ := hslot.writes
      obtain ⟨v, hv, hplace, ho, -⟩ := hi.visits_eq_some (Visits.callers_eq_some.1 hcall)
      obtain ⟨u, hu, hou, -⟩ := hi.met t v theirs hv (hplace ▸ hst)
      have hholds := hslot.keeps.holds _ _ _ (.slot rfl)
      rw [hword, Word.address_compose _ _ h4] at hholds
      exact .busy hv hplace hsole hu ho hou hkinds hword hholds
  · refine .vacant ?_ fun t ht => ?_
    · rw [slot, List.getD_eq_default _ _ (Nat.le_of_not_lt hp)]
    · obtain ⟨v, hv, hplace, -⟩ := ht
      exact hp (hplace ▸ hi.place_lt hv)

/-! ### What the word tells -/

theorem composed (hi : h.Inv stages) (place : Nat) : ∃ a s, 4 ∣ a ∧
    (h.arena.slot place).word = Word.compose a s ∧
      (h.arena.slot place).word.address = a ∧ (h.arena.slot place).word.state = s := by
  obtain ⟨a, s, h4, hw⟩ : ∃ a s, 4 ∣ a ∧ (h.arena.slot place).word = Word.compose a s := by
    cases hi.found place with
    | vacant hw _ => exact ⟨nullAddress, .empty, Nat.dvd_zero 4, hw⟩
    | waiting _ _ _ _ _ hw hholds => exact ⟨_, _, hholds.dvd, hw⟩
    | busy _ _ _ _ _ _ _ hw hholds => exact ⟨_, _, hholds.dvd, hw⟩
  exact ⟨a, s, h4, hw, (Word.read h4 hw).2, (Word.read h4 hw).1⟩

theorem empty_iff (hi : h.Inv stages) (place : Nat) :
    (h.arena.slot place).word = Word.empty ↔ ∀ t, ¬ h.Inside place t := by
  cases hi.found place with
  | vacant hw hnobody => exact iff_of_true hw hnobody
  | waiting _ _ hsole _ _ hw hholds =>
    refine iff_of_false (fun he => ?_) fun hnobody => hnobody _ hsole.1
    exact Word.compose_waiting_ne_empty hholds.dvd (hw.symm.trans he)
  | busy _ _ hsole _ _ _ _ hw hholds =>
    refine iff_of_false (fun he => ?_) fun hnobody => hnobody _ hsole.1
    exact Word.compose_busy_ne_empty hholds.dvd (hw.symm.trans he)

/-- A busy slot is left by nobody but the call inside. -/
theorem leaves (hi : h.Inv stages) (hb : (h.arena.slot place).word.state = .busy) (e : Event α)
    (hne : ((h.happen e).arena.slot place).word ≠ (h.arena.slot place).word) :
    ∃ t, e = .step t ∧ h.Inside place t := by
  cases e with
  | offer t q timeout o a => exact absurd ((happen_offer h t q timeout o a).2 place) hne
  | advance nanos => exact absurd rfl hne
  | step t =>
    rw [happen_step] at hne
    cases hv : h.arena.flights.find? t with
    | none =>
      rw [step_of_none hv] at hne
      exact absurd rfl hne
    | some v =>
      obtain ⟨o, hvisit⟩ := hi.exists_visit hv
      have hp := hi.place_lt hv
      have hslot := hi.row.slot v.place hp
      rw [slot_step hv hp] at hne
      split at hne
      · next hplace =>
        subst hplace
        rcases v.exchange.word_step h.arena.clock (h.arena.slot v.place) with
          hsame | ⟨hin, -⟩ | ⟨hclaim, -⟩ | ⟨hj, -⟩
        · exact absurd hsame hne
        · exact ⟨t, rfl, v, hv, rfl, hin⟩
        · have hempty : (h.arena.slot v.place).word = Word.empty := by
            simpa [Party.At, hclaim] using hslot.points t _ (Visits.callers_eq_some.2 hvisit)
          rw [hempty] at hb
          cases hb
        · obtain ⟨waiter, p, hst, -⟩ := hi.exists_joined hv hj
          have hstate := hslot.writes.state hslot.aligned
          rw [hst] at hstate
          cases hb.symm.trans hstate
      · exact absurd rfl hne

/-- A call that is about to empty its slot finds there what it has seen before. -/
theorem clears (hi : h.Inv stages) {v : Visit α} (hv : h.arena.flights.find? t = some v)
    (hx : v.exchange.point = .clear a) : h.Sole v.place t ∧ (∃ u, h.Met t u) ∧
      (h.arena.slot v.place).word.state = .busy ∧ (h.arena.slot v.place).word.address = a := by
  obtain ⟨o, hvisit⟩ := hi.exists_visit hv
  have hp := hi.place_lt hv
  obtain ⟨h4, hmet, hw⟩ : 4 ∣ a ∧ (stages v.place).Met t ∧
      (h.arena.slot v.place).word = Word.compose a .busy := by
    simpa [Party.At, hx, slot] using (hi.row.slot v.place hp).points t _
      (Visits.callers_eq_some.2 hvisit)
  obtain ⟨theirs, hst⟩ := hmet
  obtain ⟨u, hu, -⟩ := hi.met t v theirs hv hst
  exact ⟨hi.sole hp (by rw [hst]; rfl), ⟨u, hi.met_iff.2 hu⟩, Word.read h4 hw⟩

/-- A call that cannot withdraw has a partner. -/
theorem withdraws (hi : h.Inv stages) {v : Visit α} (hv : h.arena.flights.find? t = some v)
    (hx : v.exchange.point = .withdraw) (hfail : (h.arena.slot v.place).compareAndSet?
      (Word.compose v.exchange.mine .waiting) Word.empty = none) :
    (h.arena.slot v.place).word.state = .busy ∧ ∃ u, h.Met t u := by
  have hin : h.Inside v.place t := ⟨v, hv, rfl, by simp [Exchange.inside, hx]⟩
  cases hi.found v.place with
  | vacant _ hnobody => exact absurd hin (hnobody t)
  | waiting hv' _ hsole _ _ hw _ =>
    obtain rfl := hsole.2 t hin
    cases hv.symm.trans hv'
    simp [Slot.compareAndSet?, hw] at hfail
  | busy hv' _ hsole hu _ _ _ hw hholds =>
    obtain rfl := hsole.2 t hin
    exact ⟨(Word.read hholds.dvd hw).1, _, hi.met_iff.2 hu⟩

end Inv

theorem waiting_iff (capacity : Nat) (events : List (Event α)) (place : Nat) (a : Address) :
    ((run capacity events).arena.slot place).word.state = .waiting ∧
        ((run capacity events).arena.slot place).word.address = a ↔
      ∃ t o, (run capacity events).Sole place t ∧ (run capacity events).Unmet t ∧
        (run capacity events).offer? t = some o ∧ MadeAt capacity events t a ∧
        ((run capacity events).arena.slot place).Holds a o := by
  obtain ⟨stages, hi⟩ := run_inv capacity events
  constructor
  · rintro ⟨hs, rfl⟩
    cases hi.found place with
    | vacant hw _ =>
      rw [hw] at hs
      cases hs
    | @waiting t v o hv _ hsole halone ho hw hholds =>
      have haddress := (Word.read hholds.dvd hw).2
      rw [haddress]
      exact ⟨t, o, hsole, hi.unmet_iff.2 halone, ho, .of_find? hv, hholds⟩
    | busy _ _ _ _ _ _ _ hw hholds => cases hs.symm.trans (Word.read hholds.dvd hw).1
  · rintro ⟨t, o, hsole, hunmet, -, hmade, -⟩
    cases hi.found place with
    | vacant _ hnobody => exact absurd hsole.1 (hnobody t)
    | waiting hv _ hsole' _ _ hw hholds =>
      obtain rfl := hsole'.2 t hsole.1
      rw [hmade.unique (.of_find? hv)]
      exact Word.read hholds.dvd hw
    | busy _ _ hsole' hu _ _ _ _ _ =>
      obtain rfl := hsole'.2 t hsole.1
      cases (hi.unmet_iff.1 hunmet).symm.trans hu

theorem busy_iff (capacity : Nat) (events : List (Event α)) (place : Nat) (a : Address) :
    ((run capacity events).arena.slot place).word.state = .busy ∧
        ((run capacity events).arena.slot place).word.address = a ↔
      ∃ t u o o', (run capacity events).Sole place t ∧ (run capacity events).Met t u ∧
        (run capacity events).offer? t = some o ∧ (run capacity events).offer? u = some o' ∧
        o.isSome = !o'.isSome ∧ MadeAt capacity events u a ∧
        ((run capacity events).arena.slot place).Holds a o' := by
  obtain ⟨stages, hi⟩ := run_inv capacity events
  constructor
  · rintro ⟨hs, rfl⟩
    cases hi.found place with
    | vacant hw _ =>
      rw [hw] at hs
      cases hs
    | waiting _ _ _ _ _ hw hholds => cases hs.symm.trans (Word.read hholds.dvd hw).1
    | @busy t v u a o o' hv hplace hsole hu ho hou hkinds hw hholds =>
      have haddress := (Word.read hholds.dvd hw).2
      rw [haddress]
      exact ⟨t, u, o, o', hsole, hi.met_iff.2 hu, ho, hou, hkinds,
        madeAt_of_busy hv hu hholds.dvd (hplace ▸ hw), hholds⟩
  · rintro ⟨t, u, o, o', hsole, hmet, -, -, -, hmade, -⟩
    have hu := hi.met_iff.1 hmet
    cases hi.found place with
    | vacant _ hnobody => exact absurd hsole.1 (hnobody t)
    | waiting _ _ hsole' halone _ _ _ =>
      obtain rfl := hsole'.2 t hsole.1
      cases halone.symm.trans hu
    | busy hv hplace hsole' hu' _ _ _ hw hholds =>
      obtain rfl := hsole'.2 t hsole.1
      obtain rfl := Option.some.inj (hu.symm.trans hu')
      rw [hmade.unique (madeAt_of_busy hv hu hholds.dvd (hplace ▸ hw))]
      exact Word.read hholds.dvd hw

/-- Whatever calls do at a slot, in whatever order, its word tells who is there and whose offer it
carries. -/
theorem word_tells (capacity : Nat) (events : List (Event α)) (place : Nat) :
    (run capacity events).Tells (MadeAt capacity events) place := by
  obtain ⟨stages, hi⟩ := run_inv capacity events
  refine ⟨hi.composed place, hi.empty_iff place, waiting_iff capacity events place,
    busy_iff capacity events place, hi.leaves, ?_, ?_, ?_⟩
  · rintro t v a hv rfl hx
    exact hi.clears hv hx
  · rintro t v hv rfl hx hfail
    exact hi.withdraws hv hx hfail
  · intro hnone
    exact (hi.empty_iff place).2 fun t ht => ht.elim fun v hv => hnone t v hv.1 hv.2.1

end History

end Arena

end BackoffStack
