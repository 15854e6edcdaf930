/-
No match is missed.

A call that cannot get on spins: it finds in its slot nothing that it can act on. While the deadlines of all
calls at a slot are ahead, a call that runs alone loops for ever if and only if it spins, and it spins if and
only if a call waits in the slot that makes the same kind of offer, or another call there has been joined.
So when all calls at a slot can only loop, none of them could have met another (`MissesNoMatch`).
-/
import BackoffStack.Proofs.Exchange.Deadline
import Mathlib.Logic.Function.Iterate

namespace BackoffStack

variable {α : Type}

/-! ## One call at a slot -/

namespace Exchange

variable {x : Exchange α} {s : Slot α} {now : Nat}

/-- A step of a call and its slot, with nobody else there. -/
def stepBoth (now : Nat) (r : Exchange α × Slot α) : Exchange α × Slot α := r.1.step now r.2

/-- Alone with its slot while the clock stands still, the call neither returns nor changes the word. -/
def Loops (now : Nat) (x : Exchange α) (s : Slot α) : Prop :=
  ∀ n, ((stepBoth now)^[n] (x, s)).1.over = false ∧ ((stepBoth now)^[n] (x, s)).2.word = s.word

/-- What a call outside a slot finds there is nothing that it can act on. -/
def Barred (x : Exchange α) (s : Slot α) : Prop :=
  s.word.state ≠ .empty ∧ (s.word.state = .waiting → x.matchesOffer s.word.address = false)

/-- The call has nothing to act on, and nothing to act on in the slot either. -/
def Spins (x : Exchange α) (s : Slot α) : Prop :=
  match x.point with
  | .clock | .look => x.Barred s
  | .claim seen | .join seen => s.word ≠ seen ∧ x.Barred s
  | .watch | .check => s.word.state ≠ .busy
  | .withdraw | .clear _ | .returned _ => False

theorem slot_of_look (hx : x.point = .look) : (x.step now s).2 = s := by
  simp only [step, hx]
  repeat' split
  all_goals rfl

theorem Spins.not_over (h : x.Spins s) : x.over = false := by
  unfold Spins at h
  cases hx : x.point with
  | returned answer => simp [hx] at h
  | _ => simp [Exchange.over, answer?, hx]

/-- A call that spins before its deadline goes round without touching its slot. -/
theorem Spins.step (h : x.Spins s) (hnow : now ≤ x.deadline) :
    ∃ p, x.step now s = (x.goto p, s) ∧ (x.goto p).Spins s := by
  unfold Spins at h
  cases hx : x.point with
  | clock =>
    rw [hx] at h
    exact ⟨.look, by simp only [Exchange.step, hx, if_neg (Nat.not_lt.2 hnow)], h⟩
  | look =>
    rw [hx] at h
    obtain ⟨hempty, hmatch⟩ := h
    refine ⟨.clock, ?_, ⟨hempty, hmatch⟩⟩
    cases hs : s.word.state with
    | empty => exact absurd hs hempty
    | waiting => simp [Exchange.step, hx, hs, hmatch hs]
    | busy => simp only [Exchange.step, hx, hs]
  | claim seen | join seen =>
    rw [hx] at h
    exact ⟨.clock, by simp only [Exchange.step, hx, Slot.compareAndSet?, if_neg h.1], h.2⟩
  | watch =>
    rw [hx] at h
    refine ⟨.check, ?_, h⟩
    cases hs : s.word.state with
    | busy => exact absurd hs h
    | _ => simp only [Exchange.step, hx, hs]
  | check =>
    rw [hx] at h
    exact ⟨.watch, by simp only [Exchange.step, hx, if_neg (Nat.not_lt.2 hnow)], h⟩
  | withdraw | clear a | returned answer => simp [hx] at h

theorem Spins.loops (h : x.Spins s) (hnow : now ≤ x.deadline) : x.Loops now s := by
  have hall : ∀ n, ∃ p, (stepBoth now)^[n] (x, s) = (x.goto p, s) ∧ (x.goto p).Spins s := by
    intro n
    induction n with
    | zero => exact ⟨x.point, rfl, h⟩
    | succ n ih =>
      obtain ⟨p, he, hp⟩ := ih
      rw [Function.iterate_succ_apply', he]
      exact hp.step hnow
  intro n
  obtain ⟨p, he, hp⟩ := hall n
  rw [he]
  exact ⟨hp.not_over, rfl⟩

theorem Loops.next (h : x.Loops now s) : (x.step now s).1.Loops now (x.step now s).2 ∧
    (x.step now s).1.over = false ∧ (x.step now s).2.word = s.word := by
  have hone : (x.step now s).2.word = s.word := (h 1).2
  refine ⟨fun n => ?_, (h 1).1, hone⟩
  obtain ⟨hover, hword⟩ := h (n + 1)
  rw [Function.iterate_succ_apply] at hover hword
  exact ⟨hover, hword.trans hone.symm⟩

/-! A call that loops has gone by every point at which it would act. -/

theorem not_loops_claim (h4 : 4 ∣ x.mine) (hx : x.point = .claim s.word) (hs : s.word.state = .empty) :
    ¬ x.Loops now s := by
  intro hl
  have hword := hl.next.2.2
  simp only [Exchange.step, hx, Slot.compareAndSet?, if_true] at hword
  rw [← hword, Word.state_compose _ _ h4] at hs
  cases hs

theorem not_loops_join (hx : x.point = .join s.word) : ¬ x.Loops now s := by
  intro hl
  have hover := hl.next.2.1
  simp only [Exchange.step, hx, Slot.compareAndSet?, if_true] at hover
  cases hover

theorem barred_of_look (h4 : 4 ∣ x.mine) (hx : x.point = .look) (hl : x.Loops now s) : x.Barred s := by
  have hnext := hl.next.1
  simp only [Exchange.step, hx] at hnext
  constructor
  · intro hs
    simp only [hs] at hnext
    exact not_loops_claim (x := x.goto (.claim s.word)) h4 rfl hs hnext
  · intro hs
    simp only [hs] at hnext
    cases hm : x.matchesOffer s.word.address with
    | false => rfl
    | true =>
      rw [hm, if_pos rfl] at hnext
      exact absurd hnext (not_loops_join rfl)

theorem barred_of_clock (h4 : 4 ∣ x.mine) (hnow : now ≤ x.deadline) (hx : x.point = .clock)
    (hl : x.Loops now s) : x.Barred s := by
  have hnext := hl.next.1
  simp only [Exchange.step, hx, if_neg (Nat.not_lt.2 hnow)] at hnext
  exact barred_of_look (x := x.goto .look) h4 rfl hnext

theorem not_loops_clear {a : Address} (hx : x.point = .clear a) : ¬ x.Loops now s := by
  intro hl
  have hover := hl.next.2.1
  simp only [Exchange.step, hx] at hover
  cases hover

theorem not_busy_of_watch (hx : x.point = .watch) (hl : x.Loops now s) : s.word.state ≠ .busy := by
  intro hs
  have hnext := hl.next.1
  simp only [Exchange.step, hx, hs] at hnext
  exact not_loops_clear rfl hnext

end Exchange

namespace Slot.Inv

variable {s : Slot α} {stage : Stage α} {parties : Parties α} {t now : Nat} {o : Option α}
  {x : Exchange α}

/-- Before its deadline, a call loops if and only if it spins. -/
theorem loops_iff (h : s.Inv stage parties) (ht : parties t = some ⟨o, x⟩) (hnow : now ≤ x.deadline)
    (hw : x.point ≠ .withdraw) : x.Loops now s ↔ x.Spins s := by
  refine ⟨fun hl => ?_, fun hs => hs.loops hnow⟩
  have h4 := h.aligned t _ ht
  have hat := h.points t _ ht
  have hnext := hl.next.1
  unfold Exchange.Spins
  cases hx : x.point with
  | clock => exact Exchange.barred_of_clock h4 hnow hx hl
  | look => exact Exchange.barred_of_look h4 hx hl
  | claim seen =>
    have hne : s.word ≠ seen := by
      rintro rfl
      have hempty : s.word = Word.empty := by simpa [Party.At, hx] using hat
      exact Exchange.not_loops_claim h4 hx (by rw [hempty]; rfl) hl
    simp only [Exchange.step, hx, compareAndSet?, if_neg hne] at hnext
    exact ⟨hne, Exchange.barred_of_clock (x := x.goto .clock) h4 hnow rfl hnext⟩
  | join seen =>
    have hne : s.word ≠ seen := by
      rintro rfl
      exact Exchange.not_loops_join hx hl
    simp only [Exchange.step, hx, compareAndSet?, if_neg hne] at hnext
    exact ⟨hne, Exchange.barred_of_clock (x := x.goto .clock) h4 hnow rfl hnext⟩
  | watch => exact Exchange.not_busy_of_watch hx hl
  | check =>
    simp only [Exchange.step, hx, if_neg (Nat.not_lt.2 hnow)] at hnext
    exact Exchange.not_busy_of_watch (x := x.goto .watch) rfl hnext
  | withdraw => exact hw hx
  | clear a => exact Exchange.not_loops_clear hx hl
  | returned answer => simp [Party.At, hx] at hat

/-- A waiting offer is of the other kind than a call's own if and only if it lies where the call's does
not, at the null address or elsewhere. -/
theorem matchesOffer_eq {u : Nat} {p : Party α} (h : s.Inv (.waiting u) parties)
    (ht : parties t = some ⟨o, x⟩) (hu : parties u = some p) :
    x.matchesOffer p.exchange.mine = (p.offer.isSome != o.isSome) := by
  rw [Exchange.matchesOffer, (h.holds (x := p.exchange) hu Stage.not_met_waiting).beq_null,
    (h.holds ht Stage.not_met_waiting).beq_null]
  cases p.offer.isSome <;> cases o.isSome <;> rfl

/-- Nothing that a call at a slot could do leads on: a call waits there that makes the same kind of offer,
or another call has been joined. -/
def Blocks (stage : Stage α) (parties : Parties α) (t : Nat) (o : Option α) : Prop :=
  (∃ u p, stage = .waiting u ∧ parties u = some p ∧ p.offer.isSome = o.isSome) ∨
    ∃ u theirs, stage = .joined u theirs ∧ u ≠ t

theorem barred_iff (h : s.Inv stage parties) (ht : parties t = some ⟨o, x⟩)
    (hout : stage.occupant? ≠ some t) : x.Barred s ↔ Blocks stage parties t o := by
  have hstate := h.writes.state h.aligned
  unfold Exchange.Barred Blocks
  cases stage with
  | vacant => simp [hstate]
  | waiting u =>
    obtain ⟨p, hu, hword⟩ := h.writes
    have haddress : s.word.address = p.exchange.mine :=
      (Word.read (h.aligned u p hu) hword).2
    rw [hstate, haddress, h.matchesOffer_eq ht hu]
    simp [hu]
  | joined u theirs =>
    have hut : u ≠ t := by simpa [Stage.occupant?] using hout
    simp [hstate, hut]

/-- A call spins if and only if it is blocked. -/
theorem spins_iff (h : s.Inv stage parties) (ht : parties t = some ⟨o, x⟩) (hw : x.point ≠ .withdraw) :
    x.Spins s ↔ Blocks stage parties t o := by
  have hat := h.points t _ ht
  have hocc := h.occupant t _ ht
  have hstate := h.writes.state h.aligned
  have houtside : x.inside = false → (x.Barred s ↔ Blocks stage parties t o) := fun hin =>
    h.barred_iff ht fun he => by simp [hocc.2 he] at hin
  -- in the slot, a call goes round until it has been joined
  have hinside : x.inside = true → (s.word.state ≠ .busy ↔ Blocks stage parties t o) := by
    intro hin
    unfold Blocks
    cases stage with
    | vacant => cases hocc.1 hin
    | waiting u =>
      cases hocc.1 hin
      simp [hstate, ht]
    | joined u theirs =>
      cases hocc.1 hin
      simp [hstate]
  unfold Exchange.Spins
  cases hx : x.point with
  | clock | look => exact houtside (by simp [Exchange.inside, hx])
  | claim seen =>
    rw [← houtside (by simp [Exchange.inside, hx])]
    refine and_iff_right_of_imp fun hb he => hb.1 ?_
    have hempty : seen = Word.empty := by simpa [Party.At, hx] using hat
    rw [he, hempty]
    rfl
  | join seen =>
    rw [← houtside (by simp [Exchange.inside, hx])]
    refine and_iff_right_of_imp fun hb he => ?_
    obtain ⟨a, h4, rfl, hmatch⟩ : ∃ a, 4 ∣ a ∧ seen = Word.compose a .waiting ∧
      x.matchesOffer a = true := by simpa [Party.At, hx] using hat
    obtain ⟨hwaiting, haddress⟩ := Word.read h4 he
    have hno := hb.2 hwaiting
    rw [haddress, hmatch] at hno
    cases hno
  | watch | check => exact hinside (by simp [Exchange.inside, hx])
  | withdraw => exact absurd hx hw
  | clear a =>
    obtain ⟨theirs, hst⟩ : stage.Met t := by
      have := hat
      simp only [Party.At, hx] at this
      exact this.2.1
    subst hst
    simp [Blocks]
  | returned answer => simp [Party.At, hx] at hat

end Slot.Inv

namespace Arena

variable {w : Arena α} {t now : Nat} {v : Visit α}

/-- Alone, the call neither returns nor changes the word of the slot at `place`, however many steps it
takes. -/
def Loops (w : Arena α) (place t : Nat) : Prop :=
  ∀ n, (((step t)^[n] w).flights.find? t).isSome = true ∧
    (((step t)^[n] w).slot place).word = (w.slot place).word

/-- The visit is at its place with this call and this slot, and the clock shows `now`. -/
structure Shows (w : Arena α) (t now : Nat) (v : Visit α) (r : Exchange α × Slot α) : Prop where
  flight : w.flights.find? t = some { v with exchange := r.1 }
  place : v.place < w.slots.length
  slot : w.slot v.place = r.2
  clock : w.clock = now

theorem Shows.step {r : Exchange α × Slot α} (h : w.Shows t now v r) :
    if (Exchange.stepBoth now r).1.over then (w.step t).flights.find? t = none
    else (w.step t).Shows t now v (Exchange.stepBoth now r) := by
  have hfind := find?_step h.flight t
  have hslot := slot_step h.flight h.place v.place
  simp only [if_true, h.clock, h.slot] at hfind hslot
  split
  · next hover => exact hfind.trans (if_pos hover)
  · next hover =>
    refine ⟨hfind.trans (if_neg hover), ?_, hslot, ?_⟩
    · have := h.place
      unfold Arena.step
      rw [h.flight]
      dsimp only
      split <;> simpa using this
    · refine Eq.trans ?_ h.clock
      unfold Arena.step
      rw [h.flight]
      dsimp only
      split <;> rfl

theorem loops_iff (hv : w.flights.find? t = some v) (hp : v.place < w.slots.length)
    (hx : v.exchange.over = false) :
    w.Loops v.place t ↔ v.exchange.Loops w.clock (w.slot v.place) := by
  have hnow : w.Shows t w.clock v (v.exchange, w.slot v.place) := ⟨hv, hp, rfl, rfl⟩
  constructor
  · intro hl
    have hall : ∀ n, ((step t)^[n] w).Shows t w.clock v
        ((Exchange.stepBoth w.clock)^[n] (v.exchange, w.slot v.place)) ∧
        ((Exchange.stepBoth w.clock)^[n] (v.exchange, w.slot v.place)).1.over = false := by
      intro n
      induction n with
      | zero => exact ⟨hnow, hx⟩
      | succ n ih =>
        have hstep := ih.1.step
        rw [Function.iterate_succ_apply', Function.iterate_succ_apply']
        split at hstep
        · have hflies := (hl (n + 1)).1
          rw [Function.iterate_succ_apply', hstep] at hflies
          cases hflies
        · next hover => exact ⟨hstep, Bool.eq_false_iff.2 hover⟩
    intro n
    obtain ⟨hshows, hover⟩ := hall n
    exact ⟨hover, by rw [← hshows.slot, (hl n).2]⟩
  · intro hl
    have hall : ∀ n, ((step t)^[n] w).Shows t w.clock v
        ((Exchange.stepBoth w.clock)^[n] (v.exchange, w.slot v.place)) := by
      intro n
      induction n with
      | zero => exact hnow
      | succ n ih =>
        have hstep := ih.step
        rw [← Function.iterate_succ_apply' (step t),
          ← Function.iterate_succ_apply' (Exchange.stepBoth w.clock), if_neg (Bool.eq_false_iff.1 (hl (n + 1)).1)] at hstep
        exact hstep
    intro n
    have hshows := hall n
    exact ⟨by rw [hshows.flight]; rfl, by rw [hshows.slot, (hl n).2]⟩

namespace History

variable {h : History α} {capacity place : Nat} {events : List (Event α)}

/-! ## All calls at a slot -/

/-- The call has begun at this place, and has not returned. -/
def Pending (h : History α) (place t : Nat) : Prop :=
  ∃ v, h.arena.flights.find? t = some v ∧ v.place = place

/-- No deadline of a call at this place has passed. -/
def InTime (h : History α) (place : Nat) : Prop :=
  ∀ t v, h.arena.flights.find? t = some v → v.place = place → h.arena.clock ≤ v.exchange.deadline

/-- The call waits in the slot at this place, which carries its offer. -/
def Waits (h : History α) (place t : Nat) : Prop :=
  ∃ v, h.arena.flights.find? t = some v ∧ v.place = place ∧ v.exchange.inside = true ∧
    (h.arena.slot place).word = Word.compose v.exchange.mine .waiting

/-- What a slot is like where no call has a partner to meet. -/
inductive Settled (h : History α) (place : Nat) : Prop
  /-- There is no call, and the slot is empty. -/
  | deserted (nobody : ∀ t, ¬ h.Pending place t) (word : (h.arena.slot place).word = Word.empty)
  /-- One call waits, and all calls make offers of one kind. -/
  | crowded (push : Bool) (word : (h.arena.slot place).word.state = .waiting)
      (waiter : ∃! t, h.Waits place t)
      (kind : ∀ t, h.Pending place t → ∃ o, h.offer? t = some o ∧ o.isSome = push)

/-- Before its deadline no call is on its way out of the slot for want of time. -/
theorem InTime.not_withdraw (ht : (run capacity events).InTime place) {t : Nat} {v : Visit α}
    (hv : (run capacity events).arena.flights.find? t = some v) (hp : v.place = place) :
    v.exchange.point ≠ .withdraw := by
  intro hx
  have hlate := (readBeyond_of_withdraw hv hx).lt_clock
  have hle := ht t v hv hp
  omega

theorem find?_aside_foldl {t : Nat} (hk : ∃ o, h.offer? t = some o) {rest : List (Event α)}
    (hrest : ∀ e ∈ rest, e.isStepOf t = false) :
    (rest.foldl happen h).arena.flights.find? t = h.arena.flights.find? t := by
  induction rest generalizing h with
  | nil => rfl
  | cons e rest ih =>
    obtain ⟨o, ho⟩ := hk
    exact (ih ⟨o, offer?_happen ho e⟩ fun f hf => hrest f (List.mem_cons_of_mem _ hf)).trans
      (find?_aside ⟨o, ho⟩ (hrest e (List.mem_cons_self ..)))

namespace Inv

variable {stages : Nat → Stage α} {t : Nat} {v : Visit α}

theorem pending_iff (hi : h.Inv stages) :
    h.Pending place t ↔ ∃ p, h.visits.callers place t = some p := by
  constructor
  · rintro ⟨v, hv, rfl⟩
    obtain ⟨o, hvisit⟩ := hi.exists_visit hv
    exact ⟨_, Visits.callers_eq_some.2 hvisit⟩
  · rintro ⟨p, hcall⟩
    obtain ⟨v, hv, hplace, -⟩ := hi.visits_eq_some (Visits.callers_eq_some.1 hcall)
    exact ⟨v, hv, hplace⟩

/-- Before the deadlines, a call loops if and only if it is blocked. -/
theorem loops_iff (hi : (run capacity events).Inv stages) (ht : (run capacity events).InTime place)
    {p : Party α} (hcall : (run capacity events).visits.callers place t = some p) :
    (run capacity events).arena.Loops place t ↔
      Slot.Inv.Blocks (stages place) ((run capacity events).visits.callers place) t p.offer := by
  obtain ⟨o, x⟩ := p
  obtain ⟨v, hv, rfl, -, rfl⟩ := hi.visits_eq_some (Visits.callers_eq_some.1 hcall)
  have hp := hi.place_lt hv
  have hslot := hi.row.slot v.place hp
  have hnot := ht.not_withdraw hv rfl
  rw [Arena.loops_iff hv hp (hi.not_over hv)]
  exact (hslot.loops_iff hcall (ht t v hv rfl) hnot).trans (hslot.spins_iff hcall hnot)

/-- Whoever is seen to wait in a slot is who its stage says. -/
theorem waits_iff (hi : h.Inv stages) (hp : place < h.arena.slots.length) :
    h.Waits place t ↔ stages place = .waiting t := by
  have hslot := hi.row.slot place hp
  constructor
  · rintro ⟨v, hv, rfl, hin, hword⟩
    have hwrites := hslot.writes
    rw [← Arena.slot, hword] at hwrites
    obtain ⟨u, p, hst, -, -⟩ := hwrites.eq_waiting (hi.aligned hv) hslot.aligned
    have hocc := (hi.inside_iff hp).1 ⟨v, hv, rfl, hin⟩
    rw [hst] at hocc ⊢
    rw [Option.some.inj hocc]
  · intro hst
    rw [hst] at hslot
    obtain ⟨p, hcall, hword⟩ := hslot.writes
    obtain ⟨v, hv, hplace, -, hx⟩ := hi.visits_eq_some (Visits.callers_eq_some.1 hcall)
    refine ⟨v, hv, hplace, ?_, hx ▸ hword⟩
    rw [← hx]
    exact (hslot.occupant t p hcall).2 rfl

/-- All calls at a place are blocked if and only if none of them has a partner to meet. -/
theorem blocks_iff (hi : h.Inv stages) (hp : place < h.arena.slots.length) :
    (∀ t p, h.visits.callers place t = some p →
      Slot.Inv.Blocks (stages place) (h.visits.callers place) t p.offer) ↔ h.Settled place := by
  have hslot := hi.row.slot place hp
  have hstate := hslot.writes.state hslot.aligned
  have hwaits : ∀ u, h.Waits place u ↔ stages place = .waiting u := fun u => hi.waits_iff hp
  unfold Slot.Inv.Blocks
  constructor
  · intro hall
    cases hst : stages place with
    | vacant =>
      rw [hst] at hslot hall
      refine .deserted (fun t ht => ?_) hslot.writes
      obtain ⟨p, hcall⟩ := hi.pending_iff.1 ht
      simpa using hall t p hcall
    | waiting u =>
      rw [hst] at hslot hall hstate
      obtain ⟨q, hu, -⟩ := hslot.writes
      refine .crowded q.offer.isSome hstate ⟨u, (hwaits u).2 hst, fun t ht => ?_⟩ fun t ht => ?_
      · cases hst.symm.trans ((hwaits t).1 ht)
        rfl
      · obtain ⟨p, hcall⟩ := hi.pending_iff.1 ht
        obtain ⟨-, -, -, ho, -⟩ := hi.visits_eq_some (Visits.callers_eq_some.1 hcall)
        refine ⟨p.offer, ho, ?_⟩
        simpa [hu, eq_comm] using hall t p hcall
    | joined u theirs =>
      rw [hst] at hslot hall
      obtain ⟨q, a, hu, -⟩ := hslot.writes
      simpa using hall u q hu
  · rintro (⟨hnobody, -⟩ | ⟨push, hs, ⟨u, hu, -⟩, hkind⟩) t p hcall
    · exact absurd (hi.pending_iff.2 ⟨p, hcall⟩) (hnobody t)
    · have hst := (hwaits u).1 hu
      rw [hst] at hslot
      obtain ⟨q, hq, -⟩ := hslot.writes
      refine .inl ⟨u, q, hst, hq, ?_⟩
      have hkinds : ∀ {v r}, h.visits.callers place v = some r → r.offer.isSome = push := by
        intro v r hr
        obtain ⟨o, ho, hk⟩ := hkind v (hi.pending_iff.2 ⟨r, hr⟩)
        obtain ⟨-, -, -, ho', -⟩ := hi.visits_eq_some (Visits.callers_eq_some.1 hr)
        cases ho.symm.trans ho'
        exact hk
      rw [hkinds hq, hkinds hcall]

theorem settled_iff (hi : (run capacity events).Inv stages) (ht : (run capacity events).InTime place) :
    (∀ t, (run capacity events).Pending place t → (run capacity events).arena.Loops place t) ↔
      (run capacity events).Settled place := by
  by_cases hp : place < (run capacity events).arena.slots.length
  · rw [← hi.blocks_iff hp]
    constructor
    · intro hall t p hcall
      exact (hi.loops_iff ht hcall).1 (hall t (hi.pending_iff.2 ⟨p, hcall⟩))
    · intro hall t hpending
      obtain ⟨p, hcall⟩ := hi.pending_iff.1 hpending
      exact (hi.loops_iff ht hcall).2 (hall t p hcall)
  · -- beyond the row there are no calls
    have hnobody : ∀ t, ¬ (run capacity events).Pending place t := by
      rintro t ⟨v, hv, rfl⟩
      exact hp (hi.place_lt hv)
    refine iff_of_true (fun t hpending => absurd hpending (hnobody t)) (.deserted hnobody ?_)
    rw [Arena.slot, List.getD_eq_default _ _ (Nat.le_of_not_lt hp)]

/-! ## A call that finds a waiter -/

theorem returned_of_joins (hi : h.Inv stages) (hv : h.arena.flights.find? t = some v)
    (hj : v.exchange.joins (h.arena.slot v.place) = true) :
    ∃ u o', h.Waits v.place u ∧ h.offer? u = some o' ∧
      (t, .ok o') ∈ (h.happen (.step t)).arena.returned := by
  obtain ⟨o, hvisit⟩ := hi.exists_visit hv
  have hp := hi.place_lt hv
  have hslot := hi.row.slot v.place hp
  obtain ⟨taken, stage', hmove, -, -⟩ := hi.row.step hvisit h.arena.clock rfl
  obtain ⟨u, hst, rfl⟩ := (hslot.joins_iff (Visits.callers_eq_some.2 hvisit) rfl hmove).1 hj
  rw [hst] at hmove
  cases hmove with
  | @join _ u p _ hcall _ hanswer =>
    obtain ⟨-, -, -, ho', -⟩ := hi.visits_eq_some (Visits.callers_eq_some.1 hcall)
    refine ⟨u, p.offer, (hi.waits_iff hp).2 hst, ho', ?_⟩
    rw [happen_step, step_of_answer hv rfl hanswer]
    exact List.mem_cons_self ..

/-- A call that looks at a slot where a call of the other kind waits goes on to join it. -/
theorem find?_of_look (hi : h.Inv stages) (hv : h.arena.flights.find? t = some v)
    (hx : v.exchange.point = .look) {u : Nat} (hu : h.Waits v.place u) {o o' : Option α}
    (ho : h.offer? t = some o) (ho' : h.offer? u = some o') (hkind : o'.isSome ≠ o.isSome) :
    (h.happen (.step t)).arena.flights.find? t = some { v with
      exchange := v.exchange.goto (.join (h.arena.slot v.place).word) } := by
  have hp := hi.place_lt hv
  have hslot := hi.row.slot v.place hp
  rw [(hi.waits_iff hp).1 hu] at hslot
  obtain ⟨q, hcall, hword⟩ := hslot.writes
  obtain ⟨-, -, -, hq, -⟩ := hi.visits_eq_some (Visits.callers_eq_some.1 hcall)
  cases ho'.symm.trans hq
  rw [← Arena.slot] at hword
  obtain ⟨hstate, haddress⟩ := Word.read (hslot.aligned u q hcall) hword
  have hmatch : v.exchange.matchesOffer (h.arena.slot v.place).word.address = true := by
    rw [haddress, hslot.matchesOffer_eq (Visits.callers_eq_some.2 (visits_of_find? hv ho)) hcall]
    exact bne_iff_ne.2 hkind
  refine (find?_step hv t).trans ?_
  simp only [if_true, Exchange.step, hx, hstate, hmatch]
  rfl

theorem waits_unique (hi : h.Inv stages) {u u' : Nat} (hu : h.Waits place u) (hu' : h.Waits place u') :
    u = u' := by
  obtain ⟨v, hv, hplace, -⟩ := id hu
  have hp : place < h.arena.slots.length := hplace ▸ hi.place_lt hv
  exact Stage.waiting.inj (((hi.waits_iff hp).1 hu).symm.trans ((hi.waits_iff hp).1 hu'))

/-- A call that finds a waiter of the other kind is over with its next step, if the word is still what it
was. -/
theorem completes (hi : h.Inv stages) (hv : h.arena.flights.find? t = some v)
    (hx : v.exchange.point = .look) {u : Nat} (hu : h.Waits v.place u) {o o' : Option α}
    (ho : h.offer? t = some o) (ho' : h.offer? u = some o') (hkind : o'.isSome ≠ o.isSome)
    {between : List (Event α)} (haside : ∀ e ∈ between, e.isStepOf t = false)
    (hword : ((between.foldl History.happen (h.happen (.step t))).arena.slot v.place).word =
      (h.arena.slot v.place).word) :
    ∃ u' o'', (between.foldl History.happen (h.happen (.step t))).Waits v.place u' ∧
      (between.foldl History.happen (h.happen (.step t))).offer? u' = some o'' ∧
      (t, .ok o'') ∈
        ((between.foldl History.happen (h.happen (.step t))).happen (.step t)).arena.returned := by
  have hjoin := hi.find?_of_look hv hx hu ho ho' hkind
  obtain ⟨stages', hi'⟩ := hi.happen (.step t)
  obtain ⟨stages'', hi''⟩ := hi'.foldl between
  have hstill := (find?_aside_foldl ⟨o, offer?_happen ho (.step t)⟩ haside).trans hjoin
  have hdone := hi''.returned_of_joins hstill (beq_iff_eq.2 hword)
  exact hdone

theorem waits_aside (hi : h.Inv stages) {u : Nat} (hu : h.Waits place u) {e : Event α}
    (he : e.isStepOf u = false)
    (hword : ((h.happen e).arena.slot place).word = (h.arena.slot place).word) :
    (h.happen e).Waits place u := by
  obtain ⟨w, hw, hplace, hin, hwaits⟩ := hu
  exact ⟨w, (find?_aside (hi.known u w hw) he).trans hw, hplace, hin, hword.trans hwaits⟩

/-- The first step of a new call brings it to look at its slot, however short its timeout is. -/
theorem find?_of_begins (hle : h.arena.clock ≤ clockLimit) (hnew : h.offer? t = none)
    (hp : place < h.arena.capacity) {a : Address} (ha : (h.arena.slot place).Usable a)
    (timeout : Duration) (o : Option α) :
    let looks := (h.happen (.offer t place timeout o a)).happen (.step t)
    (∃ v, looks.arena.flights.find? t = some v ∧ v.place = place ∧ v.exchange.point = .look) ∧
      looks.offer? t = some o ∧
      (looks.arena.slot place).word = (h.arena.slot place).word := by
  have hbegan : h.happen (.offer t place timeout o a) = { h with
      arena := h.arena.startAt t place timeout o a
      offers := (t, o) :: h.offers } := if_pos ⟨hnew, hp, ha⟩
  have hword := (h.happen_offer t place timeout o a).2 place
  have hclock : (h.happen (.offer t place timeout o a)).arena.clock = h.arena.clock := by
    rw [hbegan]
    rfl
  have hfind : (h.happen (.offer t place timeout o a)).arena.flights.find? t =
      some ⟨place, (Exchange.start h.arena.clock timeout o a (h.arena.slot place)).1⟩ := by
    rw [hbegan]
    simp [startAt, Flights.find?_insert]
  have hoffer : (h.happen (.offer t place timeout o a)).offer? t = some o := by
    rw [hbegan]
    simp [offer?]
  have hplace : place < (h.happen (.offer t place timeout o a)).arena.slots.length := by
    rw [hbegan]
    simpa [startAt, Arena.capacity] using hp
  generalize h.happen (.offer t place timeout o a) = began at hword hclock hfind hoffer hplace ⊢
  set x := (Exchange.start h.arena.clock timeout o a (h.arena.slot place)).1
  -- the deadline is not before the beginning
  have hstep : x.step began.arena.clock (began.arena.slot place) =
      (x.goto .look, began.arena.slot place) := by
    have hpoint : x.point = .clock := Exchange.point_start ..
    have hdeadline : x.deadline = min (h.arena.clock + timeout.toNanos) clockLimit :=
      Exchange.deadline_start ..
    simp only [Exchange.step, hpoint]
    exact if_neg (by omega)
  refine ⟨⟨⟨place, x.goto .look⟩, ?_, rfl, rfl⟩, offer?_happen hoffer _, ?_⟩
  · refine (find?_step hfind t).trans ?_
    simp only [if_true, hstep]
    rfl
  · refine Eq.trans ?_ hword
    rw [happen_step, slot_step hfind hplace place, if_pos rfl]
    simp only [hstep]

/-- A new call that finds a waiter of the other kind is over in its first three steps. -/
theorem completes_at_once (hi : h.Inv stages) (hle : h.arena.clock ≤ clockLimit)
    (hnew : h.offer? t = none) (hp : place < h.arena.capacity) {a : Address}
    (ha : (h.arena.slot place).Usable a) (timeout : Duration) {u : Nat} (hu : h.Waits place u)
    {o o' : Option α} (ho' : h.offer? u = some o') (hkind : o'.isSome ≠ o.isSome) :
    (t, .ok o') ∈ ([Event.offer t place timeout o a, .step t, .step t, .step t].foldl History.happen
      h).arena.returned := by
  have hne : u ≠ t := by
    rintro rfl
    simp [hnew] at ho'
  obtain ⟨⟨v, hv, rfl, hx⟩, ho, hword⟩ := find?_of_begins hle hnew hp ha timeout o
  obtain ⟨stages₁, hi₁⟩ := hi.happen (.offer t v.place timeout o a)
  obtain ⟨stages₂, hi₂⟩ := hi₁.happen (.step t)
  have hu₁ : (h.happen (.offer t v.place timeout o a)).Waits v.place u :=
    hi.waits_aside hu rfl ((h.happen_offer t v.place timeout o a).2 v.place)
  have hu₂ := hi₁.waits_aside hu₁ (e := .step t) (beq_eq_false_iff_ne.2 hne.symm)
    (hword.trans ((h.happen_offer t v.place timeout o a).2 v.place).symm)
  have ho₂ := offer?_happen (offer?_happen ho' (.offer t v.place timeout o a)) (.step t)
  -- the look leaves the slot as it is
  have hstill : ((((h.happen (.offer t v.place timeout o a)).happen (.step t)).happen
      (.step t)).arena.slot v.place).word =
        (((h.happen (.offer t v.place timeout o a)).happen (.step t)).arena.slot v.place).word := by
    rw [happen_step _ t, slot_step hv (hi₂.place_lt hv) v.place, if_pos rfl, Exchange.slot_of_look hx]
  have hnone : ∀ e ∈ ([] : List (Event α)), e.isStepOf t = false := by simp
  obtain ⟨u', o'', hu', ho'', hdone⟩ := hi₂.completes hv hx hu₂ ho ho₂ hkind hnone hstill
  obtain ⟨stages₃, hi₃⟩ := hi₂.happen (.step t)
  have hu₃ := hi₂.waits_aside hu₂ (e := .step t) (beq_eq_false_iff_ne.2 hne.symm) hstill
  obtain rfl := hi₃.waits_unique hu₃ hu'
  cases ho''.symm.trans (offer?_happen ho₂ (.step t))
  exact hdone

end Inv

/-- What a call is sure to find at a place: before the deadlines, no two calls that could meet pass each
other by. -/
structure MissesNoMatch (h : History α) (place : Nat) : Prop where
  /-- All calls there only loop if and only if none has a partner to meet. -/
  settled : h.InTime place →
    ((∀ t, h.Pending place t → h.arena.Loops place t) ↔ h.Settled place)
  /-- A call that finds a waiter of the other kind is over with its next step, with the waiter's offer, if
  the word is still what it was, -/
  completes : ∀ t v u o o', h.arena.flights.find? t = some v → v.place = place →
    v.exchange.point = .look → h.Waits place u → h.offer? t = some o → h.offer? u = some o' →
    o'.isSome ≠ o.isSome → ∀ between : List (Event α), (∀ e ∈ between, e.isStepOf t = false) →
      let found := between.foldl happen (h.happen (.step t))
      (found.arena.slot place).word = (h.arena.slot place).word →
      ∃ u' o'', found.Waits place u' ∧ found.offer? u' = some o'' ∧
        (t, .ok o'') ∈ (found.happen (.step t)).arena.returned
  /-- and so is a new call in its first three steps, however short its timeout is. -/
  atOnce : ∀ t timeout o a u o', h.offer? t = none → place < h.arena.capacity →
    (h.arena.slot place).Usable a → h.Waits place u → h.offer? u = some o' → o'.isSome ≠ o.isSome →
    (t, .ok o') ∈ ([.offer t place timeout o a, .step t, .step t, .step t].foldl happen h).arena.returned

/-- Where no call has a step left but to go round, nobody misses a partner. -/
theorem misses_no_match (capacity : Nat) (events : List (Event α)) (place : Nat) :
    (run capacity events).MissesNoMatch place := by
  obtain ⟨stages, hi⟩ := run_inv capacity events
  refine ⟨hi.settled_iff, ?_, ?_⟩
  · rintro t v u o o' hv rfl hx hu ho ho' hkind between haside found hword
    exact hi.completes hv hx hu ho ho' hkind haside hword
  · intro t timeout o a u o' hnew hp ha hu ho' hkind
    exact hi.completes_at_once (clock_le ..) hnew hp ha timeout hu ho' hkind

end History

end Arena

end BackoffStack
