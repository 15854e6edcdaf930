/-
When a call is out of time, and how soon it is over then.

A call gives up only after it has read a clock beyond its deadline, which was set by the clock when the
call began. Once the clock is beyond it, every step that is left to the call is one of a few (`Late`):
the call finishes the pass of the loop it is in, and then it either returns at the next check or goes
through at most two passes in the slot, whatever other calls do. A call that cannot withdraw has a partner,
and nobody but the call itself takes the slot out of that state, so that the next look finds it.
-/
import BackoffStack.Proofs.Exchange.Occupancy

namespace BackoffStack

variable {α : Type}

namespace Exchange

/-! ## The steps of a call that is out of time -/

/-- Whether a call reads the clock next. -/
def Point.readsClock : Point α → Bool
  | .clock | .check => true
  | _ => false

/-- Whether a call outside the slot is about to check its time, at the beginning of a pass. -/
def Point.checks : Point α → Bool
  | .clock => true
  | _ => false

/-- Whether a call in the slot is about to look at it, at the beginning of a pass. -/
def Point.watches : Point α → Bool
  | .watch => true
  | _ => false

/-- Whether a call is in the slot and has a partner, as the word tells. -/
def joinedIn (x : Exchange α) (s : Slot α) : Bool := x.inside && decide (s.word.state = .busy)

theorem joinedIn_eq {x : Exchange α} {s : Slot α} (hin : x.inside = true)
    (hb : s.word.state = .busy) : x.joinedIn s = true := by
  simp [joinedIn, hin, hb]

theorem not_joinedIn {x : Exchange α} {s : Slot α} (hb : s.word.state ≠ .busy) :
    x.joinedIn s = false := by
  simp [joinedIn, hb]

/-- A step of a call that is out of time: its program point and whether it has been joined, before and
after it, and nothing after it if the call is over. -/
inductive Point.Late : Point α → Bool → Option (Point α × Bool) → Prop
  | expire {j} : Late .clock j none
  | findNobody {j seen} : Late .look j (some (.claim seen, false))
  | findMatch {j seen} : Late .look j (some (.join seen, false))
  | findOthers {j} : Late .look j (some (.clock, false))
  | claim {j seen} : Late (.claim seen) j (some (.watch, false))
  | loseClaim {j seen} : Late (.claim seen) j (some (.clock, false))
  | join {j seen} : Late (.join seen) j none
  | loseJoin {j seen} : Late (.join seen) j (some (.clock, false))
  | watchOn : Late .watch false (some (.check, false))
  | findPartner {a} : Late .watch true (some (.clear a, true))
  | readLate {j} : Late .check j (some (.withdraw, j))
  | withdraw : Late .withdraw false none
  | loseWithdraw : Late .withdraw true (some (.watch, true))
  | clear {j a} : Late (.clear a) j none

/-- The points at which a call that is out of time makes its further steps, up to any moment. Before each
of them it may have been joined. -/
inductive Point.Course : Point α → Bool → List (Point α) → Prop
  | rest {p j} : Course p j []
  | last {p j j'} : (j = true → j' = true) → Late p j' none → Course p j [p]
  | next {p j j' p' j'' l} : (j = true → j' = true) → Late p j' (some (p', j'')) → Course p' j'' l →
      Course p j (p :: l)

/-- At most so many steps are left to a call that is out of time. -/
def Point.stepsLeft : Point α → Bool → Nat
  | .clock, _ => 1
  | .look, _ => 7
  | .claim _, _ => 6
  | .join _, _ => 2
  | .watch, false => 5
  | .watch, true => 2
  | .check, _ => 4
  | .withdraw, _ => 3
  | .clear _, _ => 1
  | .returned _, _ => 0

/-- What is left of the way to the end, counted so that the check of a call outside the slot, after which
there is nothing more, counts as much as two passes in the slot. -/
def Point.passesLeft : Point α → Bool → Nat
  | .clock, _ => 2
  | .look, _ => 2
  | .claim _, _ => 2
  | .join _, _ => 2
  | .watch, false => 2
  | .watch, true => 1
  | .check, _ => 1
  | .withdraw, _ => 1
  | .clear _, _ => 0
  | .returned _, _ => 0

theorem Point.stepsLeft_le (p : Point α) (j : Bool) : p.stepsLeft j ≤ 7 := by
  cases p <;> cases j <;> simp [stepsLeft]

theorem Point.passesLeft_le (p : Point α) (j : Bool) : p.passesLeft j ≤ 2 := by
  cases p <;> cases j <;> simp [passesLeft]

theorem Point.stepsLeft_mono (p : Point α) {j j' : Bool} (h : j = true → j' = true) :
    p.stepsLeft j' ≤ p.stepsLeft j := by
  cases p <;> cases j <;> cases j' <;> simp_all [stepsLeft]

theorem Point.passesLeft_mono (p : Point α) {j j' : Bool} (h : j = true → j' = true) :
    p.passesLeft j' ≤ p.passesLeft j := by
  cases p <;> cases j <;> cases j' <;> simp_all [passesLeft]

theorem Point.Late.steps {p : Point α} {j : Bool} {next : Option (Point α × Bool)} (h : p.Late j next) :
    (next.elim 0 fun q => q.1.stepsLeft q.2) + 1 ≤ p.stepsLeft j := by
  cases h <;> simp [Point.stepsLeft]

theorem Point.Late.passes {p : Point α} {j : Bool} {next : Option (Point α × Bool)} (h : p.Late j next) :
    (next.elim 0 fun q => q.1.passesLeft q.2) + 2 * (if p.checks then 1 else 0) +
      (if p.watches then 1 else 0) ≤ p.passesLeft j := by
  cases h <;> simp [Point.passesLeft, Point.checks, Point.watches]

theorem Point.Course.mono {p : Point α} {j j' : Bool} {l : List (Point α)} (hj : j = true → j' = true)
    (h : p.Course j' l) : p.Course j l := by
  cases h with
  | rest => exact .rest
  | last hj' hlate => exact .last (hj' ∘ hj) hlate
  | next hj' hlate hl => exact .next (hj' ∘ hj) hlate hl

theorem Point.Course.length_le {p : Point α} {j : Bool} {l : List (Point α)} (h : p.Course j l) :
    l.length ≤ p.stepsLeft j := by
  induction h with
  | rest => exact Nat.zero_le _
  | last hj hlate => exact Nat.le_trans hlate.steps (Point.stepsLeft_mono _ hj)
  | next hj hlate _ ih =>
    exact Nat.le_trans (Nat.le_trans (Nat.succ_le_succ ih) hlate.steps) (Point.stepsLeft_mono _ hj)

theorem Point.Course.passes_le {p : Point α} {j : Bool} {l : List (Point α)} (h : p.Course j l) :
    2 * l.countP (·.checks) + l.countP (·.watches) ≤ p.passesLeft j := by
  induction h with
  | rest => exact Nat.zero_le _
  | last hj hlate =>
    refine Nat.le_trans ?_ (Point.passesLeft_mono _ hj)
    simpa [List.countP_cons] using hlate.passes
  | next hj hlate _ ih =>
    refine Nat.le_trans ?_ (Point.passesLeft_mono _ hj)
    have hstep := hlate.passes
    rw [List.countP_cons, List.countP_cons]
    simp only [Option.elim_some] at hstep
    omega

/-- The check of its time outside the slot is the last step of a call that is out of time. -/
theorem Point.Course.check_is_last {p : Point α} {j : Bool} {l : List (Point α)} (h : p.Course j l) :
    l.dropLast.countP (·.checks) = 0 := by
  induction h with
  | rest => rfl
  | last _ _ => rfl
  | @next p j j' p' j'' l _ hlate _ ih =>
    cases l with
    | nil => rfl
    | cons q l =>
      rw [List.dropLast_cons_cons, List.countP_cons, ih]
      cases hlate <;> rfl

end Exchange

namespace Slot.Inv

variable {s : Slot α} {stage : Stage α} {parties : Parties α} {t now : Nat} {o : Option α}
  {x : Exchange α}

/-- Where a step of a call leads: to its next point, or to nothing more if the call is over. -/
def leadsTo (r : Exchange α × Slot α) : Option (Exchange.Point α × Bool) :=
  if r.1.over then none else some (r.1.point, r.1.joinedIn r.2)

section

variable (h : s.Inv stage parties) (ht : parties t = some ⟨o, x⟩)
include h ht

/-- A call that tries to put itself into the slot waits there, or goes back to the clock. -/
theorem late_claim {seen : Word} (hx : x.point = .claim seen) :
    (Exchange.Point.claim seen).Late (x.joinedIn s) (leadsTo (x.step now s)) := by
  simp only [Exchange.step, hx, compareAndSet?]
  by_cases hw : s.word = seen
  · simp only [hw, if_true]
    have hwaits : (Word.compose x.mine .waiting).state = .waiting :=
      Word.state_compose _ _ (h.aligned t _ ht)
    have hnot : (x.goto .watch).joinedIn { s with word := Word.compose x.mine .waiting } = false :=
      Exchange.not_joinedIn (by simp [hwaits])
    simp only [leadsTo, hnot]
    exact .claim
  · simp only [hw, if_false]
    exact .loseClaim

/-- A call that tries to leave the slot has left it, or finds that it has been joined. -/
theorem late_withdraw (hx : x.point = .withdraw) :
    (Exchange.Point.withdraw : Exchange.Point α).Late (x.joinedIn s) (leadsTo (x.step now s)) := by
  have hstate := h.writes.state h.aligned
  have hocc : x.inside = true → stage.occupant? = some t := (h.occupant t _ ht).1
  have hin : x.inside = true := by simp [Exchange.inside, hx]
  simp only [Exchange.step, hx, compareAndSet?]
  cases stage with
  | vacant => cases hocc hin
  | waiting u =>
    cases hocc hin
    obtain ⟨p, hp, hw⟩ := h.writes
    obtain rfl := Option.some.inj (ht.symm.trans hp)
    rw [Exchange.not_joinedIn (by simp [hstate])]
    simp only [hw, if_true]
    exact .withdraw
  | joined u theirs =>
    cases hocc hin
    have hb : s.word.state = .busy := hstate
    have hne : s.word ≠ Word.compose x.mine .waiting := fun hw => by
      rw [hw, Word.state_compose _ _ (h.aligned t _ ht)] at hb
      cases hb
    rw [Exchange.joinedIn_eq hin hb]
    simp only [hne, if_false]
    rw [leadsTo, Exchange.joinedIn_eq rfl hb]
    exact .loseWithdraw

/-- Each step of a call that is out of time is one of those. -/
theorem late (hlate : x.deadline < now) :
    x.point.Late (x.joinedIn s) (leadsTo (x.step now s)) := by
  cases hx : x.point with
  | clock =>
    simp only [Exchange.step, hx, if_pos hlate]
    exact .expire
  | look =>
    simp only [Exchange.step, hx]
    split
    · exact .findNobody
    · split
      · exact .findMatch
      · exact .findOthers
    · exact .findOthers
  | claim seen => exact h.late_claim ht hx
  | join seen =>
    simp only [Exchange.step, hx, compareAndSet?]
    by_cases hw : s.word = seen
    · simp only [hw, if_true]
      exact .join
    · simp only [hw, if_false]
      exact .loseJoin
  | watch =>
    have hin : x.inside = true := by simp [Exchange.inside, hx]
    simp only [Exchange.step, hx]
    split
    · next hb =>
      rw [Exchange.joinedIn_eq hin hb, leadsTo, Exchange.joinedIn_eq rfl hb]
      exact .findPartner
    · next hb =>
      rw [Exchange.not_joinedIn hb, leadsTo, Exchange.not_joinedIn hb]
      exact .watchOn
  | check =>
    have hin : x.inside = true := by simp [Exchange.inside, hx]
    have hsame : (x.goto .withdraw).joinedIn s = x.joinedIn s := by
      rw [Exchange.joinedIn, Exchange.joinedIn, hin]
      rfl
    simp only [Exchange.step, hx, if_pos hlate]
    rw [leadsTo, hsame]
    exact .readLate
  | withdraw => exact h.late_withdraw ht hx
  | clear a =>
    simp only [Exchange.step, hx]
    exact .clear
  | returned answer => simpa [Party.At, hx] using h.points t _ ht

end

end Slot.Inv

namespace Exchange

variable {x : Exchange α} {s : Slot α} {now : Nat}

theorem deadline_start (now : Nat) (timeout : Duration) (o : Option α) (a : Address) (s : Slot α) :
    (start now timeout o a s).1.deadline = min (now + timeout.toNanos) clockLimit :=
  deadlineAfter_eq now timeout

theorem point_start (now : Nat) (timeout : Duration) (o : Option α) (a : Address) (s : Slot α) :
    (start now timeout o a s).1.point = .clock :=
  rfl

theorem deadline_step (now : Nat) (x : Exchange α) (s : Slot α) :
    (x.step now s).1.deadline = x.deadline := by
  unfold step
  repeat' split
  all_goals rfl

/-- A call sets out to leave the slot only when it has read a clock beyond its deadline. -/
theorem check_of_withdraw (h : (x.step now s).1.point = .withdraw) :
    x.point = .check ∧ x.deadline < now := by
  cases hp : x.point with
  | check =>
    simp only [step, hp] at h
    split at h
    · next hlate => exact ⟨rfl, hlate⟩
    · cases h
  | returned answer => simp [step, hp] at h
  | _ =>
    simp only [step, hp] at h
    repeat' split at h
    all_goals cases h

/-- A call gives up when it reads a clock beyond its deadline, or leaves the slot. -/
theorem late_of_error {e : Timeout α} (h : (x.step now s).1.answer? = some (.error e))
    (hx : x.over = false) : (x.point = .clock ∧ x.deadline < now) ∨ x.point = .withdraw := by
  cases hp : x.point with
  | clock =>
    simp only [step, hp] at h
    split at h
    · next hlate => exact .inl ⟨rfl, hlate⟩
    · cases h
  | withdraw => exact .inr rfl
  | returned answer => simp [Exchange.over, answer?, hp] at hx
  | _ =>
    simp only [step, hp] at h
    repeat' split at h
    all_goals cases h

end Exchange

namespace Arena

/-- Whether an event is a step of the call `t`. -/
def Event.isStepOf (t : Nat) : Event α → Bool
  | .step u => u == t
  | _ => false

theorem eq_step_of_isStepOf {t : Nat} {e : Event α} (h : e.isStepOf t = true) : e = .step t := by
  cases e with
  | step u => rw [beq_iff_eq.1 h]
  | offer u place timeout o a => cases h
  | advance nanos => cases h

namespace History

namespace Inv

theorem not_over {h : History α} {stages : Nat → Stage α} (hi : h.Inv stages) {t : Nat} {v : Visit α}
    (hv : h.arena.flights.find? t = some v) : v.exchange.over = false := by
  obtain ⟨o, hvisit⟩ := hi.exists_visit hv
  have hat := (hi.row.slot v.place (hi.place_lt hv)).points t _ (Visits.callers_eq_some.2 hvisit)
  cases hp : v.exchange.point with
  | returned answer => simp [Party.At, hp] at hat
  | _ => simp [Exchange.over, Exchange.answer?, hp]

end Inv

variable {h : History α} {e : Event α} {capacity : Nat} {events : List (Event α)} {t now limit : Nat}
  {timeout : Duration} {v : Visit α}

/-! ## What becomes of a call -/

/-- What one event does to a call, to bring it to where it is then: the call begins, takes a step, or stays
where it was. -/
inductive Goes (h : History α) (t : Nat) (v : Visit α) : Event α → Prop
  | begins {place timeout o a} (new : h.offer? t = none)
      (start : v.exchange = (Exchange.start h.arena.clock timeout o a (h.arena.slot place)).1) :
      Goes h t v (.offer t place timeout o a)
  | steps {v'} (was : h.arena.flights.find? t = some v')
      (step : v.exchange = (v'.exchange.step h.arena.clock (h.arena.slot v'.place)).1) :
      Goes h t v (.step t)
  | stays {f} (was : h.arena.flights.find? t = some v) (aside : f.isStepOf t = false) : Goes h t v f

theorem goes (hv : (h.happen e).arena.flights.find? t = some v) : h.Goes t v e := by
  cases e with
  | offer u place timeout o a =>
    unfold happen at hv
    dsimp only at hv
    split at hv
    · next hg =>
      simp only [startAt, Flights.find?_insert] at hv
      split at hv
      · next ht =>
        subst ht
        cases hv
        exact .begins hg.1 rfl
      · exact .stays hv rfl
    · exact .stays hv rfl
  | step u =>
    rw [Inv.happen_step] at hv
    cases hu : h.arena.flights.find? u with
    | none =>
      rw [step_of_none hu] at hv
      refine .stays hv (beq_eq_false_iff_ne.2 ?_)
      rintro rfl
      cases hu.symm.trans hv
    | some v' =>
      simp only [find?_step hu] at hv
      split at hv
      · next ht =>
        subst ht
        split at hv
        · cases hv
        · cases hv
          exact .steps hu rfl
      · next ht => exact .stays hv (beq_eq_false_iff_ne.2 (Ne.symm ht))
  | advance nanos => exact .stays hv rfl

/-- A call that answers does so in a step of its own. -/
theorem returned_happen {a : ExchangeAnswer α} (ha : (t, a) ∈ (h.happen e).arena.returned) :
    (t, a) ∈ h.arena.returned ∨ e = .step t ∧ ∃ v, h.arena.flights.find? t = some v ∧
      (v.exchange.step h.arena.clock (h.arena.slot v.place)).1.answer? = some a := by
  cases e with
  | offer u place timeout o b =>
    unfold happen at ha
    dsimp only at ha
    split at ha <;> exact .inl ha
  | step u =>
    rw [Inv.happen_step] at ha
    cases hu : h.arena.flights.find? u with
    | none =>
      rw [step_of_none hu] at ha
      exact .inl ha
    | some v =>
      cases hx : v.exchange.step h.arena.clock (h.arena.slot v.place) with | mk x' s' => ?_
      cases hanswer : x'.answer? with
      | none =>
        rw [step_of_not_over hu hx (by simp [Exchange.over, hanswer])] at ha
        exact .inl ha
      | some b =>
        rw [step_of_answer hu hx hanswer] at ha
        rcases List.mem_cons.1 ha with he | ha
        · cases he
          exact .inr ⟨rfl, v, hu, by rw [hx, hanswer]⟩
        · exact .inl ha
  | advance nanos => exact .inl ha

theorem find?_aside (hk : ∃ o, h.offer? t = some o) (he : e.isStepOf t = false) :
    (h.happen e).arena.flights.find? t = h.arena.flights.find? t := by
  cases e with
  | offer u place timeout o a =>
    unfold happen
    dsimp only
    split
    · next hg =>
      have hne : t ≠ u := by
        rintro rfl
        obtain ⟨o, ho⟩ := hk
        simp [hg.1] at ho
      simp [startAt, Flights.find?_insert, hne]
    · rfl
  | step u =>
    have hne : t ≠ u := fun ht => by simp [Event.isStepOf, ht] at he
    rw [Inv.happen_step]
    cases hu : h.arena.flights.find? u with
    | none => rw [step_of_none hu]
    | some v => simp only [find?_step hu, if_neg hne]
  | advance nanos => rfl

/-! ## The clock -/

theorem clock_happen (h : History α) (e : Event α) :
    (h.happen e).arena.clock = h.arena.clock ∨
      ∃ nanos, (h.happen e).arena.clock = clockAfter h.arena.clock nanos := by
  cases e with
  | offer u place timeout o a =>
    unfold happen
    dsimp only
    split <;> exact .inl rfl
  | step u =>
    rw [Inv.happen_step]
    unfold Arena.step
    dsimp only
    split
    · exact .inl rfl
    · split <;> exact .inl rfl
  | advance nanos => exact .inr ⟨nanos, rfl⟩

/-- The clock never shows more than its last reading, and never less than before. -/
theorem clock_le_happen (h : History α) (hle : h.arena.clock ≤ clockLimit) (e : Event α) :
    h.arena.clock ≤ (h.happen e).arena.clock ∧ (h.happen e).arena.clock ≤ clockLimit := by
  rcases h.clock_happen e with he | ⟨nanos, he⟩
  · rw [he]
    exact ⟨Nat.le_refl _, hle⟩
  · rw [he, clockAfter]
    omega

theorem clock_le (capacity : Nat) (events : List (Event α)) :
    (run capacity events).arena.clock ≤ clockLimit := by
  induction events using List.reverseRecOn with
  | nil => exact Nat.zero_le _
  | append_singleton events e ih =>
    rw [run_snoc]
    exact (clock_le_happen _ ih e).2

theorem run_append (capacity : Nat) (events rest : List (Event α)) :
    run capacity (events ++ rest) = rest.foldl happen (run capacity events) := by
  rw [run, List.foldl_append, ← run]

theorem clock_mono {past : List (Event α)} (hp : past <+: events) :
    (run capacity past).arena.clock ≤ (run capacity events).arena.clock := by
  obtain ⟨rest, rfl⟩ := hp
  induction rest using List.reverseRecOn with
  | nil => simp
  | append_singleton rest e ih =>
    rw [← List.append_assoc, run_snoc]
    exact Nat.le_trans ih (clock_le_happen _ (clock_le ..) e).1

/-! ## Reading the clock -/

/-- The call has begun when the clock showed `now`, to wait for `timeout`. -/
def Began (capacity : Nat) (events : List (Event α)) (t now : Nat) (timeout : Duration) : Prop :=
  ∃ past place o a, past ++ [.offer t place timeout o a] <+: events ∧
    (run capacity past).arena.clock = now ∧ (run capacity past).offer? t = none ∧
    place < (run capacity past).arena.capacity ∧ ((run capacity past).arena.slot place).Usable a

/-- The call has read a clock beyond `limit`. -/
def ReadBeyond (capacity : Nat) (events : List (Event α)) (t limit : Nat) : Prop :=
  ∃ past, past ++ [.step t] <+: events ∧
    ∃ v, (run capacity past).arena.flights.find? t = some v ∧ v.exchange.point.readsClock = true ∧
      limit < (run capacity past).arena.clock

theorem ReadBeyond.mono (hr : ReadBeyond capacity events t limit) (e : Event α) :
    ReadBeyond capacity (events ++ [e]) t limit := by
  obtain ⟨past, hp, h⟩ := hr
  exact ⟨past, hp.trans (List.prefix_append ..), h⟩

theorem ReadBeyond.here (hv : (run capacity events).arena.flights.find? t = some v)
    (hx : v.exchange.point.readsClock = true) (hlate : limit < (run capacity events).arena.clock) :
    ReadBeyond capacity (events ++ [.step t]) t limit :=
  ⟨events, List.prefix_rfl, v, hv, hx, hlate⟩

theorem ReadBeyond.lt_clock (hr : ReadBeyond capacity events t limit) :
    limit < (run capacity events).arena.clock := by
  obtain ⟨past, hp, v, -, -, hlate⟩ := hr
  exact Nat.lt_of_lt_of_le hlate (clock_mono ((List.prefix_append ..).trans hp))

theorem began_snoc (hb : Began capacity (events ++ [e]) t now timeout) :
    Began capacity events t now timeout ∨
      (run capacity events).arena.clock = now ∧ (run capacity events).offer? t = none ∧
        ∃ place o a, e = .offer t place timeout o a ∧
          ((run capacity events).happen e).offer? t = some o := by
  obtain ⟨past, place, o, a, hp, hclock, hnew, hplace, husable⟩ := hb
  rcases List.prefix_concat_iff.1 hp with he | hp
  · obtain ⟨rfl, hlast⟩ := List.append_inj' he rfl
    obtain rfl := List.head_eq_of_cons_eq hlast
    refine .inr ⟨hclock, hnew, place, o, a, rfl, ?_⟩
    rw [happen, if_pos ⟨hnew, hplace, husable⟩]
    simp [offer?]
  · exact .inl ⟨past, place, o, a, hp, hclock, hnew, hplace, husable⟩

theorem Began.known (hb : Began capacity events t now timeout) :
    ∃ o, (run capacity events).offer? t = some o := by
  induction events using List.reverseRecOn with
  | nil =>
    obtain ⟨past, place, o, a, hp, -⟩ := hb
    simp at hp
  | append_singleton events e ih =>
    rw [run_snoc]
    rcases began_snoc hb with hb | ⟨-, -, place, o, a, -, ho⟩
    · obtain ⟨o, ho⟩ := ih hb
      exact ⟨o, offer?_happen ho e⟩
    · exact ⟨o, ho⟩

/-- The deadline of a call is its timeout after its beginning, or the last reading of the clock. -/
theorem Began.deadline (hb : Began capacity events t now timeout)
    (hv : (run capacity events).arena.flights.find? t = some v) :
    v.exchange.deadline = min (now + timeout.toNanos) clockLimit := by
  induction events using List.reverseRecOn generalizing v with
  | nil => cases hv
  | append_singleton events e ih =>
    obtain ⟨stages, hi⟩ := run_inv capacity events
    rw [run_snoc] at hv
    rcases began_snoc hb with hb' | ⟨rfl, hnew, place, o, a, rfl, -⟩
    · obtain ⟨o, ho⟩ := hb'.known
      cases goes hv with
      | begins hnew => simp [hnew] at ho
      | steps hv' hx => rw [hx, Exchange.deadline_step, ih hb' hv']
      | stays hv' => exact ih hb' hv'
    · cases goes hv with
      | begins _ hx => rw [hx, Exchange.deadline_start]
      | stays hv' =>
        obtain ⟨o', ho'⟩ := hi.known t v hv'
        simp [hnew] at ho'

/-- A call that is about to leave the slot for want of time has read a clock beyond its deadline. -/
theorem readBeyond_of_withdraw (hv : (run capacity events).arena.flights.find? t = some v)
    (hx : v.exchange.point = .withdraw) : ReadBeyond capacity events t v.exchange.deadline := by
  induction events using List.reverseRecOn generalizing v with
  | nil => cases hv
  | append_singleton events e ih =>
    rw [run_snoc] at hv
    cases goes hv with
    | begins _ hstart =>
      rw [hstart, Exchange.point_start] at hx
      cases hx
    | @steps v' hv' hstep =>
      rw [hstep] at hx
      obtain ⟨hcheck, hlate⟩ := Exchange.check_of_withdraw hx
      rw [hstep, Exchange.deadline_step]
      exact .here hv' (by rw [hcheck]; rfl) hlate
    | stays hv' => exact (ih hv' hx).mono e

/-- A call that has given up has read a clock beyond its deadline. -/
theorem readBeyond_of_error {e : Timeout α} (hb : Began capacity events t now timeout)
    (he : (t, .error e) ∈ (run capacity events).arena.returned) :
    ReadBeyond capacity events t (min (now + timeout.toNanos) clockLimit) := by
  induction events using List.reverseRecOn with
  | nil => cases he
  | append_singleton events f ih =>
    obtain ⟨stages, hi⟩ := run_inv capacity events
    rw [run_snoc] at he
    rcases returned_happen he with he | ⟨rfl, v, hv, hanswer⟩
    · rcases began_snoc hb with hb | ⟨-, hnew, -⟩
      · exact (ih hb he).mono f
      · -- a call that begins has not returned
        obtain ⟨o, ho⟩ := hi.offer_of_answers (hi.answered t _ he).2
        simp [hnew] at ho
    · rcases began_snoc hb with hb | ⟨-, -, place, o, a, hf, -⟩
      · rcases Exchange.late_of_error hanswer (hi.not_over hv) with ⟨hclock, hlate⟩ | hwithdraw
        · exact .here hv (by rw [hclock]; rfl) (hb.deadline hv ▸ hlate)
        · exact hb.deadline hv ▸ (readBeyond_of_withdraw hv hwithdraw).mono _
      · cases hf

/-! ## Out of time -/

/-- The point at which an event finds the call `t`, if it is a step of it. -/
def pointAt (h : History α) (t : Nat) (e : Event α) : Option (Exchange.Point α) :=
  if e.isStepOf t then (h.arena.flights.find? t).map (·.exchange.point) else none

/-- The points at which the call `t` makes its steps along a run. -/
def trail (t : Nat) (h : History α) : List (Event α) → List (Exchange.Point α)
  | [] => []
  | e :: rest => (h.pointAt t e).toList ++ trail t (h.happen e) rest

theorem trail_append (t : Nat) (h : History α) (events rest : List (Event α)) :
    trail t h (events ++ rest) = trail t h events ++ trail t (events.foldl happen h) rest := by
  induction events generalizing h with
  | nil => rfl
  | cons e events ih => simp [trail, ih]

theorem gone (hk : ∃ o, h.offer? t = some o) (hv : h.arena.flights.find? t = none) (e : Event α) :
    (h.happen e).arena.flights.find? t = none := by
  cases hv' : (h.happen e).arena.flights.find? t with
  | none => rfl
  | some v =>
    obtain ⟨o, ho⟩ := hk
    rcases find?_happen hv' with hnew | ⟨v', hwas, -⟩
    · simp [hnew] at ho
    · simp [hv] at hwas

theorem gone_foldl (hk : ∃ o, h.offer? t = some o) (hv : h.arena.flights.find? t = none)
    (rest : List (Event α)) : (rest.foldl happen h).arena.flights.find? t = none := by
  induction rest generalizing h with
  | nil => exact hv
  | cons e rest ih =>
    obtain ⟨o, ho⟩ := hk
    exact ih ⟨o, offer?_happen ho e⟩ (gone ⟨o, ho⟩ hv e)

theorem trail_of_gone (hk : ∃ o, h.offer? t = some o) (hv : h.arena.flights.find? t = none)
    (rest : List (Event α)) : trail t h rest = [] := by
  induction rest generalizing h with
  | nil => rfl
  | cons e rest ih =>
    obtain ⟨o, ho⟩ := hk
    rw [trail, ih ⟨o, offer?_happen ho e⟩ (gone ⟨o, ho⟩ hv e)]
    simp [pointAt, hv]

theorem offer?_foldl {o : Option α} (ho : h.offer? t = some o) (rest : List (Event α)) :
    (rest.foldl happen h).offer? t = some o := by
  induction rest generalizing h with
  | nil => exact ho
  | cons e rest ih => exact ih (offer?_happen ho e)

/-- While a call is in flight, each of its steps leaves its point in the trail. -/
theorem length_trail (hk : ∃ o, h.offer? t = some o) {rest : List (Event α)}
    (hv : (rest.foldl happen h).arena.flights.find? t = some v) :
    (trail t h rest).length = rest.countP (·.isStepOf t) := by
  induction rest generalizing h with
  | nil => rfl
  | cons e rest ih =>
    obtain ⟨o, ho⟩ := hk
    rw [trail, List.length_append, ih ⟨o, offer?_happen ho e⟩ hv, List.countP_cons, Nat.add_comm]
    congr 1
    unfold pointAt
    split
    · cases hnow : h.arena.flights.find? t with
      | some v' => rfl
      | none => cases (gone_foldl ⟨o, ho⟩ hnow (e :: rest)).symm.trans hv
    · rfl

namespace Inv

variable {stages : Nat → Stage α}

theorem joined_aside (hi : h.Inv stages) (hv : h.arena.flights.find? t = some v)
    (he : e.isStepOf t = false) (hj : v.exchange.joinedIn (h.arena.slot v.place) = true) :
    v.exchange.joinedIn ((h.happen e).arena.slot v.place) = true := by
  simp only [Exchange.joinedIn, Bool.and_eq_true, decide_eq_true_eq] at hj
  obtain ⟨hin, hb⟩ := hj
  by_cases hw : ((h.happen e).arena.slot v.place).word = (h.arena.slot v.place).word
  · exact Exchange.joinedIn_eq hin (hw ▸ hb)
  · -- only the call in the slot, which is this one, takes it out of that state
    obtain ⟨u, rfl, hu⟩ := hi.leaves hb e hw
    have hp := hi.place_lt hv
    have hocc := (hi.inside_iff hp).1 ⟨v, hv, rfl, hin⟩
    obtain rfl := Option.some.inj (hocc.symm.trans ((hi.inside_iff hp).1 hu))
    simp [Event.isStepOf] at he

/-- Whatever happens, a call that is out of time makes no other steps than those of a course. -/
theorem course (hi : h.Inv stages) (hle : h.arena.clock ≤ clockLimit)
    (hv : h.arena.flights.find? t = some v) (hlate : v.exchange.deadline < h.arena.clock)
    (rest : List (Event α)) :
    v.exchange.point.Course (v.exchange.joinedIn (h.arena.slot v.place)) (trail t h rest) := by
  -- along the run, as the clock stays beyond the deadline
  induction rest generalizing h stages v with
  | nil => exact .rest
  | cons e rest ih =>
    obtain ⟨stages', hi'⟩ := hi.happen e
    obtain ⟨hge, hle'⟩ := h.clock_le_happen hle e
    obtain ⟨o, ho⟩ := hi.known t v hv
    cases he : e.isStepOf t with
    | false =>
      have hv' : (h.happen e).arena.flights.find? t = some v := (find?_aside ⟨o, ho⟩ he).trans hv
      have htrail : trail t h (e :: rest) = trail t (h.happen e) rest := by simp [trail, pointAt, he]
      rw [htrail]
      exact (ih hi' hle' hv' (Nat.lt_of_lt_of_le hlate hge)).mono (hi.joined_aside hv he)
    | true =>
      obtain rfl : e = .step t := eq_step_of_isStepOf he
      have hp := hi.place_lt hv
      have hlate' := (hi.row.slot v.place hp).late
        (Visits.callers_eq_some.2 (visits_of_find? hv ho)) hlate
      have htrail : trail t h (.step t :: rest) =
          v.exchange.point :: trail t (h.happen (.step t)) rest := by simp [trail, pointAt, he, hv]
      have hfind : (h.happen (.step t)).arena.flights.find? t = _ := find?_step hv t
      have hslot : (h.happen (.step t)).arena.slot v.place = _ := slot_step hv hp v.place
      rw [htrail]
      rw [if_pos rfl] at hfind hslot
      cases hx : v.exchange.step h.arena.clock (h.arena.slot v.place) with | mk x' s' => ?_
      rw [hx] at hfind hslot
      rw [show h.arena.slot v.place = h.arena.slots.getD v.place {} from rfl] at hx
      rw [hx] at hlate'
      cases hover : x'.over with
      | true =>
        rw [trail_of_gone ⟨o, offer?_happen ho (.step t)⟩ (hfind.trans (if_pos hover))]
        rw [Slot.Inv.leadsTo, if_pos hover] at hlate'
        exact .last id hlate'
      | false =>
        have hv' : (h.happen (.step t)).arena.flights.find? t = some { v with exchange := x' } :=
          hfind.trans (if_neg (by simp [hover]))
        have hdeadline : x'.deadline = v.exchange.deadline := by
          rw [← Exchange.deadline_step h.arena.clock v.exchange, hx]
        have hrest := ih hi' hle' hv' (by simp only [hdeadline]; omega)
        rw [Slot.Inv.leadsTo, if_neg (by simp [hover])] at hlate'
        refine .next id hlate' ?_
        rw [← hslot]
        exact hrest

/-- A call that is out of time is over after seven steps of its own. -/
theorem ends (hi : h.Inv stages) (hle : h.arena.clock ≤ clockLimit)
    (hv : h.arena.flights.find? t = some v) (hlate : v.exchange.deadline < h.arena.clock)
    (rest : List (Event α)) (hrest : 7 ≤ rest.countP (·.isStepOf t)) :
    ∃ a, (t, a) ∈ (rest.foldl History.happen h).arena.returned := by
  obtain ⟨o, ho⟩ := hi.known t v hv
  obtain ⟨stages', hi'⟩ := hi.foldl rest
  cases hend : (rest.foldl History.happen h).arena.flights.find? t with
  | none => exact hi'.settled t o (offer?_foldl ho rest) hend
  | some v' =>
    -- with one more step it would have made eight
    have hlength := (hi.course hle hv hlate (rest ++ [.step t])).length_le
    have hseven := v.exchange.point.stepsLeft_le (v.exchange.joinedIn (h.arena.slot v.place))
    have hmade := length_trail ⟨o, ho⟩ hend
    have hone : (trail t (rest.foldl History.happen h) [.step t]).length = 1 := by
      simp [trail, pointAt, Event.isStepOf, hend]
    rw [trail_append, List.length_append, hmade, hone] at hlength
    omega

theorem joined_foldl (hi : h.Inv stages) (hv : h.arena.flights.find? t = some v)
    (hj : v.exchange.joinedIn (h.arena.slot v.place) = true) {rest : List (Event α)}
    (hrest : ∀ e ∈ rest, e.isStepOf t = false) :
    (rest.foldl History.happen h).arena.flights.find? t = some v ∧
      v.exchange.joinedIn ((rest.foldl History.happen h).arena.slot v.place) = true := by
  induction rest generalizing h stages with
  | nil => exact ⟨hv, hj⟩
  | cons e rest ih =>
    have he := hrest e (List.mem_cons_self ..)
    obtain ⟨stages', hi'⟩ := hi.happen e
    exact ih hi' ((find?_aside (hi.known t v hv) he).trans hv) (hi.joined_aside hv he hj)
      fun f hf => hrest f (List.mem_cons_of_mem _ hf)

/-- A call that cannot withdraw looks at the slot next, and finds its partner there. -/
theorem finds_partner (hi : h.Inv stages) (hv : h.arena.flights.find? t = some v)
    (hx : v.exchange.point = .withdraw) (hfail : (h.arena.slot v.place).compareAndSet?
      (Word.compose v.exchange.mine .waiting) Word.empty = none) {rest : List (Event α)}
    (hrest : ∀ e ∈ rest, e.isStepOf t = false) :
    ∃ v', (rest.foldl History.happen (h.happen (.step t))).arena.flights.find? t = some v' ∧
      v'.place = v.place ∧ v'.exchange.point = .watch ∧
      ((rest.foldl History.happen (h.happen (.step t))).arena.slot v.place).word.state = .busy := by
  obtain ⟨stages', hi'⟩ := hi.happen (.step t)
  have hb := (hi.withdraws hv hx hfail).1
  have hstep : v.exchange.step h.arena.clock (h.arena.slot v.place) =
      (v.exchange.goto .watch, h.arena.slot v.place) := by
    simp only [Exchange.step, hx, hfail]
  have hfind : (h.happen (.step t)).arena.flights.find? t =
      some { v with exchange := v.exchange.goto .watch } := by
    refine (find?_step hv t).trans ?_
    rw [if_pos rfl, hstep]
    rfl
  have hslot : (h.happen (.step t)).arena.slot v.place = h.arena.slot v.place := by
    refine (slot_step hv (hi.place_lt hv) v.place).trans ?_
    rw [if_pos rfl, hstep]
  obtain ⟨hv', hj⟩ := hi'.joined_foldl hfind (Exchange.joinedIn_eq rfl (by rw [hslot, hb])) hrest
  simp only [Exchange.joinedIn, Bool.and_eq_true, decide_eq_true_eq] at hj
  exact ⟨_, hv', rfl, rfl, hj.2⟩

end Inv

/-- When a call gives up that began when the clock showed `now`, to wait for `timeout`, and what is left
to it then. -/
structure KeepsTime (capacity : Nat) (events : List (Event α)) (t now : Nat) (timeout : Duration) :
    Prop where
  /-- It gives up only after it has read a clock beyond its deadline, -/
  expired : ∀ e, (t, .error e) ∈ (run capacity events).arena.returned →
    ReadBeyond capacity events t (min (now + timeout.toNanos) clockLimit)
  /-- and never if the deadline is the last reading that the clock can show. -/
  never : clockLimit ≤ now + timeout.toNanos →
    ∀ e, (t, .error e) ∉ (run capacity events).arena.returned
  /-- Once the clock is beyond its deadline, it returns within seven further steps of its own, -/
  ends : min (now + timeout.toNanos) clockLimit < (run capacity events).arena.clock → ∀ rest,
    7 ≤ rest.countP (·.isStepOf t) → ∃ a, (t, a) ∈ (run capacity (events ++ rest)).arena.returned
  /-- in which it either stays outside the slot, and the next check of its time is its last step, or
  goes through at most two passes in the slot. -/
  passes : min (now + timeout.toNanos) clockLimit < (run capacity events).arena.clock → ∀ rest,
    let points := trail t (run capacity events) rest
    points.dropLast.countP (·.checks) = 0 ∧ points.countP (·.watches) = 0 ∨
      points.countP (·.checks) = 0 ∧ points.countP (·.watches) ≤ 2
  /-- If it cannot withdraw, its next step is a look that finds its partner. -/
  joined : ∀ v, (run capacity events).arena.flights.find? t = some v → v.exchange.point = .withdraw →
    ((run capacity events).arena.slot v.place).compareAndSet?
      (Word.compose v.exchange.mine .waiting) Word.empty = none →
    ∀ rest, (∀ e ∈ rest, e.isStepOf t = false) →
      ∃ v', (run capacity (events ++ .step t :: rest)).arena.flights.find? t = some v' ∧
        v'.place = v.place ∧ v'.exchange.point = .watch ∧
        ((run capacity (events ++ .step t :: rest)).arena.slot v.place).word.state = .busy

/-- Whatever other calls do, a call gives up only when its time is over, and soon returns when it is. -/
theorem keeps_time (hb : Began capacity events t now timeout) :
    KeepsTime capacity events t now timeout := by
  obtain ⟨stages, hi⟩ := run_inv capacity events
  obtain ⟨o, ho⟩ := hb.known
  have hle := clock_le capacity events
  refine ⟨fun e he => readBeyond_of_error hb he, ?_, ?_, ?_, ?_⟩
  · intro hlimit e he
    have hlate := (readBeyond_of_error hb he).lt_clock
    omega
  · intro hlate rest hrest
    rw [run_append]
    cases hv : (run capacity events).arena.flights.find? t with
    | none =>
      obtain ⟨stages', hi'⟩ := hi.foldl rest
      exact hi'.settled t o (offer?_foldl ho rest) (gone_foldl ⟨o, ho⟩ hv rest)
    | some v => exact hi.ends hle hv (hb.deadline hv ▸ hlate) rest hrest
  · intro hlate rest
    cases hv : (run capacity events).arena.flights.find? t with
    | none => simp [trail_of_gone ⟨o, ho⟩ hv rest]
    | some v =>
      have hcourse := hi.course hle hv (hb.deadline hv ▸ hlate) rest
      have htwo := v.exchange.point.passesLeft_le
        (v.exchange.joinedIn ((run capacity events).arena.slot v.place))
      have hpasses := hcourse.passes_le
      have hcheck := hcourse.check_is_last
      dsimp only
      omega
  · intro v hv hx hfail rest hrest
    rw [run_append]
    exact hi.finds_partner hv hx hfail hrest

/-- The clock is beyond the deadline of a push, and the push is about to withdraw, when a pop joins it. -/
theorem joined_push_keeps_time :
    let events : List (Event Nat) := [.offer 1 0 ⟨0, 5, by decide⟩ (some 7) 64, .step 1, .step 1, .step 1,
      .offer 2 0 ⟨0, 5, by decide⟩ none 128, .step 2, .step 2, .step 1, .advance 6, .step 1, .step 2]
    let h := run 1 events
    Began 1 events 1 0 ⟨0, 5, by decide⟩ ∧ KeepsTime 1 events 1 0 ⟨0, 5, by decide⟩ ∧
      (∃ v, h.arena.flights.find? 1 = some v ∧ v.exchange.deadline < h.arena.clock ∧
        v.exchange.point = .withdraw ∧ (h.arena.slot v.place).compareAndSet?
          (Word.compose v.exchange.mine .waiting) Word.empty = none) ∧
      h.pairs = [(1, 2)] :=
  have began := ⟨[], 0, some 7, 64, ⟨_, rfl⟩, rfl, rfl, by decide, by decide⟩
  ⟨began, keeps_time began, ⟨_, rfl, by decide, rfl, rfl⟩, rfl⟩

end History

end Arena

end BackoffStack
