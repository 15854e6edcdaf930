/-
An elimination-backoff stack is linearizable.

Whatever calls any threads make, in whatever order these take their steps, and whoever loses an attempt at
the top: what callers see is what a sequential stack can do (`World.linearizable`). A call takes effect when
its attempt at the top goes through. A call that meets a partner in a slot takes effect together with it,
when one joins the other; the one that was joined learns of it only later, and is done meanwhile without
knowing. A call that breaks off inside an attempt has taken effect if it has a value by then, but never
returns.
-/
import BackoffStack.Proofs.Elimination.Runs
import BackoffStack.Proofs.Treiber.Attempts

namespace BackoffStack

variable {α : Type}

/-- The offer that a call has in hand while it is not in a slot. -/
def Call.Point.offer? : Call.Point α → Option (Option α)
  | .enter offer | .attempt offer | .visit offer => some offer
  | .meeting _ _ | .leave _ | .stuck _ _ => none

/-- A call under way, and how far it has come for its caller. -/
inductive Call.Agrees (stages : Nat → Stage α) (t : Nat) : Option (Call α) → Phase α → Prop
  | idle : Agrees stages t none .idle
  | before {c o} : c.kind = kindOf o → c.point.offer? = some o →
      Agrees stages t (some c) (.pending o)
  | waits {c o place x} : c.kind = kindOf o → c.point = .meeting place x →
      ¬ (stages place).Met t → Agrees stages t (some c) (.pending o)
  | joined {c o place x theirs} : c.kind = kindOf o → c.point = .meeting place x →
      stages place = .joined t theirs → Agrees stages t (some c) (.done o (.met theirs))
  | leaves {c o outcome} : c.point = .leave outcome → Agrees stages t (some c) (.done o outcome)
  | stuck {c o why} : c.point = .stuck why none → Agrees stages t (some c) (.pending o)
  | loses {c o why v} : c.point = .stuck why (some v) → Agrees stages t (some c) (.done o (.popped v))

namespace Call.Agrees

variable {stages stages' : Nat → Stage α} {t place : Nat} {c : Call α} {c? : Option (Call α)}
  {p : Phase α} {x : Exchange α}

theorem of_meeting (h : Agrees stages t (some c) p) (hc : c.point = .meeting place x) :
    ∃ o, c.kind = kindOf o ∧ p.offer? = some o ∧
      ((¬ (stages place).Met t ∧ p = .pending o) ∨
        ∃ theirs, stages place = .joined t theirs ∧ p = .done o (.met theirs)) := by
  cases h with
  | before _ hp => simp [hc, Point.offer?] at hp
  | waits hk hp hm =>
    cases hc.symm.trans hp
    exact ⟨_, hk, rfl, .inl ⟨hm, rfl⟩⟩
  | joined hk hp hj =>
    cases hc.symm.trans hp
    exact ⟨_, hk, rfl, .inr ⟨_, hj, rfl⟩⟩
  | leaves hp => simp [hc] at hp
  | stuck hp => simp [hc] at hp
  | loses hp => simp [hc] at hp

theorem of_offer? {o : Option α} (h : Agrees stages t (some c) p) (hc : c.point.offer? = some o) :
    c.kind = kindOf o ∧ p = .pending o := by
  cases h with
  | before hk hp =>
    cases hc.symm.trans hp
    exact ⟨hk, rfl⟩
  | waits _ hp _ => simp [hp, Point.offer?] at hc
  | joined _ hp _ => simp [hp, Point.offer?] at hc
  | leaves hp => simp [hp, Point.offer?] at hc
  | stuck hp => simp [hp, Point.offer?] at hc
  | loses hp => simp [hp, Point.offer?] at hc

theorem of_none (h : Agrees stages t none p) : p = .idle := by
  cases h with
  | idle => rfl

theorem isSome_iff (h : Agrees stages t c? p) : c?.isSome = true ↔ p ≠ .idle := by
  cases h <;> simp

theorem of_leave {outcome : Outcome α} (h : Agrees stages t (some c) p)
    (hc : c.point = .leave outcome) : ∃ o, p = .done o outcome := by
  cases h with
  | before _ hp => simp [hc, Point.offer?] at hp
  | waits _ hp _ => simp [hc] at hp
  | joined _ hp _ => simp [hc] at hp
  | leaves hp =>
    cases hc.symm.trans hp
    exact ⟨_, rfl⟩
  | stuck hp => simp [hc] at hp
  | loses hp => simp [hc] at hp

/-- Only a call that has been joined depends on the stage of a slot. -/
theorem congr (h : Agrees stages t c? p)
    (hs : ∀ q theirs, stages' q = .joined t theirs ↔ stages q = .joined t theirs) :
    Agrees stages' t c? p := by
  cases h with
  | idle => exact .idle
  | before hk hp => exact .before hk hp
  | waits hk hp hm => exact .waits hk hp fun ⟨theirs, h⟩ => hm ⟨theirs, (hs _ _).1 h⟩
  | joined hk hp hj => exact .joined hk hp ((hs _ _).2 hj)
  | leaves hp => exact .leaves hp
  | stuck hp => exact .stuck hp
  | loses hp => exact .loses hp

end Call.Agrees

namespace World

variable {w w' : World α} {g g' : Lifo α} {stages stages' : Nat → Stage α} {t place : Nat}
  {c c' : Call α} {o : Option α} {x x' : Exchange α} {s' : Slot α}

/-- The calls that visit a slot, with their offers. -/
def visits (w : World α) (g : Lifo α) : Visits α := fun t =>
  (w.visit? t).bind fun v => (g.phases t).offer?.map fun o => (v.1, ⟨o, v.2⟩)

/-- A world in order, and the sequential stack that its callers see. -/
structure Inv (w : World α) (g : Lifo α) (stages : Nat → Stage α) : Prop where
  ready : w.stack.stack.Ready
  content : g.content = w.stack.stack.values
  row : Row.Inv w.stack.slots stages (w.visits g)
  room : 0 < w.stack.slots.length
  agrees : ∀ t, Call.Agrees stages t (w.flights.find? t) (g.phases t)

/-- Nothing has changed that calls depend on. -/
structure Untouched (w w' : World α) : Prop where
  flights : w'.flights = w.flights
  slots : w'.stack.slots = w.stack.slots
  ready : w.stack.stack.Ready → w'.stack.stack.Ready
  values : w'.stack.stack.values = w.stack.stack.values

/-! ## Parts of steps -/

theorem untouched_ownPolicy (w : World α) (t : Nat) : w.Untouched (w.ownPolicy t).2.2 := by
  unfold ownPolicy
  split <;> exact ⟨rfl, rfl, id, rfl⟩

theorem conclude_error_eq (w : World α) (t : Nat) (hk : c.kind = Call.kindOf o) :
    w.conclude t c (.error ⟨o⟩) =
      ((w.count Stats.exchangeTimeout).report t
        [.exchangeTimedOut c.kind c.policy.recordTimeout.range]).continueAs t
          { c with policy := c.policy.recordTimeout, point := .attempt o } := by
  unfold conclude
  cases hc : c.kind <;> simp only [if_pos (hk.symm.trans hc)]

theorem conclude_error (w : World α) (t : Nat) (hk : c.kind = Call.kindOf o) :
    ∃ w' c', w.Untouched w' ∧ w.conclude t c (.error ⟨o⟩) = w'.continueAs t c' ∧
      c'.kind = c.kind ∧ c'.point = .attempt o := by
  refine ⟨_, _, ?_, w.conclude_error_eq t hk, rfl, rfl⟩
  exact ⟨rfl, rfl, id, rfl⟩

theorem conclude_ok (w : World α) (t : Nat) (hk : c.kind = Call.kindOf o) {theirs : Option α}
    (ho : theirs.isSome = !o.isSome) :
    ∃ w' c', w.Untouched w' ∧ w.conclude t c (.ok theirs) = w'.continueAs t c' ∧
      c'.point = .leave (.met theirs) := by
  unfold conclude
  cases o with
  | none =>
    obtain ⟨v, rfl⟩ := Option.isSome_iff_exists.1 ho
    rw [hk]
    exact ⟨w.count Stats.eliminatedPop, _, ⟨rfl, rfl, id, rfl⟩, rfl, rfl⟩
  | some v =>
    obtain rfl : theirs = none := by simpa using ho
    rw [hk]
    exact ⟨w.count Stats.eliminatedPush, _, ⟨rfl, rfl, id, rfl⟩, rfl, rfl⟩

/-! ## Steps outside the slots -/

namespace Inv

theorem visit?_of_point {p : Call.Point α} (hc : w.flights.find? t = some c) (hp : c.point = p)
    (hm : ∀ place x, p ≠ .meeting place x) : w.visit? t = none := by
  unfold visit?
  rw [hc]
  dsimp only
  rw [hp]
  split
  · exact absurd rfl (hm _ _)
  · rfl

theorem visit?_eq_some : w.visit? t = some (place, x) ↔
    ∃ c, w.flights.find? t = some c ∧ c.point = .meeting place x := by
  unfold visit?
  cases hc : w.flights.find? t with
  | none => simp
  | some c =>
    cases hp : c.point <;> simp [hp]

theorem visit?_congr {u : Nat} (h : w'.flights.find? u = w.flights.find? u) :
    w'.visit? u = w.visit? u := by
  unfold visit?
  rw [h]

theorem turn (hi : w.Inv g stages) (hslots : w'.stack.slots = w.stack.slots)
    (hready : w'.stack.stack.Ready) (hcontent : g'.content = w'.stack.stack.values)
    (hfind : ∀ u, u ≠ t → w'.flights.find? u = w.flights.find? u)
    (hphases : ∀ u, u ≠ t → g'.phases u = g.phases u) (hv : w.visit? t = none)
    (hv' : w'.visit? t = none)
    (ha : Call.Agrees stages t (w'.flights.find? t) (g'.phases t)) : w'.Inv g' stages := by
  have hvisits : w'.visits g' = w.visits g := by
    funext u
    by_cases hu : u = t
    · simp [visits, hu, hv, hv']
    · simp [visits, visit?_congr (hfind u hu), hphases u hu]
  refine ⟨hready, hcontent, by rw [hslots, hvisits]; exact hi.row, hslots ▸ hi.room, fun u => ?_⟩
  by_cases hu : u = t
  · exact hu ▸ ha
  · rw [hfind u hu, hphases u hu]
    exact hi.agrees u

/-- Neither a call nor the stack takes notice. -/
theorem untouched (hi : w.Inv g stages) (hw : w.Untouched w') : w'.Inv g stages := by
  have hvisits : w'.visits g = w.visits g := by
    funext u
    have hu : w'.visit? u = w.visit? u := visit?_congr (by rw [hw.flights])
    simp [visits, hu]
  exact ⟨hw.ready hi.ready, hi.content.trans hw.values.symm,
    by rw [hw.slots, hvisits]; exact hi.row, hw.slots ▸ hi.room, fun u => hw.flights ▸ hi.agrees u⟩

theorem new (c : Config) : ({ stack := .ofConfig c } : World α).Inv {} fun _ => .vacant where
  ready := .new ..
  content := rfl
  row := .new _
  room := by simp [EliminationStack.ofConfig]
  agrees _ := .idle

/-- A call that has its offer in hand goes on as `c'`, and has it in hand still. -/
theorem carry (hi : w.Inv g stages) (hc : w.flights.find? t = some c) (hp : c.point.offer? = some o)
    (hw : w.Untouched w') (hk : c'.kind = c.kind) (hp' : c'.point.offer? = some o) :
    (w'.continueAs t c').Inv g stages := by
  have hnot : ∀ {p : Call.Point α}, p.offer? = some o → ∀ place x, p ≠ .meeting place x := by
    rintro p hp place x rfl
    cases hp
  obtain ⟨hkind, hphase⟩ := (hc ▸ hi.agrees t).of_offer? hp
  have hself : (w'.continueAs t c').flights.find? t = some c' := by
    rw [find?_continueAs, if_pos rfl]
  refine hi.turn hw.slots (hw.ready hi.ready) (hi.content.trans hw.values.symm) (fun u hu => ?_)
    (fun _ _ => rfl) (visit?_of_point hc rfl (hnot hp)) (visit?_of_point hself rfl (hnot hp')) ?_
  · rw [find?_continueAs, if_neg hu, hw.flights]
  · rw [hself, hphase]
    exact .before (hk.trans hkind) hp'

theorem enter (hi : w.Inv g stages) (hc : w.flights.find? t = some c) (hp : c.point = .enter o) :
    (w.enter t c o).Inv g stages := by
  exact hi.carry hc (by rw [hp]; rfl) (w.untouched_ownPolicy t) rfl rfl

/-- A call that has its offer in hand goes on outside the slots, in whatever phase it is then. -/
theorem proceed (hi : w.Inv g stages) (hc : w.flights.find? t = some c) (hp : c.point.offer? = some o)
    (hflights : w'.flights = w.flights.insert t c') (hslots : w'.stack.slots = w.stack.slots)
    (hready : w'.stack.stack.Ready) (hnot : ∀ place x, c'.point ≠ .meeting place x) {p : Phase α}
    (ha : Call.Agrees stages t (some c') p) (hphases : g'.phases = (g.goto t p).phases)
    (hcontent : g'.content = w'.stack.stack.values) : w'.Inv g' stages := by
  have hfrom : ∀ place x, c.point ≠ .meeting place x := by
    intro place x h
    simp [h, Call.Point.offer?] at hp
  have hfind : ∀ u, w'.flights.find? u = if u = t then some c' else w.flights.find? u := by
    intro u
    rw [hflights]
    exact Flights.find?_insert ..
  have hself : w'.flights.find? t = some c' := by rw [hfind, if_pos rfl]
  refine hi.turn hslots hready hcontent (fun u hu => ?_) (fun u hu => ?_)
    (visit?_of_point hc rfl hfrom) (visit?_of_point hself rfl hnot) ?_
  · rw [hfind, if_neg hu]
  · rw [hphases, Lifo.phases_goto_of_ne _ _ hu]
  · rw [hself, hphases, Lifo.phases_goto_self]
    exact ha

/-- A call that has its offer in hand takes effect on its own, and knows its outcome. -/
theorem takeEffect (hi : w.Inv g stages) (hc : w.flights.find? t = some c)
    (hp : c.point.offer? = some o) {outcome : Outcome α}
    (hflights : w'.flights = w.flights.insert t (c.goto (.leave outcome)))
    (hslots : w'.stack.slots = w.stack.slots) (hready : w'.stack.stack.Ready)
    (hphases : g'.phases = (g.goto t (.done o outcome)).phases)
    (hcontent : g'.content = w'.stack.stack.values) : w'.Inv g' stages :=
  hi.proceed hc hp hflights hslots hready (by simp [Call.goto]) (.leaves rfl) hphases hcontent

/-- What callers see of an attempt to push depends on where it leads. -/
theorem effect_push (hc : w.flights.find? t = some c) {v : α} (hp : c.point = .attempt (some v))
    (w' : World α) (c' : Call α) : w.effect t (w'.continueAs t c') =
      match c'.point with
      | .leave _ => some (.push t)
      | _ => none := by
  simp only [effect, hc, hp, point?_continueAs]
  cases c'.point <;> rfl

theorem effect_pop (hc : w.flights.find? t = some c) (hp : c.point = .attempt none)
    (w' : World α) (c' : Call α) : w.effect t (w'.continueAs t c') =
      match c'.point with
      | .leave .empty => some (.empty t)
      | .leave _ => some (.pop t)
      | .stuck _ (some _) => some (.pop t)
      | _ => none := by
  simp only [effect, hc, hp, point?_continueAs]
  cases c'.point with
  | leave outcome => cases outcome <;> rfl
  | stuck why lost? => cases lost? <;> rfl
  | _ => rfl

theorem attemptPush (hi : w.Inv g stages) (hc : w.flights.find? t = some c) {v : α}
    (hp : c.point = .attempt (some v)) :
    ∃ g', g.Runs (w.effect t (w.attemptPush t c v)).toList g' ∧
      (w.attemptPush t c v).Inv g' stages := by
  have hoffer : c.point.offer? = some (some v) := by rw [hp]; rfl
  obtain ⟨-, hphase⟩ := (hc ▸ hi.agrees t).of_offer? hoffer
  obtain ⟨s', hready, htry⟩ := hi.ready.tryPush v
  unfold World.attemptPush
  rcases htry with ⟨htry, hvalues⟩ | ⟨htry, hvalues⟩
  · rw [htry]
    dsimp only
    rw [effect_push hc hp]
    have hcontent : v :: g.content = s'.values := by rw [hvalues, ← hi.content]
    exact ⟨_, ⟨_, .push hphase, rfl⟩, hi.takeEffect hc hoffer rfl rfl hready rfl hcontent⟩
  · rw [htry]
    dsimp only
    rw [effect_push hc hp]
    exact ⟨g, rfl, hi.carry hc hoffer ⟨rfl, rfl, fun _ => hready, hvalues⟩ rfl rfl⟩

theorem attemptPop (hi : w.Inv g stages) (hc : w.flights.find? t = some c)
    (hp : c.point = .attempt none) :
    ∃ g', g.Runs (w.effect t (w.attemptPop t c)).toList g' ∧
      (w.attemptPop t c).Inv g' stages := by
  have hoffer : c.point.offer? = some none := by rw [hp]; rfl
  obtain ⟨-, hphase⟩ := (hc ▸ hi.agrees t).of_offer? hoffer
  unfold World.attemptPop
  cases hcont : w.stack.stack.contended with
  | true =>
    rw [if_pos rfl, effect_pop hc hp]
    exact ⟨g, rfl, hi.carry hc hoffer ⟨rfl, rfl, id, rfl⟩ rfl rfl⟩
  | false =>
    rw [if_neg (by simp)]
    obtain ⟨answer, s', htry, hready, hcells, -, hanswer⟩ :=
      hi.ready.tryPop hcont (w.threads.identify t).1 w.wall
    dsimp only
    rw [htry]
    have hvalues : s'.values = (TreiberStack.popCells w.stack.stack.cells).2.map (·.value) := by
      rw [TreiberStack.values, hcells]
    have hcontent : g.content = w.stack.stack.cells.map (·.value) := hi.content
    cases hw : w.stack.stack.cells with
    | nil =>
      rw [hw] at hcontent hvalues hanswer
      have hsame : g.content = s'.values := hcontent.trans hvalues.symm
      rcases hanswer with rfl | rfl
      · dsimp only [TreiberStack.popCells]
        rw [effect_pop hc hp]
        exact ⟨_, ⟨_, .empty hphase hcontent, rfl⟩,
          hi.takeEffect hc hoffer rfl rfl hready rfl hsame⟩
      · dsimp only [TreiberStack.popCells, TryPop.value?]
        rw [effect_pop hc hp]
        have hstays : g.phases = (g.goto t (.pending none)).phases := by
          rw [← hphase]
          exact (Function.update_eq_self ..).symm
        exact ⟨g, rfl,
          hi.proceed hc hoffer rfl rfl hready (by simp [Call.goto]) (.stuck rfl) hstays hsame⟩
    | cons cell cells =>
      rw [hw] at hcontent hvalues hanswer
      rcases hanswer with rfl | rfl
      · dsimp only [TreiberStack.popCells]
        rw [effect_pop hc hp]
        exact ⟨_, ⟨_, .pop hphase hcontent, rfl⟩, hi.takeEffect hc hoffer rfl rfl hready rfl
          hvalues.symm⟩
      · -- it takes effect, although nobody will ever see it return
        dsimp only [TreiberStack.popCells, TryPop.value?]
        rw [effect_pop hc hp]
        exact ⟨_, ⟨_, .pop hphase hcontent, rfl⟩, hi.proceed hc hoffer rfl rfl hready
          (by simp [Call.goto]) (.loses rfl) rfl hvalues.symm⟩

/-! ## Steps in the slots -/

theorem visits_eq_update (hfind : ∀ u, u ≠ t → w'.flights.find? u = w.flights.find? u)
    (hphases : ∀ u, u ≠ t → (g'.phases u).offer? = (g.phases u).offer?) :
    w'.visits g' = Function.update (w.visits g) t (w'.visits g' t) := by
  funext u
  by_cases hu : u = t
  · subst hu
    rw [Function.update_self]
  · rw [Function.update_of_ne hu, visits, visits, visit?_congr (hfind u hu), hphases u hu]

theorem visits_of_meeting (hc : w.flights.find? t = some c) (hp : c.point = .meeting place x)
    (ho : (g.phases t).offer? = some o) : w.visits g t = some (place, ⟨o, x⟩) := by
  rw [visits, visit?_eq_some.2 ⟨c, hc, hp⟩, ho]
  rfl

theorem drawnSlot_lt {capacity : Nat} (h : 0 < capacity) (range random : Nat) :
    drawnSlot (visitBound capacity range) random < capacity := by
  have hb : 0 < visitBound capacity range := by unfold visitBound; omega
  exact (Nat.mod_lt _ hb).trans_le (Nat.min_le_right ..)

theorem visit (hi : w.Inv g stages) (hc : w.flights.find? t = some c) (hp : c.point = .visit o)
    {a? : Option Address} (ha : ∀ a, a? = some a → w.Vacant a) : (w.visit t c o a?).Inv g stages := by
  obtain ⟨hkind, hphase⟩ := (hc ▸ hi.agrees t).of_offer? (o := o) (by rw [hp]; rfl)
  have hvt : w.visits g t = none := by
    rw [visits, visit?_of_point hc hp nofun]
    rfl
  unfold World.visit
  dsimp only
  generalize hq : drawnSlot (visitBound w.stack.capacity c.policy.range) (c.random.headD 0) = place
  have hplace : place < w.stack.slots.length := hq ▸ drawnSlot_lt hi.room ..
  have husable : (w.stack.slots.getD place {}).Usable (a?.getD (w.stack.slot place).freeAddress) := by
    cases a? with
    | none => exact Slot.usable_freeAddress _
    | some a =>
      rw [List.getD_eq_getElem _ _ hplace]
      exact ha a rfl _ (List.getElem_mem hplace)
  have hmet := hi.row.not_met hplace hvt
  cases hx : Exchange.start w.clock w.stack.config.timeout o
    (a?.getD (w.stack.slot place).freeAddress) (w.stack.slot place) with | mk x s' => ?_
  obtain ⟨hrow, -⟩ := hi.row.start hvt hplace husable w.clock w.stack.config.timeout o hx
  dsimp only
  generalize hw : ({ w with stack := w.stack.putSlot place s' } : World α).report t
    [.slotDrawn (visitBound w.stack.capacity c.policy.range) place] = w₁
  have hflights : w₁.flights = w.flights := hw ▸ rfl
  have hslots : w₁.stack.slots = w.stack.slots.set place s' := hw ▸ rfl
  have hcore : w₁.stack.stack = w.stack.stack := hw ▸ rfl
  generalize hc' : ({ c with random := c.random.tail, point := .meeting place x } : Call α) = c'
  have hp' : c'.point = .meeting place x := hc' ▸ rfl
  have hkind' : c'.kind = Call.kindOf o := hc' ▸ hkind
  have hself : (w₁.continueAs t c').flights.find? t = some c' := by rw [find?_continueAs, if_pos rfl]
  have hfind : ∀ u, u ≠ t → (w₁.continueAs t c').flights.find? u = w.flights.find? u := by
    intro u hu
    rw [find?_continueAs, if_neg hu, hflights]
  refine ⟨?_, ?_, ?_, ?_, fun u => ?_⟩
  · show w₁.stack.stack.Ready
    exact hcore ▸ hi.ready
  · show g.content = w₁.stack.stack.values
    rw [hcore, hi.content]
  · rw [visits_eq_update hfind fun _ _ => rfl,
      visits_of_meeting hself hp' (by rw [hphase]; rfl)]
    show Row.Inv w₁.stack.slots _ _
    rw [hslots]
    exact hrow
  · show 0 < w₁.stack.slots.length
    rw [hslots, List.length_set]
    exact hi.room
  · by_cases hu : u = t
    · subst hu
      rw [hself, hphase]
      exact .waits hkind' hp' hmet
    · rw [hfind u hu]
      exact hi.agrees u

theorem effect_meet (hc : w.flights.find? t = some c) (hp : c.point = .meeting place x)
    (w' : World α) : w.effect t w' =
      if x.joins (w.stack.slot place) then
        (Row.waiter? w.flights.threads w.visit? place).map (together c.kind t)
      else
        none := by
  simp only [effect, hc, hp]

/-- One slot has changed, and the call that changed it goes on as `c'`. -/
theorem shift (hi : w.Inv g stages)
    (hw : ({ w with stack := w.stack.putSlot place s' } : World α).Untouched w')
    (hrow : Row.Inv (w.stack.slots.set place s') stages' ((w.visits g).advance t place o x'))
    (hvisit : (w'.continueAs t c').visits g' t =
      if x'.over then none else some (place, ⟨o, x'⟩))
    (hoffers : ∀ u, u ≠ t → (g'.phases u).offer? = (g.phases u).offer?)
    (hcontent : g'.content = g.content) (ha : Call.Agrees stages' t (some c') (g'.phases t))
    (hothers : ∀ u, u ≠ t → Call.Agrees stages' u (w.flights.find? u) (g'.phases u)) :
    (w'.continueAs t c').Inv g' stages' := by
  have hfind : ∀ u, u ≠ t → (w'.continueAs t c').flights.find? u = w.flights.find? u := by
    intro u hu
    rw [find?_continueAs, if_neg hu, hw.flights]
  have hslots : (w'.continueAs t c').stack.slots = w.stack.slots.set place s' := hw.slots
  refine ⟨hw.ready hi.ready, hcontent.trans (hi.content.trans hw.values.symm), ?_, ?_, fun u => ?_⟩
  · rw [visits_eq_update hfind hoffers, hvisit, hslots]
    exact hrow
  · rw [hslots, List.length_set]
    exact hi.room
  · by_cases hu : u = t
    · subst hu
      rwa [find?_continueAs, if_pos rfl]
    · rw [hfind u hu]
      exact hothers u hu

theorem visits_of_point {p : Call.Point α} (hp : c'.point = p) (hm : ∀ place x, p ≠ .meeting place x) :
    (w'.continueAs t c').visits g' t = none := by
  have hself : (w'.continueAs t c').flights.find? t = some c' := by rw [find?_continueAs, if_pos rfl]
  rw [visits, visit?_of_point hself hp hm]
  rfl

theorem giveUp (hi : w.Inv g stages) (hk : c.kind = Call.kindOf o)
    (hrow : Row.Inv (w.stack.slots.set place s') stages' ((w.visits g).advance t place o x'))
    (hover : x'.over = true) (hphase : g.phases t = .pending o)
    (hothers : ∀ u, u ≠ t → Call.Agrees stages' u (w.flights.find? u) (g.phases u)) :
    (World.conclude { w with stack := w.stack.putSlot place s' } t c (.error ⟨o⟩)).Inv g stages' := by
  obtain ⟨w', c', hw, hcon, hk', hp'⟩ :=
    conclude_error { w with stack := w.stack.putSlot place s' } t hk
  rw [hcon]
  refine hi.shift hw hrow ?_ (fun _ _ => rfl) rfl ?_ hothers
  · rw [visits_of_point hp' (by simp), if_pos hover]
  · rw [hphase]
    exact .before (hk'.trans hk) (by rw [hp']; rfl)

theorem depart (hi : w.Inv g stages) (hk : c.kind = Call.kindOf o) {theirs : Option α}
    (ho : theirs.isSome = !o.isSome)
    (hrow : Row.Inv (w.stack.slots.set place s') stages' ((w.visits g).advance t place o x'))
    (hover : x'.over = true) (hoffers : ∀ u, u ≠ t → (g'.phases u).offer? = (g.phases u).offer?)
    (hcontent : g'.content = g.content) (hphase : g'.phases t = .done o (.met theirs))
    (hothers : ∀ u, u ≠ t → Call.Agrees stages' u (w.flights.find? u) (g'.phases u)) :
    (World.conclude { w with stack := w.stack.putSlot place s' } t c (.ok theirs)).Inv g' stages' := by
  obtain ⟨w', c', hw, hcon, hp'⟩ :=
    conclude_ok { w with stack := w.stack.putSlot place s' } t hk ho
  rw [hcon]
  refine hi.shift hw hrow ?_ hoffers hcontent ?_ hothers
  · rw [visits_of_point hp' (by simp), if_pos hover]
  · rw [hphase]
    exact .leaves hp'

theorem visit?_eq (hi : w.Inv g stages) (u : Nat) :
    w.visit? u = (w.visits g u).map fun v => (v.1, v.2.exchange) := by
  cases hv : w.visit? u with
  | none => simp [visits, hv]
  | some v =>
    obtain ⟨cu, hcu, hpu⟩ := visit?_eq_some.1 hv
    obtain ⟨o', -, ho', -⟩ := (hcu ▸ hi.agrees u).of_meeting hpu
    simp [visits_of_meeting hcu hpu ho']

theorem exists_of_visits (hv : w.visits g t = some (place, ⟨o, x⟩)) :
    ∃ c, w.flights.find? t = some c ∧ c.point = .meeting place x ∧
      (g.phases t).offer? = some o := by
  unfold visits at hv
  cases hq : w.visit? t with
  | none => simp [hq] at hv
  | some q =>
    simp only [hq, Option.bind_some, Option.map_eq_some_iff, Prod.mk.injEq, Party.mk.injEq] at hv
    obtain ⟨_, hoff, rfl, rfl, rfl⟩ := hv
    obtain ⟨c, hc, hp⟩ := visit?_eq_some.1 hq
    exact ⟨c, hc, hp, hoff⟩

theorem visits_of_goto (hv : w.visits g t = some (place, ⟨o, x⟩)) :
    (w'.continueAs t (c.goto (.meeting place x'))).visits g t = some (place, ⟨o, x'⟩) := by
  obtain ⟨_, -, -, hoff⟩ := exists_of_visits hv
  exact visits_of_meeting (by rw [find?_continueAs, if_pos rfl]) rfl hoff

theorem mem_threads {q : Nat × Party α} (hv : w.visits g t = some q) : t ∈ w.flights.threads := by
  obtain ⟨place, o, x⟩ := q
  obtain ⟨c, hc, -⟩ := exists_of_visits hv
  exact Flights.mem_threads hc

theorem exists_waiter (hi : w.Inv g stages) {p : Party α} (hst : stages place = .waiting t)
    (hv : w.visits g t = some (place, p)) :
    ∃ c, w.flights.find? t = some c ∧ c.point = .meeting place p.exchange ∧
      c.kind = Call.kindOf p.offer ∧ g.phases t = .pending p.offer := by
  obtain ⟨c, hc, hp, hoff⟩ := exists_of_visits hv
  obtain ⟨o', hk, ho', hphase⟩ := (hc ▸ hi.agrees t).of_meeting hp
  cases hoff.symm.trans ho'
  rcases hphase with ⟨-, h⟩ | ⟨theirs, hj, -⟩
  · exact ⟨c, hc, hp, hk, h⟩
  · cases hst.symm.trans hj

/-- Two calls take effect together. -/
theorem exists_meet {u : Nat} {o' : Option α} (htu : u ≠ t) (ht : g.phases t = .pending o)
    (hu : g.phases u = .pending o') (ho : o'.isSome = !o.isSome) (hk : c.kind = Call.kindOf o) :
    ∃ g', Lifo.Step g (together c.kind t u) g' ∧
      g'.content = g.content ∧ g'.phases t = .done o (.met o') ∧ g'.phases u = .done o' (.met o) ∧
      ∀ v, v ≠ t → v ≠ u → g'.phases v = g.phases v := by
  cases o with
  | none =>
    obtain ⟨v, rfl⟩ := Option.isSome_iff_exists.1 ho
    rw [hk]
    refine ⟨_, .meet hu ht, rfl, Lifo.phases_goto_self .., ?_, fun w hwt hwu => ?_⟩
    · rw [Lifo.phases_goto_of_ne _ _ htu, Lifo.phases_goto_self]
      rfl
    · rw [Lifo.phases_goto_of_ne _ _ hwt, Lifo.phases_goto_of_ne _ _ hwu]
  | some v =>
    obtain rfl : o' = none := by simpa using ho
    rw [hk]
    refine ⟨_, .meet ht hu, rfl, ?_, Lifo.phases_goto_self .., fun w hwt hwu => ?_⟩
    · rw [Lifo.phases_goto_of_ne _ _ (Ne.symm htu), Lifo.phases_goto_self]
      rfl
    · rw [Lifo.phases_goto_of_ne _ _ hwu, Lifo.phases_goto_of_ne _ _ hwt]

/-- A call stays in step with its stage when a slot changes in which it has not been joined. -/
theorem agrees_update (hi : w.Inv g stages) {st : Stage α} {u : Nat}
    (hst : ∀ theirs, st = .joined u theirs ↔ stages place = .joined u theirs) :
    Call.Agrees (Function.update stages place st) u (w.flights.find? u) (g.phases u) := by
  refine (hi.agrees u).congr fun q theirs => ?_
  by_cases hq : q = place
  · subst hq
    rw [Function.update_self]
    exact hst theirs
  · rw [Function.update_of_ne hq]

theorem stay (hi : w.Inv g stages) (hc : w.flights.find? t = some c) (hp : c.point = .meeting place x)
    {st : Stage α} (hrow : Row.Inv (w.stack.slots.set place s') (Function.update stages place st)
      ((w.visits g).advance t place o x'))
    (hv : w.visits g t = some (place, ⟨o, x⟩)) (hover : x'.over = false)
    (hst : ∀ u theirs, st = .joined u theirs ↔ stages place = .joined u theirs) :
    (World.continueAs { w with stack := w.stack.putSlot place s' } t
      (c.goto (.meeting place x'))).Inv g (Function.update stages place st) := by
  have hput : ({ w with stack := w.stack.putSlot place s' } : World α).Untouched
      { w with stack := w.stack.putSlot place s' } := ⟨rfl, rfl, id, rfl⟩
  have hvisit : (World.continueAs { w with stack := w.stack.putSlot place s' } t
      (c.goto (.meeting place x'))).visits g t = if x'.over then none else some (place, ⟨o, x'⟩) := by
    rw [visits_of_goto hv, hover]
    rfl
  obtain ⟨o', hk, -, hphase⟩ := (hc ▸ hi.agrees t).of_meeting hp
  refine hi.shift hput hrow hvisit (fun _ _ => rfl) rfl ?_ fun u _ => hi.agrees_update (hst u)
  rcases hphase with ⟨hm, h⟩ | ⟨theirs, hj, h⟩
  · rw [h]
    refine .waits hk rfl fun ⟨theirs, hj⟩ => hm ⟨theirs, (hst t theirs).1 ?_⟩
    rwa [Function.update_self] at hj
  · rw [h]
    exact .joined hk rfl (by rw [Function.update_self, hst, hj])

/-- A call joins the one that waits in its slot, and takes effect together with it. -/
theorem join (hi : w.Inv g stages) (hk : c.kind = Call.kindOf o) (hphase : g.phases t = .pending o)
    (hplace : place < w.stack.slots.length) {u : Nat} {p : Party α} (hut : u ≠ t)
    (hst : stages place = .waiting u) (hu : w.visits g u = some (place, p))
    (ho : p.offer.isSome = !o.isSome) (hover : x'.over = true)
    (hrow : Row.Inv (w.stack.slots.set place s') (Function.update stages place (.joined u o))
      ((w.visits g).advance t place o x')) :
    ∃ g', g.Runs ((Row.waiter? w.flights.threads w.visit? place).map (together c.kind t)).toList g' ∧
      (World.conclude { w with stack := w.stack.putSlot place s' } t c (.ok p.offer)).Inv g'
        (Function.update stages place (.joined u o)) := by
  obtain ⟨cu, hcu, hpu, hku, hphase_u⟩ := hi.exists_waiter hst hu
  have hwaiter : Row.waiter? w.flights.threads w.visit? place = some u :=
    hi.row.waiter?_eq hplace (by rw [hst]; rfl) hi.visit?_eq fun v q hv => mem_threads hv
  obtain ⟨g', hstep, hcontent, hgt, hgu, hrest⟩ := exists_meet hut hphase hphase_u ho hk
  rw [hwaiter]
  refine ⟨g', ⟨g', hstep, rfl⟩, hi.depart hk ho hrow hover (fun v hv => ?_) hcontent hgt fun v hv => ?_⟩
  · by_cases hvu : v = u
    · rw [hvu, hgu, hphase_u]
      rfl
    · rw [hrest v hv hvu]
  · by_cases hvu : v = u
    · subst hvu
      rw [hcu, hgu]
      exact .joined hku hpu (Function.update_self ..)
    · rw [hrest v hv hvu]
      exact hi.agrees_update fun _ => by simp [hst, Ne.symm hvu]

/-- A call that has been joined leaves its slot, and is done as it has been since then. -/
theorem clear (hi : w.Inv g stages) (hc : w.flights.find? t = some c) (hp : c.point = .meeting place x)
    (hv : w.visits g t = some (place, ⟨o, x⟩)) (hk : c.kind = Call.kindOf o) {theirs : Option α}
    (hst : stages place = .joined t theirs) (hover : x'.over = true)
    (hrow : Row.Inv (w.stack.slots.set place s') (Function.update stages place .vacant)
      ((w.visits g).advance t place o x')) :
    (World.conclude { w with stack := w.stack.putSlot place s' } t c (.ok theirs)).Inv g
      (Function.update stages place .vacant) := by
  have hslot := hi.row.slot place (hi.row.inside t _ _ hv)
  have hkinds : theirs.isSome = !o.isSome := by
    rw [hst] at hslot
    obtain ⟨p, a, hpt, -, -, hk⟩ := hslot.writes
    cases (Visits.callers_eq_some.2 hv).symm.trans hpt
    simp [hk]
  have hoffer := hv
  rw [visits, visit?_eq_some.2 ⟨c, hc, hp⟩] at hoffer
  obtain ⟨o', -, ho', hphase⟩ := (hc ▸ hi.agrees t).of_meeting hp
  have hdone : g.phases t = .done o (.met theirs) := by
    rcases hphase with ⟨hm, -⟩ | ⟨theirs', hj, h⟩
    · exact absurd ⟨theirs, hst⟩ hm
    · cases hst.symm.trans hj
      rw [ho'] at hoffer
      cases hoffer
      exact h
  exact hi.depart hk hkinds hrow hover (fun _ _ => rfl) rfl hdone
    fun u hu => hi.agrees_update fun _ => by simp [hst, Ne.symm hu]

/-- One access of a call to its slot, or one reading of the clock, whatever it comes to. -/
theorem meet (hi : w.Inv g stages) (hc : w.flights.find? t = some c)
    (hp : c.point = .meeting place x) : ∃ g' stages',
      g.Runs (w.effect t (w.meet t c place x)).toList g' ∧ (w.meet t c place x).Inv g' stages' := by
  obtain ⟨o, hkind, hoff, hphase⟩ := (hc ▸ hi.agrees t).of_meeting hp
  have hvisit := visits_of_meeting hc hp hoff
  have hplace := hi.row.inside t _ _ hvisit
  rw [effect_meet hc hp]
  unfold World.meet
  cases hx : x.step w.clock (w.stack.slot place) with | mk x' s' => ?_
  obtain ⟨taken, stage', hmove, hrow, -⟩ := hi.row.step hvisit w.clock hx
  have hjoins := (hi.row.slot place hplace).joins_iff (Visits.callers_eq_some.2 hvisit) hx hmove
  have hapart : (¬ ∃ u, stages place = .waiting u ∧ stage' = .joined u o) →
      x.joins (w.stack.slot place) = false :=
    fun hn => Bool.eq_false_iff.2 fun hj => hn (hjoins.1 hj)
  have hnone : x'.over = false → x'.answer? = none := fun h => by simpa [Exchange.over] using h
  have hover : ∀ {answer}, x'.answer? = some answer → x'.over = true := fun h => by
    simp [Exchange.over, h]
  have hpending : ¬ (stages place).Met t → g.phases t = .pending o := by
    intro hm
    rcases hphase with ⟨-, h⟩ | ⟨theirs, h, -⟩
    · exact h
    · exact absurd ⟨theirs, h⟩ hm
  dsimp only
  generalize hst : stages place = stage at hmove hjoins hapart hpending
  cases hmove with
  | goOn hgo =>
    rw [hapart (by rintro ⟨u, rfl, e⟩; cases e), hnone hgo]
    exact ⟨g, _, rfl, hi.stay hc hp hrow hvisit hgo fun _ _ => by rw [hst]⟩
  | claim hgo =>
    rw [hapart (by rintro ⟨u, e, -⟩; cases e), hnone hgo]
    exact ⟨g, _, rfl, hi.stay hc hp hrow hvisit hgo fun _ _ => by simp [hst]⟩
  | expire hout ha =>
    rw [hapart (by rintro ⟨u, rfl, e⟩; cases e), ha]
    exact ⟨g, _, rfl, hi.giveUp hkind hrow (hover ha) (hpending fun hm => hout hm.occupant)
      fun _ _ => hi.agrees_update fun _ => by rw [hst]⟩
  | withdraw ha =>
    rw [hapart (by rintro ⟨u, -, e⟩; cases e), ha]
    exact ⟨g, _, rfl, hi.giveUp hkind hrow (hover ha) (hpending Stage.not_met_waiting)
      fun _ _ => hi.agrees_update fun _ => by simp [hst]⟩
  | @join _ u p hut hu hk ha =>
    rw [show x.joins (w.stack.slot place) = true from hjoins.2 ⟨u, rfl, rfl⟩, ha]
    obtain ⟨g', hruns, hi'⟩ := hi.join hkind (hpending Stage.not_met_waiting) hplace hut hst
      (Visits.callers_eq_some.1 hu) hk (hover ha) hrow
    exact ⟨g', _, hruns, hi'⟩
  | clear ha =>
    rw [hapart (by rintro ⟨u, e, -⟩; cases e), ha]
    exact ⟨g, _, rfl, hi.clear hc hp hvisit hkind hst (hover ha) hrow⟩

/-! ## Beginning and end -/

theorem leave (hi : w.Inv g stages) (hc : w.flights.find? t = some c) {outcome : Outcome α}
    (hp : c.point = .leave outcome) : ∃ g',
      g.Runs (w.effect t (w.leave t c outcome)).toList g' ∧ (w.leave t c outcome).Inv g' stages := by
  obtain ⟨o, hphase⟩ := (hc ▸ hi.agrees t).of_leave hp
  have heffect : w.effect t (w.leave t c outcome) = some (.ret t outcome) := by
    simp only [effect, hc, hp]
  have hfind : ∀ u, (w.leave t c outcome).flights.find? u =
      if u = t then none else w.flights.find? u := fun u => Flights.find?_erase ..
  have hself : (w.leave t c outcome).flights.find? t = none := by rw [hfind, if_pos rfl]
  rw [heffect]
  refine ⟨_, ⟨_, .ret hphase, rfl⟩, hi.turn rfl hi.ready hi.content (fun u hu => ?_) (fun u hu => ?_)
    (visit?_of_point hc hp nofun) ?_ ?_⟩
  · rw [hfind, if_neg hu]
  · exact Lifo.phases_goto_of_ne _ _ hu
  · rw [visit?, hself]
  · rw [hself, Lifo.phases_goto_self]
    exact .idle

theorem begin (hi : w.Inv g stages) (ht : w.flights.find? t = none) (hk : c.kind = Call.kindOf o)
    (hp : c.point.offer? = some o) : (w.continueAs t c).Inv (g.goto t (.pending o)) stages := by
  have hself : (w.continueAs t c).flights.find? t = some c := by rw [find?_continueAs, if_pos rfl]
  have hv : w.visit? t = none := by rw [visit?, ht]
  refine hi.turn rfl hi.ready hi.content (fun u hu => ?_) (fun u hu => ?_) hv ?_ ?_
  · rw [find?_continueAs, if_neg hu]
  · exact Lifo.phases_goto_of_ne _ _ hu
  · refine visit?_of_point hself rfl ?_
    rintro place x h
    simp [h, Call.Point.offer?] at hp
  · rw [hself, Lifo.phases_goto_self]
    exact .before hk hp

/-! ## Runs -/

/-- Every step of a call is one that callers cannot see, or one of a sequential stack. -/
theorem stepAt (hi : w.Inv g stages) (t : Nat) {a? : Option Address}
    (ha : ∀ a, a? = some a → w.Vacant a) : ∃ g' stages',
      g.Runs (w.effect t (w.stepAt a? t)).toList g' ∧ (w.stepAt a? t).Inv g' stages' := by
  unfold World.stepAt
  cases hc : w.flights.find? t with
  | none =>
    have heffect : w.effect t w = none := by simp only [effect, hc]
    exact ⟨g, stages, by rw [heffect]; rfl, hi⟩
  | some c =>
    dsimp only
    cases hp : c.point with
    | enter o =>
      have heffect : w.effect t (w.enter t c o) = none := by simp only [effect, hc, hp]
      exact ⟨g, stages, by rw [heffect]; rfl, hi.enter hc hp⟩
    | attempt o? =>
      cases o? with
      | some v =>
        obtain ⟨g', hr, hi'⟩ := hi.attemptPush hc hp
        exact ⟨g', stages, hr, hi'⟩
      | none =>
        obtain ⟨g', hr, hi'⟩ := hi.attemptPop hc hp
        exact ⟨g', stages, hr, hi'⟩
    | visit o =>
      have heffect : w.effect t (w.visit t c o a?) = none := by simp only [effect, hc, hp]
      exact ⟨g, stages, by rw [heffect]; rfl, hi.visit hc hp ha⟩
    | meeting place x => exact hi.meet hc hp
    | leave outcome =>
      obtain ⟨g', hr, hi'⟩ := hi.leave hc hp
      exact ⟨g', stages, hr, hi'⟩
    | stuck why lost? =>
      have heffect : w.effect t w = none := by simp only [effect, hc, hp]
      exact ⟨g, stages, by rw [heffect]; rfl, hi⟩

theorem happen (hi : w.Inv g stages) (e : Event α) : ∃ g' stages',
    g.Runs (w.label? e).toList g' ∧ (w.happen e).Inv g' stages' := by
  have begins : ∀ t o (c : Call α), c.kind = Call.kindOf o → c.point.offer? = some o →
      ∃ g', g.Runs (if w.busy t then none else some (Lifo.Label.call t o)).toList g' ∧
        (if w.busy t then w else w.continueAs t c).Inv g' stages := by
    intro t o c hk hp
    cases ht : w.flights.find? t with
    | some c' =>
      have hb : w.busy t = true := by simp [busy, ht]
      rw [if_pos hb, if_pos hb]
      exact ⟨g, rfl, hi⟩
    | none =>
      have hb : ¬ w.busy t = true := by simp [busy, ht]
      have hidle : g.phases t = .idle := (ht ▸ hi.agrees t).of_none
      rw [if_neg hb, if_neg hb]
      exact ⟨_, ⟨_, .call hidle, rfl⟩, hi.begin ht hk hp⟩
  cases e with
  | start t o random =>
    obtain ⟨g', hr, hi'⟩ := begins t o (.own w.stack.rangePolicy o random) rfl rfl
    exact ⟨g', stages, hr, hi'⟩
  | startWith t policy o random =>
    obtain ⟨g', hr, hi'⟩ := begins t o (.withPolicy policy o random) rfl rfl
    exact ⟨g', stages, hr, hi'⟩
  | step t => exact hi.stepAt t nofun
  | stepAt t a =>
    have hlabel : w.label? (.stepAt t a) =
        if w.Vacant a then w.effect t (w.happen (.stepAt t a)) else none := rfl
    have hw : w.happen (.stepAt t a) = if w.Vacant a then w.stepAt (some a) t else w := rfl
    rw [hlabel, hw]
    by_cases hv : w.Vacant a
    · rw [if_pos hv, if_pos hv]
      exact hi.stepAt t fun b hb => Option.some.inj hb ▸ hv
    · rw [if_neg hv, if_neg hv]
      exact ⟨g, stages, rfl, hi⟩
  | advance nanos => exact ⟨g, stages, rfl, hi.untouched ⟨rfl, rfl, id, rfl⟩⟩
  | wall micros => exact ⟨g, stages, rfl, hi.untouched ⟨rfl, rfl, id, rfl⟩⟩
  | contend on => exact ⟨g, stages, rfl, hi.untouched ⟨rfl, rfl, fun h => ⟨h.inv, h.idle⟩, rfl⟩⟩
  | beginExit t => exact ⟨g, stages, rfl, hi.untouched ⟨rfl, rfl, id, rfl⟩⟩
  | finishExit t => exact ⟨g, stages, rfl, hi.untouched ⟨rfl, rfl, id, rfl⟩⟩

theorem after (hi : w.Inv g stages) (events : List (Event α)) : ∃ g' stages',
    g.Runs (w.trace events) g' ∧ (w.after events).Inv g' stages' := by
  induction events generalizing w g stages with
  | nil => exact ⟨g, stages, rfl, hi⟩
  | cons e events ih =>
    obtain ⟨g₁, stages₁, hr₁, hi₁⟩ := hi.happen e
    obtain ⟨g₂, stages₂, hr₂, hi₂⟩ := ih hi₁
    exact ⟨g₂, stages₂, hr₁.append hr₂, hi₂⟩

end Inv

/-! ## What calls return -/

/-- What the calls that are over have returned, the latest first. -/
def outcomes (w : World α) : List (Nat × Outcome α) := w.returned.map fun r => (r.1, r.2.outcome)

theorem returned_ownPolicy (w : World α) (t : Nat) : (w.ownPolicy t).2.2.returned = w.returned := by
  unfold ownPolicy
  split <;> rfl

theorem returned_attemptPush (w : World α) (t : Nat) (c : Call α) (v : α) :
    (w.attemptPush t c v).returned = w.returned := by
  unfold attemptPush
  split <;> rfl

theorem returned_attemptPop (w : World α) (t : Nat) (c : Call α) :
    (w.attemptPop t c).returned = w.returned := by
  unfold attemptPop
  dsimp only
  split
  · rfl
  · split <;> rfl

theorem returned_conclude (w : World α) (t : Nat) (c : Call α) (answer : ExchangeAnswer α) :
    (w.conclude t c answer).returned = w.returned := by
  unfold conclude
  split
  · rfl
  · rfl
  · dsimp only
    split <;> rfl
  · rfl

theorem returned_meet (w : World α) (t : Nat) (c : Call α) (place : Nat) (x : Exchange α) :
    (w.meet t c place x).returned = w.returned := by
  unfold meet
  dsimp only
  split
  · exact returned_conclude ..
  · rfl

theorem returned?_effect (hc : w.flights.find? t = some c) (hp : ∀ outcome, c.point ≠ .leave outcome)
    (w' : World α) : (w.effect t w').toList.filterMap Lifo.Label.returned? = [] := by
  cases hpoint : c.point with
  | enter o => simp only [effect, hc, hpoint, Option.toList_none, List.filterMap_nil]
  | visit o => simp only [effect, hc, hpoint, Option.toList_none, List.filterMap_nil]
  | attempt o =>
    cases o <;> simp only [effect, hc, hpoint] <;> split <;> rfl
  | meeting place x =>
    simp only [effect, hc, hpoint]
    split
    · cases Row.waiter? w.flights.threads w.visit? place with
      | none => rfl
      | some u => cases c.kind <;> rfl
    · rfl
  | leave outcome => exact absurd hpoint (hp outcome)
  | stuck why lost? => simp only [effect, hc, hpoint, Option.toList_none, List.filterMap_nil]

/-- Callers see a call return exactly when it is over. -/
theorem outcomes_stepAt (w : World α) (a? : Option Address) (t : Nat) :
    (w.stepAt a? t).outcomes =
      (w.effect t (w.stepAt a? t)).toList.filterMap Lifo.Label.returned? ++ w.outcomes := by
  unfold stepAt
  cases hc : w.flights.find? t with
  | none => simp [effect, hc]
  | some c =>
    have quiet : ∀ w' : World α, w'.returned = w.returned →
        (∀ outcome, c.point ≠ .leave outcome) → w'.outcomes =
          (w.effect t w').toList.filterMap Lifo.Label.returned? ++ w.outcomes := by
      intro w' hr hp
      rw [returned?_effect hc hp, outcomes, hr]
      rfl
    dsimp only
    cases hp : c.point with
    | enter o => exact quiet _ (returned_ownPolicy w t) (by simp [hp])
    | attempt o? =>
      cases o? with
      | some v => exact quiet (w.attemptPush t c v) (returned_attemptPush ..) (by simp [hp])
      | none => exact quiet (w.attemptPop t c) (returned_attemptPop ..) (by simp [hp])
    | visit o => exact quiet _ rfl (by simp [hp])
    | meeting place x => exact quiet _ (returned_meet ..) (by simp [hp])
    | leave outcome =>
      simp [effect, hc, hp, outcomes, World.leave, Lifo.Label.returned?]
    | stuck why lost? => exact quiet w rfl (by simp [hp])

theorem outcomes_happen (w : World α) (e : Event α) : (w.happen e).outcomes =
    (w.label? e).toList.filterMap Lifo.Label.returned? ++ w.outcomes := by
  have begins : ∀ t o (c : Call α), (if w.busy t then w else w.continueAs t c).outcomes =
      (if w.busy t then none else some (Lifo.Label.call t o)).toList.filterMap
        Lifo.Label.returned? ++ w.outcomes := by
    intro t o c
    split <;> rfl
  cases e with
  | start t o random => exact begins t o _
  | startWith t policy o random => exact begins t o _
  | step t => exact w.outcomes_stepAt none t
  | stepAt t a =>
    have hlabel : w.label? (.stepAt t a) =
        if w.Vacant a then w.effect t (w.happen (.stepAt t a)) else none := rfl
    have hw : w.happen (.stepAt t a) = if w.Vacant a then w.stepAt (some a) t else w := rfl
    rw [hlabel, hw]
    by_cases hv : w.Vacant a
    · rw [if_pos hv, if_pos hv]
      exact w.outcomes_stepAt (some a) t
    · rw [if_neg hv, if_neg hv]
      rfl
  | advance nanos => rfl
  | wall micros => rfl
  | contend on => rfl
  | beginExit t => rfl
  | finishExit t => rfl

theorem outcomes_after (w : World α) (events : List (Event α)) : (w.after events).outcomes =
    ((w.trace events).filterMap Lifo.Label.returned?).reverse ++ w.outcomes := by
  induction events generalizing w with
  | nil => rfl
  | cons e events ih =>
    have hone : ((w.label? e).toList.filterMap Lifo.Label.returned?).reverse =
        (w.label? e).toList.filterMap Lifo.Label.returned? := by
      cases w.label? e with
      | none => rfl
      | some l => cases l <;> rfl
    calc ((w.happen e).after events).outcomes
        = (((w.happen e).trace events).filterMap Lifo.Label.returned?).reverse ++
            (w.happen e).outcomes := ih _
      _ = _ := by
        rw [outcomes_happen, trace, List.filterMap_append, List.reverse_append, hone,
          List.append_assoc]

/-- What callers see of any run, from when the stack is made, a sequential stack can do. -/
theorem linearizable (c : Config) (events : List (Event α)) : ∃ g : Lifo α,
    let w : World α := { stack := .ofConfig c }
    ({} : Lifo α).Runs (w.trace events) g ∧
      g.content = (w.after events).stack.stack.values ∧
      (∀ t, (w.after events).busy t = true ↔ g.phases t ≠ .idle) ∧
      (w.after events).outcomes = ((w.trace events).filterMap Lifo.Label.returned?).reverse := by
  obtain ⟨g, stages, hr, hi⟩ := (Inv.new (α := α) c).after events
  refine ⟨g, hr, hi.content, fun t => ?_, ?_⟩
  · exact (hi.agrees t).isSome_iff
  · rw [outcomes_after]
    exact List.append_nil _

end World

end BackoffStack
