/-
The turns of threads that share a stack, and the account of one thread's exchanges.

A turn is one event of the stack, or a thread asks for its token elsewhere. A thread ends between its
calls. The account of a thread is kept beside the run: it has the outcomes of the exchanges that the
thread's pushes and pops have made since it holds its token, and those of its latest call. It says
nothing of calls on an explicit policy, and nothing of other threads.
-/
import BackoffStack.Proofs.Elimination.Runs
import BackoffStack.Proofs.Range.Walk
import BackoffStack.Proofs.Token.Density

namespace BackoffStack

variable {α : Type}

/-- Whether a call has still to look its range up. -/
def Call.Point.enters : Call.Point α → Bool
  | .enter _ => true
  | _ => false

/-- Whether a call is about to visit a slot. -/
def Call.Point.visits : Call.Point α → Bool
  | .visit _ => true
  | _ => false

namespace World

/-- What a thread does, with the stack or elsewhere. -/
inductive Turn (α : Type) where
  | event (e : Event α)
  /-- The thread asks for its token elsewhere. -/
  | ask (t : Nat)

/-- The world after one turn. No thread ends while its call is under way. -/
def turn (w : World α) : Turn α → World α
  | .event (.beginExit t) => if w.busy t then w else w.beginExit t
  | .event (.finishExit t) => if w.busy t then w else w.finishExit t
  | .event e => w.happen e
  | .ask t => { w with threads := w.threads.move (.ask t) }

/-- What the answer of an exchange says to the range of a call: a partner of the other kind came, or none
came in time. -/
def outcome? : Kind → ExchangeAnswer α → Option RangePolicy.Outcome
  | .push, .ok none | .pop, .ok (some _) => some .success
  | _, .ok _ => none
  | _, .error _ => some .timeout

/-- What comes of the exchange of a call, if its next step ends it. -/
def ends? (w : World α) (t : Nat) : Option RangePolicy.Outcome :=
  match w.flights.find? t with
  | some c =>
    match c.point with
    | .meeting place x => (x.step w.clock (w.stack.slot place)).1.answer?.bind (outcome? c.kind)
    | _ => none
  | none => none

namespace Turn

/-- The thread whose turn it is, if it is that of one thread. -/
def thread? : Turn α → Option Nat
  | .ask t => some t
  | .event (.start t ..) | .event (.startWith t ..) | .event (.step t) | .event (.stepAt t _) => some t
  | .event (.beginExit t) | .event (.finishExit t) => some t
  | .event (.advance _) | .event (.wall _) | .event (.contend _) => none

/-- What comes of an exchange of thread `t` that ends in a turn. -/
def ends? (t : Nat) (w : World α) : Turn α → Option RangePolicy.Outcome
  | .event (.step u) => if u = t then w.ends? t else none
  | .event (.stepAt u a) => if u = t ∧ w.Vacant a then w.ends? t else none
  | _ => none

/-- Whether thread `t` begins a call, and if so, whether on its own range. -/
def begins? (t : Nat) (w : World α) : Turn α → Option Bool
  | .event (.start u ..) => if u = t ∧ ¬ w.busy t then some true else none
  | .event (.startWith u ..) => if u = t ∧ ¬ w.busy t then some false else none
  | _ => none

end Turn

/-- The account of one thread. -/
structure Account where
  /-- Whether its latest call is on its own range. -/
  own : Bool := false
  /-- What came of the exchanges on that range since the thread holds its token, the latest last, -/
  since : List RangePolicy.Outcome := []
  /-- and of those in its latest call alone. -/
  lately : List RangePolicy.Outcome := []

namespace Account

/-- The account when an exchange may have ended. It begins anew when the thread gets a token or loses it. -/
def next (a : Account) (kept : Bool) (o? : Option RangePolicy.Outcome) : Account :=
  let outcomes := if a.own then o?.toList else []
  { a with since := if kept then a.since ++ outcomes else [], lately := a.lately ++ outcomes }

/-- The account of thread `t` after one turn of any thread. -/
def turn (a : Account) (t : Nat) (w : World α) (x : Turn α) : Account :=
  let a := a.next ((w.turn x).threads.token? t = w.threads.token? t) (x.ends? t w)
  match x.begins? t w with
  | some own => { a with own, lately := [] }
  | none => a

/-- The outcomes that a thread's range goes by: all since it holds its token, or those of its latest call
once that is gone. -/
def counted (a : Account) (token? : Option ThreadToken) : List RangePolicy.Outcome :=
  if token?.isSome then a.since else a.lately

end Account

variable {w w' w₁ : World α} {t u : Nat} {c c' : Call α} {offer : Option α}

/-- What a turn of thread `t` leaves to all others: their calls, their tokens, and what is saved for
them. -/
structure Aside (w : World α) (t : Nat) (w' : World α) : Prop where
  capacity : w'.stack.slots.length = w.stack.slots.length
  template : w'.stack.ranges.template = w.stack.ranges.template
  threads : w'.threads = w.threads ∨ ∃ m : Threads.Move, m.thread = t ∧ w'.threads = w.threads.move m
  flights : ∀ u, u ≠ t → w'.flights.find? u = w.flights.find? u
  saved : ∀ id, w'.stack.ranges.slots.get id = w.stack.ranges.slots.get id ∨
    ∃ k, w.threads.token? t = some k ∧ id = k.id ∧
      (w'.stack.ranges.slots.get id).generation = k.generation

/-- Nothing has changed that a range depends on, but the call of thread `t`, and that the thread may have
asked for its token. -/
structure Quiet (w : World α) (t : Nat) (w' : World α) : Prop where
  capacity : w'.stack.slots.length = w.stack.slots.length
  template : w'.stack.ranges.template = w.stack.ranges.template
  saved : ∀ id, w'.stack.ranges.slots.get id = w.stack.ranges.slots.get id
  threads : w'.threads = w.threads ∨ w'.threads = w.threads.move (.ask t)
  flights : ∀ u, u ≠ t → w'.flights.find? u = w.flights.find? u

namespace Quiet

theorem refl (w : World α) (t : Nat) : w.Quiet t w := ⟨rfl, rfl, fun _ => rfl, .inl rfl, fun _ _ => rfl⟩

theorem aside (h : w.Quiet t w') : w.Aside t w' where
  capacity := h.capacity
  template := h.template
  threads := h.threads.imp_right fun ht => ⟨.ask t, rfl, ht⟩
  flights := h.flights
  saved id := .inl (h.saved id)

theorem count (h : w.Quiet t w') (f : Stats → Stats) : w.Quiet t (w'.count f) :=
  ⟨h.capacity, h.template, h.saved, h.threads, h.flights⟩

theorem putStack (h : w.Quiet t w') (s : TreiberStack α) : w.Quiet t (w'.putStack s) :=
  ⟨h.capacity, h.template, h.saved, h.threads, h.flights⟩

theorem report (h : w.Quiet t w') (u : Nat) (notices : List Notice) :
    w.Quiet t (w'.report u notices) :=
  ⟨h.capacity, h.template, h.saved, h.threads, h.flights⟩

theorem putSlot (h : w.Quiet t w') (place : Nat) (slot : Slot α) :
    w.Quiet t { w' with stack := w'.stack.putSlot place slot } :=
  ⟨(List.length_set ..).trans h.capacity, h.template, h.saved, h.threads, h.flights⟩

theorem identify (w : World α) (t : Nat) :
    w.Quiet t { w with threads := (w.threads.identify t).2 } :=
  ⟨rfl, rfl, fun _ => rfl, .inr (w.threads.identify_move t), fun _ _ => rfl⟩

theorem continueAs (h : w.Quiet t w') (c : Call α) : w.Quiet t (w'.continueAs t c) :=
  ⟨h.capacity, h.template, h.saved, h.threads, fun u hu =>
    ((find?_continueAs ..).trans (if_neg hu)).trans (h.flights u hu)⟩

end Quiet

theorem find?_self (w : World α) (t : Nat) (c : Call α) :
    (w.continueAs t c).flights.find? t = some c :=
  (find?_continueAs ..).trans (if_pos rfl)

/-! ## The course of a call -/

/-- A thread looks its range up under its token; once that is gone it is given the template. -/
theorem ownPolicy_cases (w : World α) (t : Nat) :
    (w.threads.Gone t ∧ w.ownPolicy t = (w.stack.ranges.template, none, w)) ∨
      ∃ k w₁, w.Quiet t w₁ ∧ w₁.threads.token? t = some k ∧
        w.ownPolicy t = (w₁.stack.ranges.load k, some k, w₁) := by
  rcases w.threads.ask_eq t with ⟨hgone, h⟩ | ⟨k, hk, h⟩
  · refine .inl ⟨hgone, ?_⟩
    unfold ownPolicy
    rw [h]
  · let ranges := w.stack.ranges.reach k.id
    let w₁ : World α :=
      { w with threads := w.threads.move (.ask t), stack := { w.stack with ranges } }
    have hquiet : w.Quiet t w₁ :=
      ⟨rfl, rfl, fun id => SegmentTable.get_reach _ _ id, .inr rfl, fun _ _ => rfl⟩
    refine .inr ⟨k, _, hquiet.report t (Notice.growth w.stack.ranges.slots.count ranges.slots.count),
      hk, ?_⟩
    unfold ownPolicy
    rw [h]
    rfl

/-- A call goes on between its look at the table and its end: it leaves the table alone, and its policy
records the exchange that ends in that step. -/
inductive Within (w : World α) (t : Nat) (c : Call α) : World α → Prop
  | goOn {w₁ : World α} {c' : Call α} : w.Quiet t w₁ → c'.token? = c.token? →
      c'.point.enters = false → c'.policy = (w.ends? t).elim c.policy c.policy.record →
      Within w t c (w₁.continueAs t c')

theorem ends?_of_point {p : Call.Point α} (hc : w.flights.find? t = some c) (hp : c.point = p)
    (hm : ∀ place x, p ≠ .meeting place x) : w.ends? t = none := by
  unfold ends?
  rw [hc]
  dsimp only
  rw [hp]
  cases p with
  | meeting place x => exact absurd rfl (hm place x)
  | _ => rfl

/-- A call that ends no exchange keeps its policy. -/
theorem Quiet.goto (h : w.Quiet t w₁) (hends : w.ends? t = none) {p : Call.Point α}
    (hp : p.enters = false) : w.Within t c (w₁.continueAs t (c.goto p)) :=
  .goOn h rfl hp (by rw [hends]; rfl)

theorem within_attemptPush (hends : w.ends? t = none) (value : α) :
    w.Within t c (w.attemptPush t c value) := by
  unfold attemptPush
  split
  · exact (((Quiet.refl w t).putStack _).count _).goto hends rfl
  · exact (((Quiet.refl w t).putStack _).count _).goto hends rfl

theorem within_attemptPop (hends : w.ends? t = none) : w.Within t c (w.attemptPop t c) := by
  have hask := Quiet.identify w t
  unfold attemptPop
  dsimp only
  split
  · exact ((Quiet.refl w t).count _).goto hends rfl
  · have htried := fun s notices => (hask.putStack s).report t notices
    split
    · exact ((htried ..).count _).goto hends rfl
    · exact (htried ..).goto hends rfl
    · exact ((htried ..).count _).goto hends rfl
    · exact (htried ..).goto hends rfl

theorem within_visit (hends : w.ends? t = none) (offer : Option α) (a? : Option Address) :
    w.Within t c (w.visit t c offer a?) :=
  .goOn (((Quiet.refl w t).putSlot _ _).report t _) rfl rfl (by rw [hends]; rfl)

theorem within_conclude (h : w.Quiet t w₁) {answer : ExchangeAnswer α}
    (hends : w.ends? t = outcome? c.kind answer) : w.Within t c (w₁.conclude t c answer) := by
  unfold conclude
  split
  · next hk =>
    rw [hk] at hends
    exact .goOn (h.count _) rfl rfl (by rw [hends]; rfl)
  · next hk =>
    rw [hk] at hends
    exact .goOn (h.count _) rfl rfl (by rw [hends]; rfl)
  · have hends : w.ends? t = some .timeout := by
      rw [hends]
      unfold outcome?
      split <;> simp_all
    have htold := fun notices => (h.count Stats.exchangeTimeout).report t notices
    dsimp only
    split
    · exact .goOn (htold _) rfl rfl (by rw [hends]; rfl)
    · exact .goOn (htold _) rfl rfl (by rw [hends]; rfl)
  · have hends : w.ends? t = none := by
      rw [hends]
      unfold outcome?
      split <;> simp_all
    exact h.goto hends rfl

theorem within_meet (hc : w.flights.find? t = some c) {place : Nat} {x : Exchange α}
    (hp : c.point = .meeting place x) : w.Within t c (w.meet t c place x) := by
  have hends : w.ends? t =
      (x.step w.clock (w.stack.slot place)).1.answer?.bind (outcome? c.kind) := by
    simp only [ends?, hc, hp]
  have hput := (Quiet.refl w t).putSlot place (x.step w.clock (w.stack.slot place)).2
  unfold meet
  dsimp only
  split
  · next ha =>
    rw [ha] at hends
    exact within_conclude hput hends
  · next ha =>
    rw [ha] at hends
    exact hput.goto hends rfl

end World

end BackoffStack
