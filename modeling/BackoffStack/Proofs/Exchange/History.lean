/-
Runs of calls at a row of slots, with their history.

Every call has a number of its own. The history remembers what each call offered, and at each step
that joins a waiter which push has met which pop. `History.Paired` says what should hold of the calls
that have met, and where each value should be.
-/
import BackoffStack.Exchange.Arena
import BackoffStack.Proofs.Exchange.Row

namespace BackoffStack

variable {α : Type}

/-- The value that an answer brings back. -/
def ExchangeAnswer.value? : ExchangeAnswer α → Option α
  | .ok theirs => theirs
  | .error timeout => timeout.offer

namespace Arena

/-- The place that a call visits, and its exchange. -/
def visit? (w : Arena α) (t : Nat) : Option (Nat × Exchange α) :=
  (w.flights.find? t).map fun v => (v.place, v.exchange)

/-- The call that the next step of `t` joins, if it joins one: the one that is in the slot. -/
def joined? (w : Arena α) (t : Nat) : Option Nat :=
  match w.visit? t with
  | some (place, x) =>
    if x.joins (w.slot place) then Row.waiter? w.flights.threads w.visit? place else none
  | none => none

/-! ## Steps of a call -/

section Step

variable {w : Arena α} {t : Nat} {v : Visit α} {x' : Exchange α} {s' : Slot α}

theorem step_of_none (hv : w.flights.find? t = none) : w.step t = w := by
  simp [step, hv]

theorem step_of_not_over (hv : w.flights.find? t = some v)
    (hx : v.exchange.step w.clock (w.slot v.place) = (x', s')) (hover : x'.over = false) :
    w.step t = { w with
      slots := w.slots.set v.place s'
      flights := w.flights.insert t { v with exchange := x' } } := by
  have ha : x'.answer? = none := by simpa [Exchange.over] using hover
  simp only [step, hv, hx, ha]

theorem step_of_answer {a : ExchangeAnswer α} (hv : w.flights.find? t = some v)
    (hx : v.exchange.step w.clock (w.slot v.place) = (x', s')) (ha : x'.answer? = some a) :
    w.step t = { w with
      slots := w.slots.set v.place s'
      flights := w.flights.erase t
      returned := (t, a) :: w.returned } := by
  simp only [step, hv, hx, ha]

theorem joined?_of_not_joins
    (hj : ∀ v, w.flights.find? t = some v → v.exchange.joins (w.slot v.place) = false) :
    w.joined? t = none := by
  unfold joined? visit?
  cases hv : w.flights.find? t with
  | none => rfl
  | some v => simp [hj v hv]

theorem joined?_of_joins (hv : w.flights.find? t = some v)
    (hj : v.exchange.joins (w.slot v.place) = true) :
    w.joined? t = Row.waiter? w.flights.threads w.visit? v.place := by
  unfold joined?
  rw [show w.visit? t = some (v.place, v.exchange) by simp [visit?, hv]]
  simp [hj]

end Step

/-! ## Runs -/

/-- What happens at a row of slots. -/
inductive Event (α : Type) where
  /-- A new call makes its offer at a place, in an envelope at `a`. -/
  | offer (t place : Nat) (timeout : Duration) (offer : Option α) (a : Address)
  /-- A call makes one access to its slot, or reads the clock. -/
  | step (t : Nat)
  /-- The clock moves on. -/
  | advance (nanos : Nat)

/-- A row of slots with its history: what the calls so far have offered, and which push has met which
pop. -/
structure History (α : Type) where
  arena : Arena α
  offers : List (Nat × Option α) := []
  pairs : List (Nat × Nat) := []

namespace History

/-- What a call has offered. -/
def offer? (h : History α) (t : Nat) : Option (Option α) := h.offers.lookup t

/-- The call that `t` makes a pair with. -/
def partnerIn (t : Nat) : List (Nat × Nat) → Option Nat
  | [] => none
  | (a, b) :: ps => if a = t then some b else if b = t then some a else partnerIn t ps

/-- The call that a call has met. -/
def partner? (h : History α) (t : Nat) : Option Nat := partnerIn t h.pairs

/-- The pair of a call and the one it joins, the push first. -/
def pair (h : History α) (t u : Nat) : Nat × Nat :=
  if (h.offer? t).any Option.isSome then (t, u) else (u, t)

/-- One event. An offer needs a new number, a place in the row, and an address where no envelope lies;
else nothing happens. So runs in which two values without a size are offered at one slot at
once are not among these. -/
def happen (h : History α) : Event α → History α
  | .offer t place timeout offer a =>
    if h.offer? t = none ∧ place < h.arena.capacity ∧ (h.arena.slot place).Usable a then
      { h with
        arena := h.arena.startAt t place timeout offer a
        offers := (t, offer) :: h.offers }
    else
      h
  | .step t =>
    { h with
      arena := h.arena.step t
      pairs := match h.arena.joined? t with
        | some u => h.pair t u :: h.pairs
        | none => h.pairs }
  | .advance nanos => { h with arena := h.arena.advance nanos }

/-- The history of a run in a row of empty slots. -/
def run (capacity : Nat) (events : List (Event α)) : History α :=
  events.foldl happen { arena := .withCapacity capacity }

/-- Where the value of a push is. -/
inductive Whereabouts where
  /-- In its caller's envelope, as nobody has joined the call. -/
  | caller
  /-- In the slot, for the pop of this number to take. -/
  | slot (pop : Nat)
  /-- Returned by the pop of this number. -/
  | partner (pop : Nat)
  /-- Returned to its caller after a timeout. -/
  | timeout
  deriving DecidableEq

/-- Where the value of a push is, as its partner and its time tell. -/
def whereabouts (h : History α) (t : Nat) : Whereabouts :=
  match h.partner? t with
  | none => if (h.arena.flights.find? t).isSome then .caller else .timeout
  | some u => if (h.arena.flights.find? u).isSome then .slot u else .partner u

/-- The value `v` of push `t` is found there. -/
def Finds (h : History α) (t : Nat) (v : α) : Whereabouts → Prop
  | .caller => ∃ visit, h.arena.flights.find? t = some visit ∧
      (h.arena.slot visit.place).Holds visit.exchange.mine (some v)
  | .slot u => ∃ visit a, h.arena.flights.find? u = some visit ∧
      (h.arena.slot visit.place).word = Word.compose a .busy ∧
      (h.arena.slot visit.place).Holds a (some v)
  | .partner u => (u, .ok (some v)) ∈ h.arena.returned
  | .timeout => (t, .error ⟨some v⟩) ∈ h.arena.returned

/-- What holds of the calls that have met, of those that have not, and of all values. -/
structure Paired (h : History α) : Prop where
  /-- No call is in two pairs. -/
  disjoint : (h.pairs.flatMap fun p => [p.1, p.2]).Nodup
  /-- A pair is a push and a pop, and each returns the other's offer. -/
  pairs : ∀ push pop, (push, pop) ∈ h.pairs → ∃ v,
    h.offer? push = some (some v) ∧ h.offer? pop = some none ∧
    (∀ a, (push, a) ∈ h.arena.returned → a = .ok none) ∧
    ∀ a, (pop, a) ∈ h.arena.returned → a = .ok (some v)
  /-- Only calls that have met return a partner's offer. -/
  completed : ∀ t theirs, (t, .ok theirs) ∈ h.arena.returned →
    ∃ u, (t, u) ∈ h.pairs ∨ (u, t) ∈ h.pairs
  /-- A call that is out of time has met nobody, and returns its own offer. -/
  expired : ∀ t e, (t, .error e) ∈ h.arena.returned →
    h.offer? t = some e.offer ∧ ∀ u, (t, u) ∉ h.pairs ∧ (u, t) ∉ h.pairs
  /-- No call returns twice. -/
  once : (h.arena.returned.map (·.1)).Nodup
  /-- Every offered value is where it is said to be. -/
  found : ∀ t v, h.offer? t = some (some v) → h.Finds t v (h.whereabouts t)
  /-- No value is lost, and none is there twice. -/
  kept : (h.offers.flatMap (·.2.toList)).Perm
    (Row.values h.arena.slots ++ h.arena.returned.flatMap fun r => r.2.value?.toList)

/-! ## Partners -/

variable {h : History α} {t u : Nat}

theorem mem_of_partnerIn {ps : List (Nat × Nat)} (hp : partnerIn t ps = some u) :
    (t, u) ∈ ps ∨ (u, t) ∈ ps := by
  induction ps with
  | nil => simp [partnerIn] at hp
  | cons p ps ih =>
    obtain ⟨a, b⟩ := p
    unfold partnerIn at hp
    split at hp
    · simp_all
    · split at hp
      · simp_all
      · exact (ih hp).imp (List.mem_cons_of_mem _) (List.mem_cons_of_mem _)

/-- The calls of a pair are each other's partners. -/
theorem partnerIn_of_mem {ps : List (Nat × Nat)} (hd : (ps.flatMap fun p => [p.1, p.2]).Nodup)
    (hm : (t, u) ∈ ps) : partnerIn t ps = some u ∧ partnerIn u ps = some t := by
  induction ps with
  | nil => simp at hm
  | cons p ps ih =>
    obtain ⟨a, b⟩ := p
    simp only [List.flatMap_cons, List.cons_append, List.nil_append, List.nodup_cons,
      List.mem_cons, List.mem_flatMap, not_or, not_exists, not_and] at hd
    obtain ⟨⟨hab, ha⟩, hb, hd⟩ := hd
    rcases List.mem_cons.1 hm with e | hm
    · obtain ⟨rfl, rfl⟩ := Prod.mk.inj e
      simp [partnerIn, hab]
    · have hat := ha (t, u) hm
      have hbt := hb (t, u) hm
      simp [partnerIn, hat, hbt, ih hd hm]

/-- A new pair of calls that were in none. -/
theorem nodup_cons_pair {ps : List (Nat × Nat)} {a b : Nat}
    (hd : (ps.flatMap fun p => [p.1, p.2]).Nodup) (hab : a ≠ b) (ha : partnerIn a ps = none)
    (hb : partnerIn b ps = none) : (((a, b) :: ps).flatMap fun p => [p.1, p.2]).Nodup := by
  have hout : ∀ c, partnerIn c ps = none → c ∉ ps.flatMap fun p => [p.1, p.2] := by
    intro c hc hm
    obtain ⟨⟨d, e⟩, hp, hcp⟩ := List.mem_flatMap.1 hm
    obtain ⟨hd', he'⟩ := partnerIn_of_mem hd hp
    rcases List.mem_pair.1 hcp with rfl | rfl
    · exact absurd hd' (by simp [hc])
    · exact absurd he' (by simp [hc])
  simp only [List.flatMap_cons, List.cons_append, List.nil_append, List.nodup_cons, List.mem_cons,
    not_or]
  exact ⟨⟨hab, hout a ha⟩, hout b hb, hd⟩

theorem partnerIn_pair {ps : List (Nat × Nat)} (htu : t ≠ u) (w : Nat) :
    partnerIn w (h.pair t u :: ps) =
      if w = t then some u else if w = u then some t else partnerIn w ps := by
  unfold pair
  split <;> grind [partnerIn]

theorem partner?_eq_none_iff (hd : (h.pairs.flatMap fun p => [p.1, p.2]).Nodup) :
    h.partner? t = none ↔ ∀ u, (t, u) ∉ h.pairs ∧ (u, t) ∉ h.pairs := by
  unfold partner?
  constructor
  · intro hn u
    refine ⟨fun hm => ?_, fun hm => ?_⟩
    · exact absurd (partnerIn_of_mem hd hm).1 (by simp [hn])
    · exact absurd (partnerIn_of_mem hd hm).2 (by simp [hn])
  · intro hm
    cases hp : partnerIn t h.pairs with
    | none => rfl
    | some u => exact (mem_of_partnerIn hp).elim (absurd · (hm u).1) (absurd · (hm u).2)

end History

end Arena

end BackoffStack
